/-
RoninOS.Fs.Fat32Atomic — what a call that fails leaves of the files.

`fat32_write_file` writes the directory entry before the data. Every failing
request but the last leaves each file readable as it was, also where the FAT has
already lost a cluster; once the entry names the new cluster and the write of
the data fails, the name reads back what that cluster held before. `Clobbers` is
that case, and a call is atomic exactly where it does not occur.
-/
import RoninOS.Fs.Fat32Map
import RoninOS.Fs.Fat32Reach

namespace RoninOS.Fs

open RoninOS.Lib

/-! ## Reading once requests no longer fail -/

/-- The volume on its device, once that works. -/
def Fat32Fs.repaired (fs : Fat32Fs) : Fat32Fs :=
  { fs with dev := { fs.dev with fails := fun _ => false } }

/-- What a read returns for the name: the data of its first entry. -/
def FileReads (fs : Fat32Fs) (s : Nat → Mem) (slots : List (Option RootFile))
    (name83 data : List UInt8) : Prop :=
  ∃ i f, FirstEntry slots name83 0 i f ∧ fileData fs s f = data

/-- The shape of a root directory, as far as a read depends on it. -/
structure SizedDir (fs : Fat32Fs) (sec : Mem) (slots : List (Option RootFile)) : Prop where
  dir : DirOk sec slots
  three_le : ∀ (i : Nat) (f : RootFile), slots[i]? = some (some f) → 3 ≤ f.cluster
  cluster_lt : ∀ (i : Nat) (f : RootFile), slots[i]? = some (some f) →
    f.cluster < fs.totalClusters + 2
  size_le : ∀ (i : Nat) (f : RootFile), slots[i]? = some (some f) → f.size ≤ 512

theorem FirstEntry.unique {slots : List (Option RootFile)} {name83 : List UInt8} {k i j : Nat}
    {f g : RootFile} (h : FirstEntry slots name83 k i f) (h' : FirstEntry slots name83 k j g) :
    i = j ∧ f = g := by
  rcases Nat.lt_trichotomy i j with hlt | rfl | hlt
  · exact absurd h.name (h'.first i f h.le hlt h.slot)
  · exact ⟨rfl, Option.some.inj (Option.some.inj (h.slot.symm.trans h'.slot))⟩
  · exact absurd h'.name (h.first j g h'.le hlt h'.slot)

section Reads

variable {fs : Fat32Fs} {s s' : Nat → Mem} {slots : List (Option RootFile)} {i c : Nat}
  {name83 data data' : List UInt8}

theorem FileReads.unique (h : FileReads fs s slots name83 data) (h' : FileReads fs s slots name83 data') :
    data = data' := by
  obtain ⟨i, f, hentry, rfl⟩ := h
  obtain ⟨j, g, hentry', rfl⟩ := h'
  obtain ⟨rfl, rfl⟩ := hentry.unique hentry'
  rfl

theorem Geometry.repaired (hg : Geometry fs) : Geometry fs.repaired :=
  ⟨hg.writable, hg.sectorsPerCluster, hg.fatCount, hg.rootCluster, hg.fatStart, hg.dataStart,
    hg.total, hg.fat_pos, hg.clusters_pos, hg.covers, hg.count_le⟩

/-- `fat32_read_file` on a device that works. -/
theorem readFile_ok_iff (hg : Geometry fs) {d : Disk}
    (h : SizedDir fs (d.sectors fs.dataStartLba) slots) (name : List UInt8) (outCap : Nat)
    (out : List UInt8 × Nat) : (fat32ReadFile fs.repaired name outCap d).1 = .ok out ↔
      ∃ name83 data, makeName83 name = some name83 ∧ FileReads fs d.sectors slots name83 data ∧
        data.length < outCap ∧ out = (data ++ [0], data.length) := by
  have hgr := hg.repaired
  have hworks : ∀ n, ¬ fs.repaired.dev.fails n = true := fun n h => by cases h
  unfold fat32ReadFile
  by_cases hcap : outCap = 0
  · rw [if_pos hcap]
    refine iff_of_false (by simp) ?_
    rintro ⟨_, _, -, -, hlt, -⟩
    omega
  rw [if_neg hcap]
  cases hname : makeName83 name with
  | none => simp
  | some name83 =>
      simp only [Option.some.injEq]
      rcases findRootEntry_cases hgr (d := d) h.dir (makeName83_good hname) with
        ⟨i, f, -, hentry, hfind⟩ | ⟨hmiss | hmiss, hfind⟩
      · have hfile := h.dir.file i f hentry.slot
        have hthree := h.three_le i f hentry.slot
        have hc := h.cluster_lt i f hentry.slot
        have hsize := h.size_le i f hentry.slot
        have hlba : clusterToLba fs.repaired f.cluster < fs.repaired.dev.sectorCount :=
          hgr.clusterToLba_lt (by omega) hc
        have hroot : fs.repaired.dataStartLba < fs.repaired.dev.sectorCount := hgr.rootLba_lt
        have hlen : (fileData fs d.sectors f).length = f.size := length_bytesAt _ _ _
        have hentry_sector : d.sectors fs.repaired.dataStartLba = d.sectors fs.dataStartLba := rfl
        simp only [hfind, orFail_some]
        rw [read_eq hroot, if_neg (hworks _), orFail_some]
        simp only [Disk.sectors_tick, hentry_sector, hfile.size, hfile.cluster]
        rw [if_neg (by omega), add32_of_lt (by omega)]
        constructor
        · intro hread
          split at hread
          · simp at hread
          · rename_i hfits
            rw [read_eq hlba, if_neg (hworks _), orFail_some] at hread
            refine ⟨name83, _, rfl, ⟨i, f, hentry, rfl⟩, by omega, ?_⟩
            rw [hlen]
            exact (Except.ok.inj hread).symm
        · rintro ⟨_, data, rfl, ⟨j, g, hentry', rfl⟩, hfits, rfl⟩
          obtain ⟨rfl, rfl⟩ := hentry.unique hentry'
          rw [hlen] at hfits ⊢
          rw [if_neg (by omega), read_eq hlba, if_neg (hworks _), orFail_some]
          rfl
      · exact absurd hmiss (hworks _)
      · simp only [hfind, orFail_none]
        refine iff_of_false (by simp) ?_
        rintro ⟨_, data, rfl, ⟨j, g, hentry, -⟩, -⟩
        exact hmiss j g hentry.slot hentry.name

/-- Only the data sectors of the files count. -/
theorem FileReads.congr (h : FileReads fs s slots name83 data) (hdir : SizedDir fs (s fs.dataStartLba) slots)
    (hg : Geometry fs) (hsame : ∀ lba, fs.dataStartLba ≤ lba → s' lba = s lba) :
    FileReads fs s' slots name83 data := by
  obtain ⟨i, f, hentry, rfl⟩ := h
  have hlba := hg.dataStart_lt_clusterToLba (hdir.three_le i f hentry.slot)
    (hdir.cluster_lt i f hentry.slot)
  refine ⟨i, f, hentry, ?_⟩
  rw [fileData, fileData, hsame _ hlba.le]

end Reads

/-! ## A new entry -/

/-- The directory with the entry of a new file. -/
theorem SizedDir.enter {fs : Fat32Fs} (hg : Geometry fs) {sec : Mem}
    {slots : List (Option RootFile)} {name83 : List UInt8} {i c len : Nat}
    (h : SizedDir fs sec slots) (hgood : GoodName name83) (hi : i ≤ slots.length)
    (hi16 : i < rootEntries) (hlen : len ≤ 512) (h3 : 3 ≤ c) (hc : c < fs.totalClusters + 2) :
    SizedDir fs (putEntry sec (32 * i) name83 c len) (putSlot slots i (some ⟨name83, c, len⟩)) := by
  have hlt := hg.cluster_lt hc
  refine ⟨h.dir.putEntry hi hi16 hgood (by omega) (by omega), fun j f hf => ?_, fun j f hf => ?_,
    fun j f hf => ?_⟩
  · exact (file_of_putSlot hi hf).elim (fun hnew => Option.some.inj hnew ▸ h3) (h.three_le j f)
  · exact (file_of_putSlot hi hf).elim (fun hnew => Option.some.inj hnew ▸ hc) (h.cluster_lt j f)
  · exact (file_of_putSlot hi hf).elim (fun hnew => Option.some.inj hnew ▸ hlen) (h.size_le j f)

section Enter

variable {slots : List (Option RootFile)} {i j k : Nat} {f g : RootFile} {name83 : List UInt8}

/-- The first entry of a name stays the first, unless the new one comes before it. -/
theorem FirstEntry.put (h : FirstEntry slots name83 k j f) (hi : i ≤ slots.length) (hne : j ≠ i)
    (hnew : i < j → g.name83 ≠ name83) : FirstEntry (putSlot slots i (some g)) name83 k j f := by
  refine ⟨h.le, ?_, h.name, fun l e hl hlj he => ?_⟩
  · rw [getElem?_putSlot hi, if_neg hne]
    exact h.slot
  · rw [getElem?_putSlot hi] at he
    split at he
    · rename_i heq
      obtain rfl := Option.some.inj (Option.some.inj he)
      exact hnew (heq ▸ hlj)
    · exact h.first l e hl hlj he

/-- The new entry is the first of its name where no earlier one has it. -/
theorem firstEntry_put (hi : i ≤ slots.length)
    (hnone : ∀ (l : Nat) (e : RootFile), l < i → slots[l]? = some (some e) → e.name83 ≠ g.name83) :
    FirstEntry (putSlot slots i (some g)) g.name83 0 i g := by
  refine ⟨Nat.zero_le i, ?_, rfl, fun l e _ hl he => ?_⟩
  · rw [getElem?_putSlot hi, if_pos rfl]
  · rw [getElem?_putSlot hi, if_neg (by omega)] at he
    exact hnone l e hl he

end Enter

/-- A call that returns -1 leaves every file readable with its data, once
requests no longer fail. -/
def ReadsKept (fs : Fat32Fs) (d : Disk) (r : Except String Unit × Disk) : Prop :=
  ∀ msg, r.1 = .error msg → ∀ name outCap out,
    (fat32ReadFile fs.repaired name outCap d).1 = .ok out →
    (fat32ReadFile fs.repaired name outCap r.2).1 = .ok out

/-- From request `n` on, `writeEntry` enters cluster `c` and then fails to write
its data. -/
structure LosesData (fs : Fat32Fs) (n : Nat) (s : Nat → Mem) (c : Nat) : Prop where
  enters : Enters fs n s c
  fails : fs.dev.fails (n + c + 3) = true

section Kept

variable {fs : Fat32Fs} (hg : Geometry fs) {d : Disk} {slots : List (Option RootFile)}
  (hdir : SizedDir fs (d.sectors fs.dataStartLba) slots)
include hg hdir

/-- Changes in front of the data area lose nothing. -/
theorem readsKept_of_data {r : Except String Unit × Disk}
    (hsame : ∀ lba, fs.dataStartLba ≤ lba → r.2.sectors lba = d.sectors lba) :
    ReadsKept fs d r := by
  intro msg _ name outCap out hread
  have hdir' : SizedDir fs (r.2.sectors fs.dataStartLba) slots := by
    rw [hsame _ (le_refl _)]
    exact hdir
  obtain ⟨name83, data, hname, hreads, hcap⟩ := (readFile_ok_iff hg hdir _ _ _).mp hread
  exact (readFile_ok_iff hg hdir' _ _ _).mpr
    ⟨name83, data, hname, hreads.congr hdir hg hsame, hcap⟩

/-- The entry of a new file at slot `i`, with the FAT as it may be by then: the
reads are kept where no old entry of the name follows it, or the new cluster
holds the old data. -/
theorem readsKept_enter_iff {s : Nat → Mem} {i c len : Nat} {name name83 : List UInt8}
    {r : Except String Unit × Disk} {msg : String} (herror : r.1 = .error msg)
    (hsectors : r.2.sectors = enterSectors fs s (d.sectors fs.dataStartLba) (32 * i) name83 c len)
    (hsame : ∀ lba, fs.dataStartLba ≤ lba → s lba = d.sectors lba)
    (hname : makeName83 name = some name83) (hi : i ≤ slots.length) (hi16 : i < rootEntries)
    (hlen : len ≤ 512) (h3 : 3 ≤ c) (hc : c < 128 * fs.sectorsPerFat)
    (hc2 : c < fs.totalClusters + 2)
    (hslot : ∀ f : RootFile, slots[i]? = some (some f) → f.name83 = name83) :
    ReadsKept fs d r ↔ ∀ j f, FirstEntry slots name83 0 j f → i ≤ j →
      bytesAt (d.sectors (clusterToLba fs c)) 0 len = fileData fs d.sectors f := by
  have hgood := makeName83_good hname
  have hdata : ∀ lba, fs.dataStartLba < lba → r.2.sectors lba = d.sectors lba := by
    intro lba hlba
    rw [hsectors, enterSectors, Function.update_of_ne (by omega),
      setBoth_data hg hc hc2 hlba.le, hsame lba hlba.le]
  have hfile : ∀ {j : Nat} {f : RootFile}, slots[j]? = some (some f) →
      fileData fs r.2.sectors f = fileData fs d.sectors f := by
    intro j f hf
    rw [fileData, fileData, hdata _ (hg.dataStart_lt_clusterToLba (hdir.three_le j f hf)
      (hdir.cluster_lt j f hf))]
  have hdir' : SizedDir fs (r.2.sectors fs.dataStartLba)
      (putSlot slots i (some ⟨name83, c, len⟩)) := by
    have hroot : r.2.sectors fs.dataStartLba
        = putEntry (d.sectors fs.dataStartLba) (32 * i) name83 c len := by
      rw [hsectors]
      exact Function.update_self _ _ _
    rw [hroot]
    exact hdir.enter hg hgood hi hi16 hlen h3 hc2
  -- where no earlier entry has the name, it reads as the new cluster
  have hnew : (∀ (l : Nat) (e : RootFile), l < i → slots[l]? = some (some e) → e.name83 ≠ name83) →
      FileReads fs r.2.sectors (putSlot slots i (some ⟨name83, c, len⟩)) name83
        (bytesAt (d.sectors (clusterToLba fs c)) 0 len) := by
    intro hnone
    refine ⟨i, _, firstEntry_put hi hnone, ?_⟩
    rw [fileData, hdata _ (hg.dataStart_lt_clusterToLba h3 hc2)]
  constructor
  · intro hkept j f hentry hij
    have hread := (readFile_ok_iff hg hdir name ((fileData fs d.sectors f).length + 1) _).mpr
      ⟨name83, _, hname, ⟨j, f, hentry, rfl⟩, Nat.lt_succ_self _, rfl⟩
    have hread' := (readFile_ok_iff hg hdir' _ _ _).mp (hkept msg herror _ _ _ hread)
    obtain ⟨_, data, hname', hreads, -, hout⟩ := hread'
    obtain rfl := Option.some.inj (hname.symm.trans hname')
    have heq := hreads.unique (hnew fun l e hl he => hentry.first l e (Nat.zero_le _) (by omega) he)
    rw [← heq]
    exact (List.append_cancel_right (Prod.mk.inj hout).1).symm
  · intro hold msg' _ nm outCap out hread
    obtain ⟨nm83, data, hnm, ⟨j, f, hentry, rfl⟩, hcap⟩ := (readFile_ok_iff hg hdir _ _ _).mp hread
    refine (readFile_ok_iff hg hdir' _ _ _).mpr ⟨nm83, _, hnm, ?_, hcap⟩
    by_cases hthis : nm83 = name83 ∧ i ≤ j
    · obtain ⟨rfl, hij⟩ := hthis
      rw [← hold j f hentry hij]
      exact hnew fun l e hl he => hentry.first l e (Nat.zero_le _) (by omega) he
    · have hji : j ≠ i := by
        rintro rfl
        exact hthis ⟨hentry.name.symm.trans (hslot f hentry.slot), le_refl _⟩
      refine ⟨j, f, hentry.put hi hji fun hij heq => ?_, hfile hentry.slot⟩
      exact hthis ⟨heq.symm, hij.le⟩

/-- `writeEntry` keeps the reads unless it loses the data of a name whose old
entry does not come first. -/
theorem EntryOutcome.readsKept_iff {s : Nat → Mem} {i n : Nat} {name name83 data : List UInt8}
    {r : Except String Unit × Disk}
    (hr : EntryOutcome fs n s (d.sectors fs.dataStartLba) (32 * i) name83 data r)
    (hsame : ∀ lba, fs.dataStartLba ≤ lba → s lba = d.sectors lba) (hfat : FatOk fs s)
    (hname : makeName83 name = some name83) (hlen : data.length ≤ 512) (hi : i ≤ slots.length)
    (hi16 : i < rootEntries)
    (hslot : ∀ f : RootFile, slots[i]? = some (some f) → f.name83 = name83) :
    ReadsKept fs d r ↔ ∀ c j f, LosesData fs n s c → FirstEntry slots name83 0 j f → i ≤ j →
      bytesAt (d.sectors (clusterToLba fs c)) 0 data.length = fileData fs d.sectors f := by
  cases hr with
  | nothing hnone hsectors =>
      refine iff_of_true (readsKept_of_data hg hdir fun lba hlba => ?_) fun c j f hloses => ?_
      · rw [hsectors]
        exact hsame lba hlba
      · exact absurd hloses.enters.toMarks (hnone c)
  | marked hmarks hstop hsectors =>
      obtain ⟨-, hc, hc2⟩ := hmarks.first.data_cluster hfat
      refine iff_of_true (readsKept_of_data hg hdir fun lba hlba => ?_) fun c j f hloses => ?_
      · rcases hsectors with hsectors | hsectors
        · rw [hsectors, setFirst_data hg hc hc2 hlba]
          exact hsame lba hlba
        · rw [hsectors, setBoth_data hg hc hc2 hlba]
          exact hsame lba hlba
      · exact absurd (hloses.enters.first.unique hmarks.first ▸ hloses.enters) hstop
  | @entered c _ _ henters hfail hsectors =>
      obtain ⟨h3, hc, hc2⟩ := henters.first.data_cluster hfat
      rw [readsKept_enter_iff hg hdir rfl hsectors hsame hname hi hi16 hlen h3 hc hc2 hslot]
      constructor
      · intro hold c' j f hloses hentry hij
        obtain rfl := hloses.enters.first.unique henters.first
        exact hold j f hentry hij
      · intro hold j f hentry hij
        exact hold c j f ⟨henters, hfail⟩ hentry hij
  | written henters hok _ _ =>
      refine iff_of_true (fun msg herror => by cases herror) fun c j f hloses => ?_
      obtain rfl := hloses.enters.first.unique henters.first
      simp [hloses.fails] at hok

end Kept

/-! ## One call -/

/-- The call does not lose a file's data when it returns -1. -/
def FailureAtomic (fs : Fat32Fs) (op : FatOp) (d : Disk) : Prop := ReadsKept fs d (runOp fs op d)

/-- A write enters a new cluster for the name of the file in slot `j` and fails to
write its data, while the cluster holds other bytes than the file: the file was
found and its cluster freed, or the lookup failed and the new entry comes before
the old one. -/
def Clobbers (fs : Fat32Fs) (d : Disk) : FatOp → Prop
  | .delete _ => False
  | .write name data => data.length ≤ 512 ∧ fs.dev.fails d.requests = false ∧
      ∃ name83 j c, makeName83 name = some name83 ∧ SlotLive (d.sectors (rootLba fs)) j ∧
        bytesAt (d.sectors (rootLba fs)) (32 * j) 11 = name83 ∧
        bytesAt (d.sectors (clusterToLba fs c)) 0 data.length ≠
          bytesAt (d.sectors (clusterToLba fs (entryCluster (d.sectors (rootLba fs)) (32 * j)))) 0
            (ld32 (d.sectors (rootLba fs)) (32 * j + 28)) ∧
        (((∀ k < 4, fs.dev.fails (d.requests + 1 + k) = false) ∧
            LosesData fs (d.requests + 5)
              (setBoth fs d.sectors (entryCluster (d.sectors (rootLba fs)) (32 * j)) 0) c) ∨
          (fs.dev.fails (d.requests + 1) = true ∧
            (∃ i < j, freeSlotFrom (d.sectors (rootLba fs)) rootEntries 0 = some (32 * i)) ∧
            LosesData fs (d.requests + 2) d.sectors c))

section Calls

variable {fs : Fat32Fs} (hg : Geometry fs) {d : Disk} {slots : List (Option RootFile)}
  (hok : VolOk fs d.sectors slots)
  (hsize : ∀ (i : Nat) (f : RootFile), slots[i]? = some (some f) → f.size ≤ 512)
include hok

/-- Names are unique, so every entry of a name is the first. -/
theorem VolOk.firstEntry_iff {name83 : List UInt8} {j : Nat} {f : RootFile} :
    FirstEntry slots name83 0 j f ↔ slots[j]? = some (some f) ∧ f.name83 = name83 := by
  constructor
  · exact fun h => ⟨h.slot, h.name⟩
  · rintro ⟨hslot, hname⟩
    refine ⟨Nat.zero_le j, hslot, hname, fun l e _ hl he heq => ?_⟩
    have := hok.same_slot he hslot heq hname
    omega

include hg

/-- `Clobbers` in terms of the files. -/
theorem clobbers_write_iff {name name83 data : List UInt8} (hname : makeName83 name = some name83)
    (hlen : data.length ≤ 512) : Clobbers fs d (.write name data) ↔
      fs.dev.fails d.requests = false ∧ ∃ j f c, FirstEntry slots name83 0 j f ∧
        bytesAt (d.sectors (clusterToLba fs c)) 0 data.length ≠ fileData fs d.sectors f ∧
        (((∀ k < 4, fs.dev.fails (d.requests + 1 + k) = false) ∧
            LosesData fs (d.requests + 5) (setBoth fs d.sectors f.cluster 0) c) ∨
          (fs.dev.fails (d.requests + 1) = true ∧
            (∃ i < j, freeSlotFrom (d.sectors fs.dataStartLba) rootEntries 0 = some (32 * i)) ∧
            LosesData fs (d.requests + 2) d.sectors c)) := by
  simp only [Clobbers, hg.rootLba_eq]
  constructor
  · rintro ⟨-, h0, _, j, c, hname', hlive, hbytes, hstale, hcase⟩
    obtain rfl := Option.some.inj (hname.symm.trans hname')
    obtain ⟨f, hf⟩ := hok.dir.slotLive_iff.mp hlive
    have hfile := hok.dir.file j f hf
    rw [hfile.cluster] at hcase
    rw [hfile.cluster, hfile.size] at hstale
    exact ⟨h0, j, f, c, hok.firstEntry_iff.mpr ⟨hf, hfile.name.symm.trans hbytes⟩, hstale, hcase⟩
  · rintro ⟨h0, j, f, c, hentry, hstale, hcase⟩
    have hfile := hok.dir.file j f hentry.slot
    refine ⟨hlen, h0, name83, j, c, hname, hok.dir.slotLive_iff.mpr ⟨f, hentry.slot⟩,
      hfile.name.trans hentry.name, ?_, ?_⟩
    · rw [hfile.cluster, hfile.size]
      exact hstale
    · rw [hfile.cluster]
      exact hcase

include hsize

/-- `fat32_write_file`. -/
theorem write_atomic_iff (name data : List UInt8) :
    ReadsKept fs d (fat32WriteFile fs name data d) ↔ ¬ Clobbers fs d (.write name data) := by
  have hdir : SizedDir fs (d.sectors fs.dataStartLba) slots :=
    ⟨hok.dir, hok.files.three_le, fun i f hf => (hok.files.cluster_lt i f hf).2, hsize⟩
  by_cases haccepted : data.length ≤ 512 ∧ ∃ name83, makeName83 name = some name83
  · obtain ⟨hlen, name83, hname⟩ := haccepted
    have houtcome := fat32WriteFile_outcome hg hok.shape hname hlen
    generalize fat32WriteFile fs name data d = r at houtcome
    rw [clobbers_write_iff hg hok hname hlen]
    cases houtcome with
    | unread hfail hsectors =>
        refine iff_of_true (readsKept_of_data hg hdir fun lba _ => congrFun hsectors lba) ?_
        rintro ⟨h0, -⟩
        simp [h0] at hfail
    | full _ hmiss _ hnoslot hsectors =>
        refine iff_of_true (readsKept_of_data hg hdir fun lba _ => congrFun hsectors lba) ?_
        rintro ⟨-, j, f, c, hentry, -, ⟨hserved, -⟩ | ⟨-, ⟨i, -, hslot⟩, -⟩⟩
        · have hfail := hmiss.resolve_right fun habsent => habsent j f hentry.slot hentry.name
          simp [hserved 0 (by decide)] at hfail
        · simp [hnoslot] at hslot
    | @fresh i _ h0 hmiss hi hi16 hempty hslot hr =>
        rw [hr.readsKept_iff hg hdir (fun _ _ => rfl) hok.fat hname hlen hi hi16
          fun f hf => absurd hf (hempty f)]
        have hmissed : ∀ {j f}, FirstEntry slots name83 0 j f →
            fs.dev.fails (d.requests + 1) = true := fun hentry =>
          hmiss.resolve_right fun habsent => habsent _ _ hentry.slot hentry.name
        constructor
        · rintro hold ⟨-, j, f, c, hentry, hstale, ⟨hserved, -⟩ | ⟨-, ⟨i', hij, hslot'⟩, hloses⟩⟩
          · have hfail := hmissed hentry
            simp [hserved 0 (by decide)] at hfail
          · obtain heq := Option.some.inj (hslot.symm.trans hslot')
            exact hstale (hold c j f hloses hentry (by omega))
        · intro hno c j f hloses hentry hij
          by_contra hstale
          have hne : i ≠ j := by
            rintro rfl
            exact hempty f hentry.slot
          exact hno ⟨h0, j, f, c, hentry, hstale,
            Or.inr ⟨hmissed hentry, ⟨i, by omega, hslot⟩, hloses⟩⟩
    | unfreed _ h1 _ _ hfail hsectors =>
        refine iff_of_true (readsKept_of_data hg hdir fun lba _ => congrFun hsectors lba) ?_
        rintro ⟨-, j, f, c, -, -, ⟨hserved, -⟩ | ⟨hbad, -⟩⟩
        · have h2 := hserved 1 (by decide)
          have h3 := hserved 2 (by decide)
          simp only [Nat.add_assoc, Nat.reduceAdd] at h2 h3
          simp [h2, h3] at hfail
        · simp [h1] at hbad
    | @halfFreed i f _ _ _ h1 hf _ _ _ h4 hsectors =>
        obtain ⟨hfc, hfc2⟩ := hok.files.cluster_lt i f hf
        refine iff_of_true (readsKept_of_data hg hdir fun lba hlba => ?_) ?_
        · rw [hsectors]
          exact setFirst_data hg hfc hfc2 hlba
        · rintro ⟨-, j, g, c, -, -, ⟨hserved, -⟩ | ⟨hbad, -⟩⟩
          · have h4' := hserved 3 (by decide)
            simp only [Nat.add_assoc, Nat.reduceAdd] at h4'
            simp [h4'] at h4
          · simp [h1] at hbad
    | @freed i f _ h0 h1 hf hfname h2 h3 h4 hr =>
        obtain ⟨hfc, hfc2⟩ := hok.files.cluster_lt i f hf
        have hthree := hok.files.three_le i f hf
        have hi := slot_lt hf
        have hthis : FirstEntry slots name83 0 i f := hok.firstEntry_iff.mpr ⟨hf, hfname⟩
        rw [hr.readsKept_iff hg hdir (fun lba hlba => setBoth_data hg hfc hfc2 hlba)
          (hok.fat.setBoth hg hthree hfc hfc2 (by decide)) hname hlen hi.le
          (Nat.lt_of_lt_of_le hi hok.dir.length_le) fun g hgi => by
            rw [hf] at hgi
            rw [← Option.some.inj (Option.some.inj hgi)]
            exact hfname]
        constructor
        · rintro hold ⟨-, j, g, c, hentry, hstale, ⟨-, hloses⟩ | ⟨hbad, -⟩⟩
          · obtain ⟨rfl, rfl⟩ := hthis.unique hentry
            exact hstale (hold c i f hloses hentry (le_refl i))
          · simp [h1] at hbad
        · intro hno c j g hloses hentry _
          by_contra hstale
          obtain ⟨rfl, rfl⟩ := hthis.unique hentry
          refine hno ⟨h0, i, f, c, hentry, hstale, Or.inl ⟨fun k hk => ?_, hloses⟩⟩
          obtain rfl | rfl | rfl | rfl : k = 0 ∨ k = 1 ∨ k = 2 ∨ k = 3 := by omega
          · exact h1
          · exact h2
          · exact h3
          · exact h4
  · obtain ⟨e, hrefused⟩ := fat32WriteFile_refused hg haccepted
    rw [hrefused]
    refine iff_of_true (readsKept_of_data hg hdir fun _ _ => rfl) ?_
    rintro ⟨hlen, -, name83, _, _, hname, -⟩
    exact haccepted ⟨hlen, name83, hname⟩

/-- `fat32_delete_file` loses nothing when it fails. -/
theorem delete_readsKept (name : List UInt8) : ReadsKept fs d (fat32DeleteFile fs name d) := by
  have hdir : SizedDir fs (d.sectors fs.dataStartLba) slots :=
    ⟨hok.dir, hok.files.three_le, fun i f hf => (hok.files.cluster_lt i f hf).2, hsize⟩
  cases hname : makeName83 name with
  | none =>
      rw [fat32DeleteFile, hname]
      exact readsKept_of_data hg hdir fun _ _ => rfl
  | some name83 =>
      have houtcome := fat32DeleteFile_outcome hg hok.shape hname
      generalize fat32DeleteFile fs name d = r at houtcome
      cases houtcome with
      | missing _ hsectors => exact readsKept_of_data hg hdir fun lba _ => congrFun hsectors lba
      | unfreed _ _ _ hsectors => exact readsKept_of_data hg hdir fun lba _ => congrFun hsectors lba
      | halfFreed hf _ _ _ hsectors =>
          obtain ⟨hfc, hfc2⟩ := hok.files.cluster_lt _ _ hf
          refine readsKept_of_data hg hdir fun lba hlba => ?_
          rw [hsectors]
          exact setFirst_data hg hfc hfc2 hlba
      | unmarked hf _ _ _ hsectors =>
          obtain ⟨hfc, hfc2⟩ := hok.files.cluster_lt _ _ hf
          refine readsKept_of_data hg hdir fun lba hlba => ?_
          rw [hsectors]
          exact setBoth_data hg hfc hfc2 hlba
      | deleted _ _ _ _ => exact fun msg herror => by cases herror

end Calls

/-- Shape and no cross-links make the whole invariant. -/
theorem SizedShape.volOk {fs : Fat32Fs} {s : Nat → Mem} {slots : List (Option RootFile)}
    (h : SizedShape fs s slots) (hg : Geometry fs) (hlinks : NoCrossLinks fs s) :
    VolOk fs s slots := by
  obtain ⟨hclusters, hnames, -, hallocated⟩ := hlinks
  rw [hg.rootLba_eq] at hclusters hnames hallocated
  refine ⟨h.fat, h.dir, ⟨fun i j f g hf hgj heq => ?_, fun i j f g hf hgj heq => ?_, h.three_le,
    h.cluster_lt, fun i f hf => ?_⟩⟩
  · refine hnames i j (h.dir.slotLive_iff.mpr ⟨f, hf⟩) (h.dir.slotLive_iff.mpr ⟨g, hgj⟩) ?_
    rw [(h.dir.file i f hf).name, (h.dir.file j g hgj).name, heq]
  · refine hclusters i j (h.dir.slotLive_iff.mpr ⟨f, hf⟩) (h.dir.slotLive_iff.mpr ⟨g, hgj⟩) ?_
    rw [(h.dir.file i f hf).cluster, (h.dir.file j g hgj).cluster, heq]
  · have hmarked := hallocated i (h.dir.slotLive_iff.mpr ⟨f, hf⟩)
    rwa [(h.dir.file i f hf).cluster] at hmarked

/-- In every reachable volume that is laid out as it should be and has no
cross-links, whatever requests of the call fail, the call loses a file's data
exactly where it clobbers it. -/
theorem failure_atomic_iff {dev : BlockDev} {before d : Disk} {fs : Fat32Fs}
    (hreach : FatReach dev before fs d) (hg : Geometry fs) (hlinks : NoCrossLinks fs d.sectors)
    (op : FatOp) : FailureAtomic fs op d ↔ ¬ Clobbers fs d op := by
  obtain ⟨slots, hshape⟩ := hreach.shape hg
  have hok := hshape.volOk hg hlinks
  cases op with
  | write name data => exact write_atomic_iff hg hok hshape.size_le name data
  | delete name => exact iff_of_true (delete_readsKept hg hok hshape.size_le name) id

/-! ## An overwrite whose data is lost -/

/-- The first write on an empty volume cannot cross-link files. -/
theorem Formatted.first_write {dev : BlockDev} {before d : Disk} {fs : Fat32Fs}
    (h : Formatted dev before fs d) (hhigh : dev.sectorCount ≤ fatSizeLimit)
    (name data : List UInt8) : NoCrossLinks fs (runOp fs (.write name data) d).2.sectors := by
  have hg := h.geometry hhigh
  obtain ⟨slots, hok⟩ :=
    (runOp_keeps hg (h.volOk hhigh) (.write name data)).1 (h.opSafe_first hhigh name data)
  exact hok.noCrossLinks hg

/-- A delete on a volume with one file loses nothing, whatever fails. -/
theorem failure_atomic_delete : ∃ d, FatReach faultyDev ⟨fun _ => zeroSector, 0⟩
    (formattedFs faultyDev 2) d ∧ FailureAtomic (formattedFs faultyDev 2) (.delete (ascii "A")) d := by
  have hreach := (FatReach.start faultyDev_formatted).call (.write (ascii "A") (ascii "x"))
  exact ⟨_, hreach, (failure_atomic_iff hreach (faultyDev_formatted.geometry (by decide))
    (faultyDev_formatted.first_write (by decide) _ _) _).mpr id⟩

/-- The device of `exampleDev` with a later request that fails. -/
def lossyDev : BlockDev := { exampleDev with fails := (· == 31) }

theorem lossyDev_formatted :
    Formatted lossyDev ⟨fun _ => zeroSector, 0⟩ (formattedFs lossyDev 2)
      ((fat32Format lossyDev ⟨fun _ => zeroSector, 0⟩).2.tick 1) :=
  formatted_of_isOk (by decide) (by decide +kernel) (by decide +kernel)

/-- The write of the data fails: "A" held "x", and its entry now has the size of
the new data in front of the old byte. -/
theorem overwrite_loses_data : ∃ d,
    FatReach lossyDev ⟨fun _ => zeroSector, 0⟩ (formattedFs lossyDev 2) d ∧
      Geometry (formattedFs lossyDev 2) ∧ NoCrossLinks (formattedFs lossyDev 2) d.sectors ∧
      ¬ FailureAtomic (formattedFs lossyDev 2) (.write (ascii "A") (ascii "yy")) d := by
  refine ⟨_, (FatReach.start lossyDev_formatted).call (.write (ascii "A") (ascii "x")),
    lossyDev_formatted.geometry (by decide), lossyDev_formatted.first_write (by decide) _ _,
    fun hkept => ?_⟩
  have hread := hkept "write file data failed" (by decide +kernel) (ascii "A") 2
    (ascii "x" ++ [0], 1) (by decide +kernel)
  exact absurd hread (by decide +kernel)

end RoninOS.Fs
