/-
RoninOS.Fs.Fat32Volume — what writing and deleting a file do to a volume.

`VolOk fs s slots` is the invariant of a volume: the reserved FAT entries are in
use, the root sector holds `slots`, and the files have different names and
different clusters, all of them marked in the FAT. The outcomes list, with the
requests that failed, everything an operation can do to the sectors: a
successful one, and each way it can stop. Later proofs read them instead of the
code, with no failures for a device that works and with all of them otherwise.
-/
import RoninOS.Fs.Fat32Format

namespace RoninOS.Fs

open RoninOS.Lib

/-! ## The invariant -/

/-- The files of the slots have names and clusters of their own, and the FAT
marks their clusters. -/
structure FilesOk (fs : Fat32Fs) (s : Nat → Mem) (slots : List (Option RootFile)) : Prop where
  name_inj : ∀ (i j : Nat) (f g : RootFile), slots[i]? = some (some f) → slots[j]? = some (some g) →
    f.name83 = g.name83 → i = j
  cluster_inj : ∀ (i j : Nat) (f g : RootFile), slots[i]? = some (some f) → slots[j]? = some (some g) →
    f.cluster = g.cluster → i = j
  three_le : ∀ (i : Nat) (f : RootFile), slots[i]? = some (some f) → 3 ≤ f.cluster
  cluster_lt : ∀ (i : Nat) (f : RootFile), slots[i]? = some (some f) →
    f.cluster < 128 * fs.sectorsPerFat ∧ f.cluster < fs.totalClusters + 2
  marked : ∀ (i : Nat) (f : RootFile), slots[i]? = some (some f) → fatEntry fs s f.cluster ≠ 0

/-- The invariant of a volume. -/
structure VolOk (fs : Fat32Fs) (s : Nat → Mem) (slots : List (Option RootFile)) : Prop where
  fat : FatOk fs s
  dir : DirOk (s fs.dataStartLba) slots
  files : FilesOk fs s slots

/-- The part of the invariant that no failing request breaks. -/
structure VolShape (fs : Fat32Fs) (s : Nat → Mem) (slots : List (Option RootFile)) : Prop where
  fat : FatOk fs s
  dir : DirOk (s fs.dataStartLba) slots
  three_le : ∀ (i : Nat) (f : RootFile), slots[i]? = some (some f) → 3 ≤ f.cluster
  cluster_lt : ∀ (i : Nat) (f : RootFile), slots[i]? = some (some f) →
    f.cluster < 128 * fs.sectorsPerFat ∧ f.cluster < fs.totalClusters + 2

theorem VolOk.shape {fs : Fat32Fs} {s : Nat → Mem} {slots : List (Option RootFile)}
    (h : VolOk fs s slots) : VolShape fs s slots :=
  ⟨h.fat, h.dir, h.files.three_le, h.files.cluster_lt⟩

/-- A fresh volume has no files. -/
theorem Formatted.volOk {dev : BlockDev} {before d : Disk} {fs : Fat32Fs}
    (h : Formatted dev before fs d) (hhigh : dev.sectorCount ≤ fatSizeLimit) :
    VolOk fs d.sectors [] where
  fat := h.fatOk hhigh
  dir := h.dirOk hhigh
  files := by constructor <;> simp

section Files

variable {fs : Fat32Fs} {s s' : Nat → Mem} {slots : List (Option RootFile)} {i c : Nat}

/-- The files other than the one in slot `i`. -/
theorem getElem?_putSlot_none (hi : i ≤ slots.length) {j : Nat} {f : RootFile} :
    (putSlot slots i none)[j]? = some (some f) ↔ j ≠ i ∧ slots[j]? = some (some f) := by
  rw [getElem?_putSlot hi]
  split
  · rename_i heq
    simp [heq]
  · rename_i hne
    simp [hne]

/-- A slot without a file can be emptied. -/
theorem FilesOk.vacate (h : FilesOk fs s slots) (hi : i ≤ slots.length) :
    FilesOk fs s (putSlot slots i none) := by
  constructor
  · intro j k f g hf hg heq
    exact h.name_inj j k f g ((getElem?_putSlot_none hi).mp hf).2
      ((getElem?_putSlot_none hi).mp hg).2 heq
  · intro j k f g hf hg heq
    exact h.cluster_inj j k f g ((getElem?_putSlot_none hi).mp hf).2
      ((getElem?_putSlot_none hi).mp hg).2 heq
  · exact fun j f hf => h.three_le j f ((getElem?_putSlot_none hi).mp hf).2
  · exact fun j f hf => h.cluster_lt j f ((getElem?_putSlot_none hi).mp hf).2
  · exact fun j f hf => h.marked j f ((getElem?_putSlot_none hi).mp hf).2

/-- The FAT may change where it still marks every file. -/
theorem FilesOk.withFat (h : FilesOk fs s slots)
    (hmarked : ∀ (j : Nat) (f : RootFile), slots[j]? = some (some f) → fatEntry fs s' f.cluster ≠ 0) :
    FilesOk fs s' slots :=
  ⟨h.name_inj, h.cluster_inj, h.three_le, h.cluster_lt, hmarked⟩

/-- A new file with a name and a cluster of its own. -/
theorem FilesOk.fill {name83 : List UInt8} {size : Nat} (h : FilesOk fs s (putSlot slots i none))
    (hi : i ≤ slots.length) (hname : ∀ (j : Nat) (f : RootFile), j ≠ i → slots[j]? = some (some f) → f.name83 ≠ name83)
    (hcluster : ∀ (j : Nat) (f : RootFile), j ≠ i → slots[j]? = some (some f) → f.cluster ≠ c) (h3 : 3 ≤ c)
    (hc : c < 128 * fs.sectorsPerFat) (hc2 : c < fs.totalClusters + 2)
    (hmark : fatEntry fs s c ≠ 0) :
    FilesOk fs s (putSlot slots i (some ⟨name83, c, size⟩)) := by
  -- a file of the new slots is the new one or an old one elsewhere
  have hcases : ∀ {j f}, (putSlot slots i (some ⟨name83, c, size⟩))[j]? = some (some f) →
      (j = i ∧ f = ⟨name83, c, size⟩) ∨ (j ≠ i ∧ slots[j]? = some (some f)) := by
    intro j f hf
    rw [getElem?_putSlot hi] at hf
    split at hf
    · rename_i heq
      exact Or.inl ⟨heq, (Option.some.inj (Option.some.inj hf)).symm⟩
    · rename_i hne
      exact Or.inr ⟨hne, hf⟩
  have hold : ∀ {j f}, j ≠ i → slots[j]? = some (some f) →
      (putSlot slots i none)[j]? = some (some f) :=
    fun hne hf => (getElem?_putSlot_none hi).mpr ⟨hne, hf⟩
  constructor
  · intro j k f g hf hg heq
    rcases hcases hf with ⟨rfl, rfl⟩ | ⟨hj, hf'⟩ <;> rcases hcases hg with ⟨rfl, rfl⟩ | ⟨hk, hg'⟩
    · rfl
    · exact absurd heq.symm (hname k g hk hg')
    · exact absurd heq (hname j f hj hf')
    · exact h.name_inj j k f g (hold hj hf') (hold hk hg') heq
  · intro j k f g hf hg heq
    rcases hcases hf with ⟨rfl, rfl⟩ | ⟨hj, hf'⟩ <;> rcases hcases hg with ⟨rfl, rfl⟩ | ⟨hk, hg'⟩
    · rfl
    · exact absurd heq.symm (hcluster k g hk hg')
    · exact absurd heq (hcluster j f hj hf')
    · exact h.cluster_inj j k f g (hold hj hf') (hold hk hg') heq
  · intro j f hf
    rcases hcases hf with ⟨rfl, rfl⟩ | ⟨hj, hf⟩
    · exact h3
    · exact h.three_le j f (hold hj hf)
  · intro j f hf
    rcases hcases hf with ⟨rfl, rfl⟩ | ⟨hj, hf⟩
    · exact ⟨hc, hc2⟩
    · exact h.cluster_lt j f (hold hj hf)
  · intro j f hf
    rcases hcases hf with ⟨rfl, rfl⟩ | ⟨hj, hf⟩
    · exact hmark
    · exact h.marked j f (hold hj hf)

end Files

/-! ## Outcomes -/

/-- From request `n` on, `alloc_cluster` takes cluster `c` and writes its entry
of the first FAT. -/
structure Marks (fs : Fat32Fs) (n : Nat) (s : Nat → Mem) (c : Nat) : Prop where
  first : FirstFree fs n s c
  read : fs.dev.fails (n + c - 1) = false
  write : fs.dev.fails (n + c) = false

/-- From request `n` on, `writeEntry` takes cluster `c` and gets as far as the
directory entry. -/
structure Enters (fs : Fat32Fs) (n : Nat) (s : Nat → Mem) (c : Nat) : Prop
    extends Marks fs n s c where
  mirror : fs.dev.fails (n + c + 1) = false
  entry : fs.dev.fails (n + c + 2) = false

/-- The sectors once the entry of a new file is written. -/
def enterSectors (fs : Fat32Fs) (s : Nat → Mem) (sec : Mem) (off : Nat) (name83 : List UInt8)
    (c len : Nat) : Nat → Mem :=
  Function.update (setBoth fs s c fat32Eoc) fs.dataStartLba (putEntry sec off name83 c len)

/-- Everything `writeEntry` can do, started at request `n` on the sectors `s`. -/
inductive EntryOutcome (fs : Fat32Fs) (n : Nat) (s : Nat → Mem) (sec : Mem) (off : Nat)
    (name83 data : List UInt8) : Except String Unit × Disk → Prop
  | nothing {msg : String} {d' : Disk} : (∀ c, ¬ Marks fs n s c) → d'.sectors = s →
      EntryOutcome fs n s sec off name83 data (.error msg, d')
  | marked {c : Nat} {msg : String} {d' : Disk} : Marks fs n s c → ¬ Enters fs n s c →
      d'.sectors = setFirst fs s c fat32Eoc ∨ d'.sectors = setBoth fs s c fat32Eoc →
      EntryOutcome fs n s sec off name83 data (.error msg, d')
  | entered {c : Nat} {msg : String} {d' : Disk} : Enters fs n s c →
      fs.dev.fails (n + c + 3) = true →
      d'.sectors = enterSectors fs s sec off name83 c data.length →
      EntryOutcome fs n s sec off name83 data (.error msg, d')
  | written {c : Nat} {d' : Disk} : Enters fs n s c → fs.dev.fails (n + c + 3) = false →
      d'.sectors = Function.update (enterSectors fs s sec off name83 c data.length)
        (clusterToLba fs c) (stBytes zeroSector 0 data) →
      d'.requests = n + c + 4 →
      EntryOutcome fs n s sec off name83 data (.ok (), d')

/-- The lookup of a name finds nothing: its read fails or there is no such file. -/
def Missed (fs : Fat32Fs) (n : Nat) (slots : List (Option RootFile)) (name83 : List UInt8) : Prop :=
  fs.dev.fails n = true ∨ ∀ (i : Nat) (f : RootFile), slots[i]? = some (some f) → f.name83 ≠ name83

/-- Everything `fat32_write_file` can do with an accepted name and data that fits. -/
inductive WriteOutcome (fs : Fat32Fs) (d : Disk) (slots : List (Option RootFile))
    (name83 data : List UInt8) : Except String Unit × Disk → Prop
  | unread {msg : String} {d' : Disk} : fs.dev.fails d.requests = true →
      d'.sectors = d.sectors → WriteOutcome fs d slots name83 data (.error msg, d')
  | full {msg : String} {d' : Disk} : fs.dev.fails d.requests = false →
      Missed fs (d.requests + 1) slots name83 →
      (∀ i < rootEntries, ∃ f : RootFile, slots[i]? = some (some f)) →
      freeSlotFrom (d.sectors fs.dataStartLba) rootEntries 0 = none →
      d'.sectors = d.sectors → WriteOutcome fs d slots name83 data (.error msg, d')
  | fresh {i : Nat} {r : Except String Unit × Disk} : fs.dev.fails d.requests = false →
      Missed fs (d.requests + 1) slots name83 → i ≤ slots.length → i < rootEntries →
      (∀ f : RootFile, slots[i]? ≠ some (some f)) →
      freeSlotFrom (d.sectors fs.dataStartLba) rootEntries 0 = some (32 * i) →
      EntryOutcome fs (d.requests + 2) d.sectors (d.sectors fs.dataStartLba) (32 * i) name83 data r →
      WriteOutcome fs d slots name83 data r
  | unfreed {i : Nat} {f : RootFile} {msg : String} {d' : Disk} :
      fs.dev.fails d.requests = false → fs.dev.fails (d.requests + 1) = false →
      slots[i]? = some (some f) → f.name83 = name83 →
      fs.dev.fails (d.requests + 2) = true ∨ fs.dev.fails (d.requests + 3) = true →
      d'.sectors = d.sectors → WriteOutcome fs d slots name83 data (.error msg, d')
  | halfFreed {i : Nat} {f : RootFile} {msg : String} {d' : Disk} :
      fs.dev.fails d.requests = false → fs.dev.fails (d.requests + 1) = false →
      slots[i]? = some (some f) → f.name83 = name83 →
      fs.dev.fails (d.requests + 2) = false → fs.dev.fails (d.requests + 3) = false →
      fs.dev.fails (d.requests + 4) = true →
      d'.sectors = setFirst fs d.sectors f.cluster 0 →
      WriteOutcome fs d slots name83 data (.error msg, d')
  | freed {i : Nat} {f : RootFile} {r : Except String Unit × Disk} :
      fs.dev.fails d.requests = false → fs.dev.fails (d.requests + 1) = false →
      slots[i]? = some (some f) → f.name83 = name83 →
      fs.dev.fails (d.requests + 2) = false → fs.dev.fails (d.requests + 3) = false →
      fs.dev.fails (d.requests + 4) = false →
      EntryOutcome fs (d.requests + 5) (setBoth fs d.sectors f.cluster 0)
        (d.sectors fs.dataStartLba) (32 * i) name83 data r →
      WriteOutcome fs d slots name83 data r

/-- Everything `fat32_delete_file` can do with an accepted name. -/
inductive DeleteOutcome (fs : Fat32Fs) (d : Disk) (slots : List (Option RootFile))
    (name83 : List UInt8) : Except String Unit × Disk → Prop
  | missing {msg : String} {d' : Disk} : Missed fs d.requests slots name83 →
      d'.sectors = d.sectors → DeleteOutcome fs d slots name83 (.error msg, d')
  | unfreed {i : Nat} {f : RootFile} {msg : String} {d' : Disk} :
      slots[i]? = some (some f) → f.name83 = name83 →
      fs.dev.fails (d.requests + 1) = true ∨ fs.dev.fails (d.requests + 2) = true ∨
        fs.dev.fails (d.requests + 3) = true →
      d'.sectors = d.sectors → DeleteOutcome fs d slots name83 (.error msg, d')
  | halfFreed {i : Nat} {f : RootFile} {msg : String} {d' : Disk} :
      slots[i]? = some (some f) → f.name83 = name83 →
      (∀ k < 4, fs.dev.fails (d.requests + k) = false) → fs.dev.fails (d.requests + 4) = true →
      d'.sectors = setFirst fs d.sectors f.cluster 0 →
      DeleteOutcome fs d slots name83 (.error msg, d')
  | unmarked {i : Nat} {f : RootFile} {msg : String} {d' : Disk} :
      slots[i]? = some (some f) → f.name83 = name83 →
      (∀ k < 5, fs.dev.fails (d.requests + k) = false) → fs.dev.fails (d.requests + 5) = true →
      d'.sectors = setBoth fs d.sectors f.cluster 0 →
      DeleteOutcome fs d slots name83 (.error msg, d')
  | deleted {i : Nat} {f : RootFile} {d' : Disk} :
      slots[i]? = some (some f) → f.name83 = name83 →
      (∀ k < 6, fs.dev.fails (d.requests + k) = false) →
      d'.sectors = Function.update (setBoth fs d.sectors f.cluster 0) fs.dataStartLba
        (Function.update (d.sectors fs.dataStartLba) (32 * i) 0xE5) →
      DeleteOutcome fs d slots name83 (.ok (), d')

/-- The cluster that a scan takes is a data cluster of the first FAT. -/
theorem FirstFree.data_cluster {fs : Fat32Fs} {n : Nat} {s : Nat → Mem} {c : Nat} (h : FirstFree fs n s c)
    (hok : FatOk fs s) : 3 ≤ c ∧ c < 128 * fs.sectorsPerFat ∧ c < fs.totalClusters + 2 := by
  refine ⟨?_, ?_, h.lt⟩
  · by_contra hlow
    exact hok.head c (by omega) h.free.2
  · by_contra hhigh
    exact hok.tail c (by omega) h.lt h.free.2

section Outcomes

variable {fs : Fat32Fs} (hg : Geometry fs)
include hg

theorem writeEntry_outcome {name83 data : List UInt8} {off : Nat} {sec : Mem} {d : Disk}
    (hok : FatOk fs d.sectors) :
    EntryOutcome fs d.requests d.sectors sec off name83 data
      (writeEntry fs name83 data fs.dataStartLba off sec d) := by
  rw [writeEntry]
  rcases hg.allocCluster_cases hok with ⟨c, hfirst, h3, hc, heq⟩ | ⟨hnone, heq⟩
  · by_cases h1 : fs.dev.fails (d.requests + c - 1) = true
    · rw [heq, if_pos h1, orFail_none]
      refine .nothing (fun k hk => ?_) rfl
      rw [hk.first.unique hfirst] at hk
      simp [hk.read] at h1
    by_cases h2 : fs.dev.fails (d.requests + c) = true
    · rw [heq, if_neg h1, if_pos h2, orFail_none]
      refine .nothing (fun k hk => ?_) rfl
      rw [hk.first.unique hfirst] at hk
      simp [hk.write] at h2
    have hmarks : Marks fs d.requests d.sectors c := ⟨hfirst, by simpa using h1, by simpa using h2⟩
    by_cases h3 : fs.dev.fails (d.requests + c + 1) = true
    · rw [heq, if_neg h1, if_neg h2, if_pos h3, orFail_none]
      exact .marked hmarks (fun h => by simp [h.mirror] at h3) (Or.inl rfl)
    rw [heq, if_neg h1, if_neg h2, if_neg h3, orFail_some, hg.write_eq hg.rootLba_lt]
    by_cases h4 : fs.dev.fails (d.requests + c + 2) = true
    · rw [if_pos h4, orFail_none]
      exact .marked hmarks (fun h => by simp [h.entry] at h4) (Or.inr rfl)
    have henters : Enters fs d.requests d.sectors c :=
      ⟨hmarks, by simpa using h3, by simpa using h4⟩
    rw [if_neg h4, orFail_some, hg.write_eq (hg.clusterToLba_lt hfirst.two_le hfirst.lt)]
    by_cases h5 : fs.dev.fails (d.requests + c + 3) = true
    · rw [if_pos h5, orFail_none]
      exact .entered henters h5 rfl
    · rw [if_neg h5, orFail_some]
      exact .written henters (by simpa using h5) rfl rfl
  · rw [heq, orFail_none]
    exact .nothing (fun c hc => hnone c hc.first.two_le hc.first.lt hc.first.free) rfl

/-- `find_root_entry`: it finds the file of that name, or misses it. -/
theorem findRootEntry_cases {slots : List (Option RootFile)} {name83 : List UInt8} {d : Disk}
    (hdir : DirOk (d.sectors fs.dataStartLba) slots) (hname : GoodName name83) :
    (∃ (i : Nat) (f : RootFile), fs.dev.fails d.requests = false ∧
      FirstEntry slots name83 0 i f ∧
      findRootEntry fs name83 d = (some (fs.dataStartLba, 32 * i), d.tick 1)) ∨
    (Missed fs d.requests slots name83 ∧ findRootEntry fs name83 d = (none, d.tick 1)) := by
  rw [findRootEntry, hg.rootLba_eq, read_eq hg.rootLba_lt]
  by_cases hf : fs.dev.fails d.requests = true
  · rw [if_pos hf]
    exact Or.inr ⟨Or.inl hf, rfl⟩
  · rw [if_neg hf]
    rcases hdir.findEntryFrom_cases hname (k := 0) (Nat.zero_add rootEntries) with
      ⟨i, f, hentry, hfind⟩ | ⟨hnone, hfind⟩
    · rw [Nat.mul_zero] at hfind
      simp only [hfind, Option.map_some]
      exact Or.inl ⟨i, f, by simpa using hf, hentry, rfl⟩
    · rw [Nat.mul_zero] at hfind
      simp only [hfind, Option.map_none]
      exact Or.inr ⟨Or.inr fun i f hslot => hnone i f (Nat.zero_le _) hslot, trivial⟩

/-- A write of too much data, or under a name that is refused, makes no request. -/
theorem fat32WriteFile_refused {name data : List UInt8} {d : Disk}
    (hno : ¬ (data.length ≤ 512 ∧ ∃ name83, makeName83 name = some name83)) :
    ∃ e, fat32WriteFile fs name data d = (.error e, d) := by
  rw [fat32WriteFile, hg.cluster_bytes]
  by_cases hlen : data.length ≤ 512
  · cases hname : makeName83 name with
    | none =>
        rw [if_neg (by omega)]
        exact ⟨_, rfl⟩
    | some name83 => exact absurd ⟨hlen, name83, hname⟩ hno
  · rw [if_pos (by omega)]
    exact ⟨_, rfl⟩

/-- Every other write ends in one of the outcomes. -/
theorem fat32WriteFile_outcome {slots : List (Option RootFile)} {name name83 data : List UInt8}
    {d : Disk} (hok : VolShape fs d.sectors slots) (hname : makeName83 name = some name83)
    (hlen : data.length ≤ 512) :
    WriteOutcome fs d slots name83 data (fat32WriteFile fs name data d) := by
  have hgood := makeName83_good hname
  rw [fat32WriteFile, hg.cluster_bytes, if_neg (by omega), hname]
  simp only [hg.rootLba_eq]
  rw [read_eq hg.rootLba_lt]
  by_cases h0 : fs.dev.fails d.requests = true
  · rw [if_pos h0, orFail_none]
    exact .unread h0 rfl
  rw [if_neg h0, orFail_some]
  have h0 : fs.dev.fails d.requests = false := by simpa using h0
  rcases findRootEntry_cases hg (d := d.tick 1) hok.dir hgood with
    ⟨i, f, h1, hentry, hfind⟩ | ⟨hmiss, hfind⟩
  · -- the name has an entry: its cluster is freed first
    obtain ⟨-, hslot, heq, -⟩ := hentry
    have hfile := hok.dir.file i f hslot
    obtain ⟨hc, hc2⟩ := hok.cluster_lt i f hslot
    have hthree := hok.three_le i f hslot
    have hfat : FatOk fs (setBoth fs d.sectors f.cluster 0) :=
      hok.fat.setBoth hg hthree hc hc2 (by decide)
    have hset := hg.fatSet_eq (v := 0) hc hc2 (d.tick 2)
    simp only [Disk.requests_tick, Disk.sectors_tick, Nat.add_assoc, Nat.reduceAdd] at hset
    simp only [hfind, hfile.cluster, Disk.tick_tick, Nat.reduceAdd]
    rw [if_pos (by omega), hset]
    by_cases h2 : fs.dev.fails (d.requests + 2) = true
    · rw [if_pos h2, orFail_none]
      exact .unfreed h0 h1 hslot heq (Or.inl h2) rfl
    by_cases h3 : fs.dev.fails (d.requests + 3) = true
    · rw [if_neg h2, if_pos h3, orFail_none]
      exact .unfreed h0 h1 hslot heq (Or.inr h3) rfl
    have h2' : fs.dev.fails (d.requests + 2) = false := by simpa using h2
    have h3' : fs.dev.fails (d.requests + 3) = false := by simpa using h3
    by_cases h4 : fs.dev.fails (d.requests + 4) = true
    · rw [if_neg h2, if_neg h3, if_pos h4, orFail_none]
      exact .halfFreed h0 h1 hslot heq h2' h3' h4 rfl
    · rw [if_neg h2, if_neg h3, if_neg h4, orFail_some]
      exact .freed h0 h1 hslot heq h2' h3' (by simpa using h4)
        (writeEntry_outcome hg (d := ⟨setBoth fs d.sectors f.cluster 0, d.requests + 5⟩) hfat)
  · simp only [hfind, Disk.tick_tick]
    rcases hok.dir.freeSlotFrom_cases (k := 0) (Nat.zero_add rootEntries) (Nat.zero_le _) with
      ⟨i, hi, hi16, hfree, hslot⟩ | ⟨hfull, hslot⟩
    · rw [Nat.mul_zero] at hslot
      simp only [hslot]
      exact .fresh h0 hmiss hi hi16 hfree hslot (writeEntry_outcome hg (d := d.tick 2) hok.fat)
    · rw [Nat.mul_zero] at hslot
      simp only [hslot]
      exact .full h0 hmiss (fun i hi => hfull i (Nat.zero_le _) hi) hslot rfl

theorem fat32DeleteFile_outcome {slots : List (Option RootFile)} {name name83 : List UInt8}
    {d : Disk} (hok : VolShape fs d.sectors slots) (hname : makeName83 name = some name83) :
    DeleteOutcome fs d slots name83 (fat32DeleteFile fs name d) := by
  rw [fat32DeleteFile, hname]
  rcases findRootEntry_cases hg (d := d) hok.dir (makeName83_good hname) with
    ⟨i, f, h0, ⟨-, hslot, heq, -⟩, hfind⟩ | ⟨hmiss, hfind⟩
  · have hfile := hok.dir.file i f hslot
    obtain ⟨hc, hc2⟩ := hok.cluster_lt i f hslot
    have hthree := hok.three_le i f hslot
    simp only [hfind, orFail_some]
    rw [read_eq hg.rootLba_lt, Disk.requests_tick]
    by_cases h1 : fs.dev.fails (d.requests + 1) = true
    · rw [if_pos h1, orFail_none]
      exact .unfreed hslot heq (Or.inl h1) rfl
    rw [if_neg h1, orFail_some]
    have hset := hg.fatSet_eq (v := 0) hc hc2 (d.tick 2)
    simp only [Disk.requests_tick, Disk.sectors_tick, Nat.add_assoc, Nat.reduceAdd] at hset
    simp only [Disk.sectors_tick, hfile.cluster, Disk.tick_tick, Nat.reduceAdd]
    rw [if_pos (by omega), hset]
    by_cases h2 : fs.dev.fails (d.requests + 2) = true
    · rw [if_pos h2, orFail_none]
      exact .unfreed hslot heq (Or.inr (Or.inl h2)) rfl
    by_cases h3 : fs.dev.fails (d.requests + 3) = true
    · rw [if_neg h2, if_pos h3, orFail_none]
      exact .unfreed hslot heq (Or.inr (Or.inr h3)) rfl
    have hfour : ∀ k < 4, fs.dev.fails (d.requests + k) = false := by
      intro k hk
      obtain rfl | rfl | rfl | rfl : k = 0 ∨ k = 1 ∨ k = 2 ∨ k = 3 := by omega
      · exact h0
      · simpa using h1
      · simpa using h2
      · simpa using h3
    by_cases h4 : fs.dev.fails (d.requests + 4) = true
    · rw [if_neg h2, if_neg h3, if_pos h4, orFail_none]
      exact .halfFreed hslot heq hfour h4 rfl
    have hfive : ∀ k < 5, fs.dev.fails (d.requests + k) = false := by
      intro k hk
      rcases Nat.lt_succ_iff_lt_or_eq.mp hk with hlt | rfl
      · exact hfour k hlt
      · simpa using h4
    rw [if_neg h2, if_neg h3, if_neg h4, orFail_some, hg.write_eq hg.rootLba_lt]
    simp only [Nat.add_assoc, Nat.reduceAdd]
    by_cases h5 : fs.dev.fails (d.requests + 5) = true
    · rw [if_pos h5, orFail_none]
      exact .unmarked hslot heq hfive h5 rfl
    · rw [if_neg h5, orFail_some]
      refine .deleted hslot heq (fun k hk => ?_) rfl
      rcases Nat.lt_succ_iff_lt_or_eq.mp hk with hlt | rfl
      · exact hfive k hlt
      · simpa using h5
  · simp only [hfind, orFail_none]
    exact .missing hmiss rfl

end Outcomes

/-! ## The calls that read -/

/-- `fat32_read_file` writes nothing. -/
theorem fat32ReadFile_sectors {fs : Fat32Fs} (name : List UInt8) (outCap : Nat) (d : Disk) :
    (fat32ReadFile fs name outCap d).2.sectors = d.sectors := by
  unfold fat32ReadFile
  split
  · rfl
  · split
    · rfl
    · refine orFail_sectors (findRootEntry_sectors fs _ d) fun r d₁ h₁ => ?_
      refine orFail_sectors ((BlockDev.read_sectors fs.dev _ d₁).trans h₁) fun sec d₂ h₂ => ?_
      simp only
      split
      · exact h₂
      · split
        · exact h₂
        · exact orFail_sectors ((BlockDev.read_sectors fs.dev _ d₂).trans h₂) fun _ _ h₃ => h₃

/-- `fat32_list_root` writes nothing. -/
theorem fat32ListRoot_sectors {fs : Fat32Fs} (maxOut : Nat) (d : Disk) :
    (fat32ListRoot fs maxOut d).2.sectors = d.sectors := by
  unfold fat32ListRoot
  split
  · rfl
  · exact orFail_sectors (BlockDev.read_sectors fs.dev _ d) fun _ _ h => h

/-! ## What keeps the invariant -/

section Keep

variable {fs : Fat32Fs} (hg : Geometry fs) {s : Nat → Mem} {slots : List (Option RootFile)}
  {n i c : Nat}

/-- No file has a cluster that reads as free. -/
theorem FilesOk.ne_of_free (h : FilesOk fs s slots) (hfree : fatEntry fs s c = 0) (j : Nat)
    (f : RootFile) (hf : slots[j]? = some (some f)) : f.cluster ≠ c := by
  rintro rfl
  exact h.marked j f hf hfree

include hg

/-- Marking a cluster frees none. -/
theorem FilesOk.setFirst (h : FilesOk fs s slots) (hc : c < 128 * fs.sectorsPerFat)
    (hc2 : c < fs.totalClusters + 2) : FilesOk fs (setFirst fs s c fat32Eoc) slots := by
  refine h.withFat fun j f hf => ?_
  rw [fatEntry_setFirst hg hc hc2 (h.cluster_lt j f hf).2 (by decide)]
  split
  · decide
  · exact h.marked j f hf

theorem FilesOk.setBoth (h : FilesOk fs s slots) (hc : c < 128 * fs.sectorsPerFat)
    (hc2 : c < fs.totalClusters + 2) : FilesOk fs (setBoth fs s c fat32Eoc) slots := by
  refine h.withFat fun j f hf => ?_
  obtain ⟨h1, h2⟩ := h.cluster_lt j f hf
  rw [fatEntry_setBoth hg hc hc2 h1 h2 (by decide)]
  split
  · decide
  · exact h.marked j f hf

/-- Freeing a file's cluster, for the other files. -/
theorem FilesOk.free {f : RootFile} (h : FilesOk fs s slots) (hf : slots[i]? = some (some f)) :
    FilesOk fs (RoninOS.Fs.setBoth fs s f.cluster 0) (putSlot slots i none) := by
  have hi := Nat.le_of_lt (slot_lt hf)
  obtain ⟨hc, hc2⟩ := h.cluster_lt i f hf
  refine (h.vacate hi).withFat fun j g hj => ?_
  obtain ⟨hne, hslot⟩ := (getElem?_putSlot_none hi).mp hj
  obtain ⟨h1, h2⟩ := h.cluster_lt j g hslot
  rw [fatEntry_setBoth hg hc hc2 h1 h2 (by decide),
    if_neg fun heq => hne (h.cluster_inj j i g f hslot hf heq)]
  exact h.marked j g hslot

/-- The FAT entry of a freed cluster. -/
theorem fatEntry_freed (hc : c < 128 * fs.sectorsPerFat) (hc2 : c < fs.totalClusters + 2) :
    fatEntry fs (setBoth fs s c 0) c = 0 := by
  rw [fatEntry_setBoth hg hc hc2 hc hc2 (by decide), if_pos rfl]
  rfl

/-- A data sector may change. -/
theorem VolOk.data {lba : Nat} {m : Mem} (h : VolOk fs s slots) (hlba : fs.dataStartLba < lba) :
    VolOk fs (Function.update s lba m) slots where
  fat := h.fat.data hg (by omega)
  dir := by
    rw [Function.update_of_ne (by omega)]
    exact h.dir
  files := h.files.withFat fun j f hf => by
    rw [fatEntry_data hg (h.files.cluster_lt j f hf).2 (by omega)]
    exact h.files.marked j f hf

/-- `alloc_cluster` keeps the invariant, also where it fails half-way. -/
theorem VolOk.mark (h : VolOk fs s slots) (hfirst : FirstFree fs n s c) :
    VolOk fs (setFirst fs s c fat32Eoc) slots ∧ VolOk fs (setBoth fs s c fat32Eoc) slots := by
  obtain ⟨h3, hc, hc2⟩ := hfirst.data_cluster h.fat
  refine ⟨⟨h.fat.setFirst hg h3 hc hc2 (by decide), ?_, h.files.setFirst hg hc hc2⟩,
    ⟨h.fat.setBoth hg h3 hc hc2 (by decide), ?_, h.files.setBoth hg hc hc2⟩⟩
  · rw [setFirst_data hg hc hc2 (le_refl _)]
    exact h.dir
  · rw [setBoth_data hg hc hc2 (le_refl _)]
    exact h.dir

/-- Entering a file with a fresh cluster and a new name at slot `i`, once the
slot's own file, if any, has lost its cluster. -/
theorem VolOk.enter {sec : Mem} {name83 : List UInt8} {len : Nat} (hfat : FatOk fs s)
    (hdir : DirOk sec slots) (hfiles : FilesOk fs s (putSlot slots i none))
    (hi : i ≤ slots.length) (hi16 : i < rootEntries) (hgood : GoodName name83)
    (hlen : len ≤ 512) (hfirst : FirstFree fs n s c)
    (hname : ∀ (j : Nat) (f : RootFile), j ≠ i → slots[j]? = some (some f) → f.name83 ≠ name83) :
    VolOk fs (enterSectors fs s sec (32 * i) name83 c len)
      (putSlot slots i (some ⟨name83, c, len⟩)) := by
  have hlt := hg.cluster_lt hfirst.lt
  obtain ⟨h3, hc, hc2⟩ := hfirst.data_cluster hfat
  have hmark : fatEntry fs (RoninOS.Fs.setBoth fs s c fat32Eoc) c ≠ 0 := by
    rw [fatEntry_setBoth hg hc hc2 hc hc2 (by decide), if_pos rfl]
    decide
  have hother : ∀ (j : Nat) (f : RootFile), j ≠ i → slots[j]? = some (some f) → f.cluster ≠ c :=
    fun j f hne hf => hfiles.ne_of_free hfirst.free.2 j f
      ((getElem?_putSlot_none hi).mpr ⟨hne, hf⟩)
  refine ⟨(hfat.setBoth hg h3 hc hc2 (by decide)).data hg (le_refl _), ?_, ?_⟩
  · rw [enterSectors, Function.update_self]
    exact hdir.putEntry hi hi16 hgood (by omega) (by omega)
  · refine FilesOk.withFat ((hfiles.setBoth hg hc hc2).fill hi hname hother h3 hc hc2 hmark)
      fun j f hj => ?_
    have hfilled : FilesOk fs (RoninOS.Fs.setBoth fs s c fat32Eoc)
        (putSlot slots i (some ⟨name83, c, len⟩)) :=
      (hfiles.setBoth hg hc hc2).fill hi hname hother h3 hc hc2 hmark
    rw [enterSectors, fatEntry_data hg (hfilled.cluster_lt j f hj).2 (le_refl _)]
    exact hfilled.marked j f hj

/-- Deleting the file in slot `i`. -/
theorem VolOk.delete {f : RootFile} (h : VolOk fs s slots) (hf : slots[i]? = some (some f)) :
    VolOk fs (Function.update (setBoth fs s f.cluster 0) fs.dataStartLba
      (Function.update (s fs.dataStartLba) (32 * i) 0xE5)) (putSlot slots i none) := by
  obtain ⟨hc, hc2⟩ := h.files.cluster_lt i f hf
  have h3 := h.files.three_le i f hf
  have hfiles := h.files.free hg hf
  refine ⟨(h.fat.setBoth hg h3 hc hc2 (by decide)).data hg (le_refl _), ?_, ?_⟩
  · rw [Function.update_self]
    exact h.dir.delete (slot_lt hf)
  · refine hfiles.withFat fun j g hj => ?_
    rw [fatEntry_data hg (hfiles.cluster_lt j g hj).2 (le_refl _)]
    exact hfiles.marked j g hj

end Keep

end RoninOS.Fs
