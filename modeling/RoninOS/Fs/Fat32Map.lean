/-
RoninOS.Fs.Fat32Map — a volume on a device that works as a map from names to
data.

The keys are the 11-byte names that `make_name83` accepts. `mapWriteFile` and
`mapDeleteFile` say when a call succeeds and what it does to the map; whether
some cluster reads as free is read off the volume. `HoldsVolume` ties the files
of the root sector and their data sectors to the map, and `MapReach` runs both
side by side, whatever the disk held before it was formatted.
-/
import RoninOS.Fs.Fat32Faults
import RoninOS.Lib.Tabulated

namespace RoninOS.Fs

open RoninOS.Lib

/-! ## The map -/

/-- Names and their data. -/
abbrev VolumeMap := Finmap fun _ : List UInt8 => List UInt8

/-- A cluster other than the reserved ones reads as free. -/
def someFree (fs : Fat32Fs) (d : Disk) : Bool :=
  (List.range (fs.totalClusters + 2)).any fun c => decide (2 ≤ c ∧ (fatGet fs c d).1 = 0)

/-- Set the data of a name. -/
def mapWriteFile (room : Bool) (m : VolumeMap) (name data : List UInt8) : Bool × VolumeMap :=
  match makeName83 name with
  | none => (false, m)
  | some name83 =>
      if data.length ≤ 512 ∧ (name83 ∈ m ∨ (m.keys.card < rootEntries ∧ room = true)) then
        (true, m.insert name83 data)
      else (false, m)

/-- Erase a name. -/
def mapDeleteFile (m : VolumeMap) (name : List UInt8) : Bool × VolumeMap :=
  match makeName83 name with
  | none => (false, m)
  | some name83 => if name83 ∈ m then (true, m.erase name83) else (false, m)

/-- A call on the map. -/
def mapOp (room : Bool) (m : VolumeMap) : FatOp → Bool × VolumeMap
  | .write name data => mapWriteFile room m name data
  | .delete name => mapDeleteFile m name

/-- The disks and maps of all sequences of calls on a formatted and mounted
device. -/
inductive MapReach (dev : BlockDev) (before : Disk) (fs : Fat32Fs) : Disk → VolumeMap → Prop
  | start {d : Disk} : Formatted dev before fs d → MapReach dev before fs d ∅
  | call {d : Disk} {m : VolumeMap} (op : FatOp) : MapReach dev before fs d m →
      MapReach dev before fs (runOp fs op d).2 (mapOp (someFree fs d) m op).2
  | read {d : Disk} {m : VolumeMap} (name : List UInt8) (outCap : Nat) :
      MapReach dev before fs d m → MapReach dev before fs (fat32ReadFile fs name outCap d).2 m
  | list {d : Disk} {m : VolumeMap} (maxOut : Nat) :
      MapReach dev before fs d m → MapReach dev before fs (fat32ListRoot fs maxOut d).2 m

/-- The calls that read return the names and data of the map. -/
structure ShowsVolume (fs : Fat32Fs) (d : Disk) (m : VolumeMap) : Prop where
  read_absent : ∀ name outCap,
    (∀ name83, makeName83 name = some name83 → m.lookup name83 = none) →
    ∃ msg, (fat32ReadFile fs name outCap d).1 = .error msg
  read_data : ∀ name name83 data outCap, makeName83 name = some name83 →
    m.lookup name83 = some data → data.length + 1 ≤ outCap →
    (fat32ReadFile fs name outCap d).1 = .ok (data ++ [0], data.length)
  /-- Each name is listed once, with the length of its data. -/
  listing : ∀ maxOut, rootEntries ≤ maxOut → ∃ ents, (fat32ListRoot fs maxOut d).1 = .ok ents ∧
    (ents.map (·.name83)).Nodup ∧
    ∀ ent, ent ∈ ents ↔ ∃ name83 data, m.lookup name83 = some data ∧
      ent = { name83 := name83 ++ [0], size := data.length }

/-! ## Files of slots -/

section Slots

variable {slots : List (Option RootFile)} {i : Nat}

theorem liveFiles_append (l r : List (Option RootFile)) :
    liveFiles (l ++ r) = liveFiles l ++ liveFiles r := List.filterMap_append

theorem mem_liveFiles {f : RootFile} :
    f ∈ liveFiles slots ↔ ∃ i : Nat, slots[i]? = some (some f) := by
  rw [liveFiles, List.mem_filterMap]
  constructor
  · rintro ⟨x, hx, rfl⟩
    exact List.mem_iff_getElem?.mp hx
  · rintro ⟨i, hi⟩
    exact ⟨some f, List.mem_of_getElem? hi, rfl⟩

theorem putSlot_self {x : Option RootFile} (h : slots[i]? = some x) : putSlot slots i x = slots := by
  obtain ⟨hlt, rfl⟩ := List.getElem?_eq_some_iff.mp h
  rw [putSlot, ← List.drop_eq_getElem_cons hlt, List.take_append_drop]

/-- A new file of slot `i`. -/
theorem liveFiles_putSlot_some (f : RootFile) :
    (liveFiles (putSlot slots i (some f))).Perm (f :: liveFiles (putSlot slots i none)) := by
  unfold putSlot
  rw [liveFiles_append, liveFiles_append]
  exact List.perm_middle

/-- The file of slot `i` and the others. -/
theorem liveFiles_perm {f : RootFile} (hf : slots[i]? = some (some f)) :
    (liveFiles slots).Perm (f :: liveFiles (putSlot slots i none)) := by
  have hfill := @liveFiles_putSlot_some slots i f
  rwa [putSlot_self hf] at hfill

/-- A slot without a file. -/
theorem liveFiles_putSlot_none (hi : i ≤ slots.length)
    (hempty : ∀ f : RootFile, slots[i]? ≠ some (some f)) :
    liveFiles (putSlot slots i none) = liveFiles slots := by
  cases hslot : slots[i]? with
  | none =>
      have hlen := List.getElem?_eq_none_iff.mp hslot
      rw [putSlot, List.take_of_length_le hlen, List.drop_of_length_le (by omega), liveFiles_append]
      exact List.append_nil _
  | some x =>
      cases x with
      | none => rw [putSlot_self hslot]
      | some f => exact absurd hslot (hempty f)

/-- With an empty slot there are fewer files than slots of the sector. -/
theorem length_liveFiles_lt (hlen : slots.length ≤ rootEntries) (hi : i ≤ slots.length)
    (hi16 : i < rootEntries) (hempty : ∀ f : RootFile, slots[i]? ≠ some (some f)) :
    (liveFiles slots).length < rootEntries := by
  have htake := List.length_filterMap_le id (slots.take i)
  have hdrop := List.length_filterMap_le id (slots.drop (i + 1))
  have hnone : liveFiles (putSlot slots i none)
      = liveFiles (slots.take i) ++ liveFiles (slots.drop (i + 1)) := by
    rw [putSlot, liveFiles_append]
    rfl
  rw [List.length_take] at htake
  rw [List.length_drop] at hdrop
  rw [← liveFiles_putSlot_none hi hempty, hnone, List.length_append]
  unfold liveFiles
  omega

/-- With a file in every slot there are as many. -/
theorem length_liveFiles_eq (hlen : slots.length ≤ rootEntries)
    (hfull : ∀ i < rootEntries, ∃ f : RootFile, slots[i]? = some (some f)) :
    (liveFiles slots).length = rootEntries := by
  have hlen16 : slots.length = rootEntries := by
    obtain ⟨f, hf⟩ := hfull (rootEntries - 1) (by decide)
    have hlt := slot_lt hf
    have hpos : 0 < rootEntries := by decide
    omega
  have hall : (slots.filterMap id).length = slots.length := by
    rw [List.filterMap_length_eq_length]
    intro x hx
    obtain ⟨i, hi⟩ := List.mem_iff_getElem?.mp hx
    obtain ⟨f, hf⟩ := hfull i (by rw [← hlen16]; exact slot_lt hi)
    rw [hi] at hf
    rw [Option.some.inj hf]
    rfl
  rw [liveFiles, hall, hlen16]

end Slots

/-! ## The volume and its map -/

/-- The data of a file. -/
def fileData (fs : Fat32Fs) (s : Nat → Mem) (f : RootFile) : List UInt8 :=
  bytesAt (s (clusterToLba fs f.cluster)) 0 f.size

/-- The files of the volume are the names and data of the map. -/
structure HoldsVolume (fs : Fat32Fs) (s : Nat → Mem) (slots : List (Option RootFile))
    (m : VolumeMap) : Prop where
  ok : VolOk fs s slots
  size_le : ∀ f ∈ liveFiles slots, f.size ≤ 512
  map : Tabulates (liveFiles slots) RootFile.name83 (fileData fs s) m

section Holds

variable {fs : Fat32Fs} {s s' : Nat → Mem} {slots : List (Option RootFile)} {m : VolumeMap}
  {i : Nat} {name83 data : List UInt8}

theorem HoldsVolume.mem_iff (h : HoldsVolume fs s slots m) :
    name83 ∈ m ↔ ∃ (i : Nat) (f : RootFile), slots[i]? = some (some f) ∧ f.name83 = name83 := by
  rw [h.map.mem_iff]
  constructor
  · rintro ⟨f, hf, hname⟩
    obtain ⟨i, hi⟩ := mem_liveFiles.mp hf
    exact ⟨i, f, hi, hname⟩
  · rintro ⟨i, f, hi, hname⟩
    exact ⟨f, mem_liveFiles.mpr ⟨i, hi⟩, hname⟩

/-- The names other than that of the file in slot `i`. -/
theorem HoldsVolume.others {f : RootFile} (h : HoldsVolume fs s slots m)
    (hf : slots[i]? = some (some f)) :
    Tabulates (liveFiles (putSlot slots i none)) RootFile.name83 (fileData fs s)
      (m.erase f.name83) := by
  classical
  have hperm := (h.map.perm (liveFiles_perm hf)).erase (List.mem_cons_self ..)
  rwa [List.erase_cons_head] at hperm

/-- Inserting after erasing is inserting. -/
theorem insert_erase (m : VolumeMap) (k v : List UInt8) : (m.erase k).insert k v = m.insert k v := by
  refine Finmap.ext_lookup fun k' => ?_
  by_cases hk : k' = k
  · rw [hk, Finmap.lookup_insert, Finmap.lookup_insert]
  · rw [Finmap.lookup_insert_of_ne _ hk, Finmap.lookup_insert_of_ne _ hk, Finmap.lookup_erase_ne hk]

/-! ## Sectors -/

section Sectors

variable (hg : Geometry fs) (hworks : ∀ n, fs.dev.fails n = false)
include hg hworks

theorem someFree_iff (d : Disk) : someFree fs d = true ↔
    ∃ c, 2 ≤ c ∧ c < fs.totalClusters + 2 ∧ fatEntry fs d.sectors c = 0 := by
  simp only [someFree, List.any_eq_true, List.mem_range, decide_eq_true_eq]
  constructor
  · rintro ⟨c, hc, h2, hfree⟩
    exact ⟨c, h2, hc, by rwa [fatGet_works hg hworks hc] at hfree⟩
  · rintro ⟨c, h2, hc, hfree⟩
    exact ⟨c, hc, h2, by rwa [fatGet_works hg hworks hc]⟩

omit hg in
/-- On a device that works an entry is written, or no cluster reads as free. -/
theorem EntryOutcome.works {n off : Nat} {sec : Mem} {r : Except String Unit × Disk}
    (h : EntryOutcome fs n s sec off name83 data r) :
    (∃ c, FirstFree fs n s c ∧ r.1 = .ok () ∧
      r.2.sectors = Function.update (enterSectors fs s sec off name83 c data.length)
        (clusterToLba fs c) (stBytes zeroSector 0 data)) ∨
    ((∀ c, 2 ≤ c → c < fs.totalClusters + 2 → fatEntry fs s c ≠ 0) ∧ r.1 ≠ .ok () ∧
      r.2.sectors = s) := by
  cases h with
  | nothing hnone hsectors =>
      refine Or.inr ⟨fun c h2 hc hfree => ?_, by simp, hsectors⟩
      obtain ⟨k, hk⟩ := exists_firstFree h2 hc ⟨hworks _, hfree⟩
      exact hnone k ⟨hk, hworks _, hworks _⟩
  | marked hmarks hstop _ => exact absurd ⟨hmarks, hworks _, hworks _⟩ hstop
  | entered _ hfail _ =>
      rw [hworks] at hfail
      cases hfail
  | written henters _ hsectors _ => exact Or.inl ⟨_, henters.first, rfl, hsectors⟩

end Sectors

/-! ## The calls that change the volume -/

/-- A call has left the volume that the map has after it, and succeeded where
the map did. -/
def Follows (fs : Fat32Fs) (r : Except String Unit × Disk) (out : Bool × VolumeMap) : Prop :=
  (r.1 = .ok () ↔ out.1 = true) ∧ ∃ slots, HoldsVolume fs r.2.sectors slots out.2

section Calls

variable (hg : Geometry fs) (hworks : ∀ n, fs.dev.fails n = false)

/-- A file that gets a name and a cluster of its own. -/
theorem HoldsVolume.enter {c : Nat} (hi : i ≤ slots.length)
    (hok : VolOk fs s' (putSlot slots i (some ⟨name83, c, data.length⟩)))
    (hsize : ∀ f ∈ liveFiles (putSlot slots i none), f.size ≤ 512) (hlen : data.length ≤ 512)
    (hmap : Tabulates (liveFiles (putSlot slots i none)) RootFile.name83 (fileData fs s) m)
    (hself : s' (clusterToLba fs c) = stBytes zeroSector 0 data)
    (hother : ∀ f ∈ liveFiles (putSlot slots i none),
      s' (clusterToLba fs f.cluster) = s (clusterToLba fs f.cluster)) :
    HoldsVolume fs s' (putSlot slots i (some ⟨name83, c, data.length⟩)) (m.insert name83 data) := by
  have hperm := @liveFiles_putSlot_some slots i ⟨name83, c, data.length⟩
  have hnew : ∀ f ∈ liveFiles (putSlot slots i none), f.name83 ≠ name83 := by
    intro f hf heq
    obtain ⟨j, hj⟩ := mem_liveFiles.mp hf
    obtain ⟨hne, hslot⟩ := (getElem?_putSlot_none hi).mp hj
    refine hne (hok.files.name_inj j i f _ ?_ (by rw [getElem?_putSlot hi, if_pos rfl]) heq)
    rw [getElem?_putSlot hi, if_neg hne]
    exact hslot
  have hdata : fileData fs s' ⟨name83, c, data.length⟩ = data := by
    rw [fileData, hself]
    exact bytesAt_stBytes_self _ _ _
  have hmap' : Tabulates (liveFiles (putSlot slots i none)) RootFile.name83 (fileData fs s') m :=
    hmap.congr (fun _ _ => rfl) fun f hf => by rw [fileData, fileData, hother f hf]
  have hcons := hmap'.cons (j := ⟨name83, c, data.length⟩) hnew
  rw [hdata] at hcons
  refine ⟨hok, fun f hf => ?_, hcons.perm hperm.symm⟩
  rcases List.mem_cons.mp (hperm.mem_iff.mp hf) with rfl | hf
  · exact hlen
  · exact hsize f hf

theorem Follows.unchanged {r : Except String Unit × Disk} (h : HoldsVolume fs s slots m)
    (hfail : r.1 ≠ .ok ()) (hsectors : r.2.sectors = s) : Follows fs r (false, m) :=
  ⟨⟨fun hok => absurd hok hfail, fun htrue => by cases htrue⟩, slots, hsectors ▸ h⟩

include hg hworks

/-- A new name at an empty slot. -/
theorem HoldsVolume.writeFresh {d : Disk} {r : Except String Unit × Disk}
    (h : HoldsVolume fs d.sectors slots m) (hgood : GoodName name83) (hlen : data.length ≤ 512)
    (habsent : name83 ∉ m) (hi : i ≤ slots.length) (hi16 : i < rootEntries)
    (hempty : ∀ f : RootFile, slots[i]? ≠ some (some f)) {n : Nat}
    (hr : EntryOutcome fs n d.sectors (d.sectors fs.dataStartLba) (32 * i) name83 data r) :
    Follows fs r (if someFree fs d = true then (true, m.insert name83 data) else (false, m)) := by
  rcases hr.works hworks with ⟨c, hfirst, hret, hsectors⟩ | ⟨hnone, hret, hsectors⟩
  · have hroom : someFree fs d = true :=
      (someFree_iff hg hworks d).mpr ⟨c, hfirst.two_le, hfirst.lt, hfirst.free.2⟩
    obtain ⟨h3, hc, hc2⟩ := hfirst.data_cluster h.ok.fat
    have hothers := liveFiles_putSlot_none hi hempty
    have hname : ∀ (j : Nat) (f : RootFile), j ≠ i → slots[j]? = some (some f) → f.name83 ≠ name83 :=
      fun j f _ hj heq => habsent (h.mem_iff.mpr ⟨j, f, hj, heq⟩)
    have hok := (VolOk.enter hg h.ok.fat h.ok.dir (h.ok.files.vacate hi) hi hi16 hgood hlen hfirst
      hname).data hg (m := stBytes zeroSector 0 data) (hg.dataStart_lt_clusterToLba h3 hc2)
    rw [if_pos hroom]
    refine ⟨⟨fun _ => rfl, fun _ => hret⟩, putSlot slots i (some ⟨name83, c, data.length⟩), ?_⟩
    rw [hsectors]
    refine HoldsVolume.enter hi hok (fun f hf => h.size_le f (hothers ▸ hf)) hlen
      (hothers.symm ▸ h.map) (Function.update_self _ _ _) fun f hf => ?_
    obtain ⟨j, hj⟩ := mem_liveFiles.mp (hothers ▸ hf)
    have hf3 := h.ok.files.three_le j f hj
    have hfc := (h.ok.files.cluster_lt j f hj).2
    have hne : f.cluster ≠ c := h.ok.files.ne_of_free hfirst.free.2 j f hj
    have hlba := hg.dataStart_lt_clusterToLba hf3 hfc
    rw [Function.update_of_ne fun heq => hne (hg.clusterToLba_inj (by omega) hfc (by omega) hc2 heq),
      enterSectors, Function.update_of_ne (by omega), setBoth_data hg hc hc2 (by omega)]
  · have hroom : ¬ someFree fs d = true := fun hroom => by
      obtain ⟨c, h2, hc, hfree⟩ := (someFree_iff hg hworks d).mp hroom
      exact hnone c h2 hc hfree
    rw [if_neg hroom]
    exact .unchanged h hret hsectors

/-- A name that has an entry: its old cluster is freed and a cluster taken. -/
theorem HoldsVolume.writeFreed {d : Disk} {r : Except String Unit × Disk} {f : RootFile}
    (h : HoldsVolume fs d.sectors slots m) (hgood : GoodName name83) (hlen : data.length ≤ 512)
    (hf : slots[i]? = some (some f)) (hname : f.name83 = name83) {n : Nat}
    (hr : EntryOutcome fs n (setBoth fs d.sectors f.cluster 0) (d.sectors fs.dataStartLba) (32 * i)
      name83 data r) :
    Follows fs r (true, m.insert name83 data) := by
  have hi := slot_lt hf
  have hi16 : i < rootEntries := Nat.lt_of_lt_of_le hi h.ok.dir.length_le
  have hthree := h.ok.files.three_le i f hf
  obtain ⟨hfc, hfc2⟩ := h.ok.files.cluster_lt i f hf
  rcases hr.works hworks with ⟨c, hfirst, hret, hsectors⟩ | ⟨hnone, -, -⟩
  · have hfat := h.ok.fat.setBoth hg hthree hfc hfc2 (v := 0) (by decide)
    obtain ⟨h3, hc, hc2⟩ := hfirst.data_cluster hfat
    have hfiles := h.ok.files.free hg hf
    have hother : ∀ (j : Nat) (g : RootFile), j ≠ i → slots[j]? = some (some g) → g.name83 ≠ name83 :=
      fun j g hne hj heq => hne (h.ok.files.name_inj j i g f hj hf (heq.trans hname.symm))
    have hok := (VolOk.enter hg hfat h.ok.dir hfiles hi.le hi16 hgood hlen hfirst hother).data hg
      (m := stBytes zeroSector 0 data) (hg.dataStart_lt_clusterToLba h3 hc2)
    have hsize : ∀ g ∈ liveFiles (putSlot slots i none), g.size ≤ 512 := fun g hg' =>
      h.size_le g ((liveFiles_perm hf).mem_iff.mpr (List.mem_cons_of_mem _ hg'))
    have hmap := h.others hf
    rw [hname] at hmap
    refine ⟨⟨fun _ => rfl, fun _ => hret⟩, putSlot slots i (some ⟨name83, c, data.length⟩), ?_⟩
    rw [hsectors, ← insert_erase]
    refine HoldsVolume.enter hi.le hok hsize hlen hmap (Function.update_self _ _ _) fun g hmem => ?_
    obtain ⟨j, hj⟩ := mem_liveFiles.mp hmem
    have hne : g.cluster ≠ c := hfiles.ne_of_free hfirst.free.2 j g hj
    obtain ⟨-, hslot⟩ := (getElem?_putSlot_none hi.le).mp hj
    have hg3 := h.ok.files.three_le j g hslot
    have hgc := (h.ok.files.cluster_lt j g hslot).2
    have hlba := hg.dataStart_lt_clusterToLba hg3 hgc
    rw [Function.update_of_ne fun heq => hne (hg.clusterToLba_inj (by omega) hgc (by omega) hc2 heq),
      enterSectors, Function.update_of_ne (by omega), setBoth_data hg hc hc2 (by omega),
      setBoth_data hg hfc hfc2 (by omega)]
  · exact absurd (fatEntry_freed hg hfc hfc2) (hnone _ (by omega) hfc2)

/-- `fat32_write_file`. -/
theorem HoldsVolume.write {d : Disk} (h : HoldsVolume fs d.sectors slots m)
    (name data : List UInt8) :
    Follows fs (fat32WriteFile fs name data d) (mapWriteFile (someFree fs d) m name data) := by
  unfold mapWriteFile
  by_cases hlen : data.length ≤ 512
  · cases hname : makeName83 name with
    | none =>
        rw [fat32WriteFile, hg.cluster_bytes, if_neg (by omega), hname]
        exact .unchanged h (by simp) rfl
    | some name83 =>
        have hgood := makeName83_good hname
        have houtcome := fat32WriteFile_outcome hg h.ok.shape hname hlen
        have habsent : ∀ {n : Nat}, Missed fs n slots name83 → name83 ∉ m := by
          rintro n (hfail | hno) hmem
          · rw [hworks] at hfail
            cases hfail
          · obtain ⟨i, f, hf, heq⟩ := h.mem_iff.mp hmem
            exact hno i f hf heq
        simp only [hlen, true_and]
        generalize fat32WriteFile fs name data d = r at houtcome
        cases houtcome with
        | unread hfail => simp [hworks] at hfail
        | full _ hmiss hfull _ hsectors =>
            have hcard : m.keys.card = rootEntries := by
              rw [h.map.card_keys]
              exact length_liveFiles_eq h.ok.dir.length_le hfull
            rw [if_neg (by
              rintro (hmem | ⟨hlt, -⟩)
              · exact habsent hmiss hmem
              · omega)]
            exact .unchanged h (by simp) hsectors
        | fresh _ hmiss hi hi16 hempty _ hr =>
            have hcard : m.keys.card < rootEntries := by
              rw [h.map.card_keys]
              exact length_liveFiles_lt h.ok.dir.length_le hi hi16 hempty
            simp only [habsent hmiss, hcard, true_and, false_or]
            exact h.writeFresh hg hworks hgood hlen (habsent hmiss) hi hi16 hempty hr
        | unfreed _ _ _ _ hfail => simp [hworks] at hfail
        | halfFreed _ _ _ _ _ _ hfail => simp [hworks] at hfail
        | freed _ _ hf heq _ _ _ hr =>
            rw [if_pos (Or.inl (h.mem_iff.mpr ⟨_, _, hf, heq⟩))]
            exact h.writeFreed hg hworks hgood hlen hf heq hr
  · have hfail : fat32WriteFile fs name data d
        = (.error "file too large for current implementation", d) := by
      rw [fat32WriteFile, hg.cluster_bytes, if_pos (by omega)]
    rw [hfail]
    cases makeName83 name with
    | none => exact .unchanged h (by simp) rfl
    | some name83 =>
        simp only [hlen, false_and, if_false]
        exact .unchanged h (by simp) rfl

/-- `fat32_delete_file`. -/
theorem HoldsVolume.delete {d : Disk} (h : HoldsVolume fs d.sectors slots m) (name : List UInt8) :
    Follows fs (fat32DeleteFile fs name d) (mapDeleteFile m name) := by
  unfold mapDeleteFile
  cases hname : makeName83 name with
  | none =>
      rw [fat32DeleteFile, hname]
      exact .unchanged h (by simp) rfl
  | some name83 =>
      have houtcome := fat32DeleteFile_outcome hg h.ok.shape hname
      simp only
      generalize fat32DeleteFile fs name d = r at houtcome
      cases houtcome with
      | missing hmiss hsectors =>
          rw [if_neg fun hmem => by
            obtain ⟨i, f, hf, heq⟩ := h.mem_iff.mp hmem
            rcases hmiss with hfail | hno
            · simp [hworks] at hfail
            · exact hno i f hf heq]
          exact .unchanged h (by simp) hsectors
      | unfreed _ _ hfail => simp [hworks] at hfail
      | halfFreed _ _ _ hfail => simp [hworks] at hfail
      | unmarked _ _ _ hfail => simp [hworks] at hfail
      | @deleted i f _ hf heq _ hsectors =>
          have hi := slot_lt hf
          rw [if_pos (h.mem_iff.mpr ⟨i, f, hf, heq⟩)]
          refine ⟨⟨fun _ => rfl, fun _ => rfl⟩, putSlot slots i none, ?_⟩
          rw [hsectors, ← heq]
          refine ⟨h.ok.delete hg hf, fun g hmem => ?_, (h.others hf).congr (fun _ _ => rfl) ?_⟩
          · exact h.size_le g ((liveFiles_perm hf).mem_iff.mpr (List.mem_cons_of_mem _ hmem))
          · intro g hmem
            obtain ⟨j, hj⟩ := mem_liveFiles.mp hmem
            obtain ⟨-, hslot⟩ := (getElem?_putSlot_none hi.le).mp hj
            obtain ⟨hfc, hfc2⟩ := h.ok.files.cluster_lt i f hf
            have hlba := hg.dataStart_lt_clusterToLba (h.ok.files.three_le j g hslot)
              (h.ok.files.cluster_lt j g hslot).2
            rw [fileData, fileData, Function.update_of_ne (by omega),
              setBoth_data hg hfc hfc2 (by omega)]

/-- A call on the volume is the call on the map. -/
theorem HoldsVolume.op {d : Disk} (h : HoldsVolume fs d.sectors slots m) (op : FatOp) :
    Follows fs (runOp fs op d) (mapOp (someFree fs d) m op) := by
  cases op with
  | write name data => exact h.write hg hworks name data
  | delete name => exact h.delete hg hworks name

end Calls

/-! ## The calls that read -/

section Reads

variable (hg : Geometry fs) (hworks : ∀ n, fs.dev.fails n = false)
include hg hworks

/-- `fat32_read_file` of a file. -/
theorem HoldsVolume.readFile {d : Disk} {name : List UInt8} {outCap : Nat}
    (h : HoldsVolume fs d.sectors slots m) (hname : makeName83 name = some name83)
    (hlookup : m.lookup name83 = some data) (hcap : data.length + 1 ≤ outCap) :
    (fat32ReadFile fs name outCap d).1 = .ok (data ++ [0], data.length) := by
  obtain ⟨f, hf, hfname, rfl⟩ := (h.map.lookup_iff _ _).mp hlookup
  obtain ⟨i, hi⟩ := mem_liveFiles.mp hf
  have hsize := h.size_le f hf
  have hlen : (fileData fs d.sectors f).length = f.size := length_bytesAt _ _ _
  rw [hlen] at hcap ⊢
  rcases findRootEntry_cases hg (d := d) h.ok.dir (makeName83_good hname) with
    ⟨j, g, -, ⟨-, hj, hgname, -⟩, hfind⟩ | ⟨hmiss | hmiss, -⟩
  · obtain rfl := h.ok.files.name_inj i j f g hi hj (hfname.trans hgname.symm)
    obtain rfl : f = g := Option.some.inj (Option.some.inj (hi.symm.trans hj))
    have hfile := h.ok.dir.file i f hi
    have hthree := h.ok.files.three_le i f hi
    have hc := (h.ok.files.cluster_lt i f hi).2
    rw [fat32ReadFile, if_neg (by omega), hname]
    simp only [hfind, orFail_some]
    rw [read_eq hg.rootLba_lt, if_neg (by simp [hworks]), orFail_some]
    simp only [Disk.sectors_tick, hfile.size, hfile.cluster]
    rw [if_neg (by omega), add32_of_lt (by omega), if_neg (by omega),
      read_eq (hg.clusterToLba_lt (by omega) hc), if_neg (by simp [hworks]), orFail_some]
    rfl
  · simp [hworks] at hmiss
  · exact absurd hfname (hmiss i f hi)

omit hworks in
/-- `fat32_read_file` of a name that is not there. -/
theorem HoldsVolume.readFile_absent {d : Disk} (h : HoldsVolume fs d.sectors slots m)
    (name : List UInt8) (outCap : Nat)
    (habsent : ∀ name83, makeName83 name = some name83 → m.lookup name83 = none) :
    ∃ msg, (fat32ReadFile fs name outCap d).1 = .error msg := by
  unfold fat32ReadFile
  split
  · exact ⟨_, rfl⟩
  · cases hname : makeName83 name with
    | none => exact ⟨_, rfl⟩
    | some name83 =>
        rcases findRootEntry_cases hg (d := d) h.ok.dir (makeName83_good hname) with
          ⟨i, f, -, ⟨-, hi, hfname, -⟩, -⟩ | ⟨-, hfind⟩
        · have hmem : name83 ∈ m := h.mem_iff.mpr ⟨i, f, hi, hfname⟩
          obtain ⟨data, hdata⟩ := Finmap.mem_iff.mp hmem
          rw [habsent name83 hname] at hdata
          cases hdata
        · simp only [hfind, orFail_none]
          exact ⟨_, rfl⟩

/-- A volume that holds a map shows it. -/
theorem HoldsVolume.shows {d : Disk} (h : HoldsVolume fs d.sectors slots m) :
    ShowsVolume fs d m where
  read_absent := h.readFile_absent hg
  read_data name name83 data outCap hname hlookup hcap :=
    h.readFile hg hworks hname hlookup hcap
  listing maxOut hmax := by
    have hpos : 0 < rootEntries := by decide
    have hlen : (liveFiles slots).length ≤ rootEntries :=
      (List.length_filterMap_le id slots).trans h.ok.dir.length_le
    have hlist : (fat32ListRoot fs maxOut d).1 = .ok ((liveFiles slots).map RootFile.dirent) := by
      rw [fat32ListRoot, if_neg (by omega), hg.rootLba_eq, read_eq hg.rootLba_lt,
        if_neg (by simp [hworks]), orFail_some]
      have hfrom := @DirOk.listFrom_eq _ _ h.ok.dir rootEntries 0 maxOut (by omega)
      rw [Nat.mul_zero, List.drop_zero, List.take_of_length_le (by rw [List.length_map]; omega)]
        at hfrom
      rw [hfrom]
    refine ⟨_, hlist, ?_, fun ent => ?_⟩
    · have hnames : ((liveFiles slots).map RootFile.dirent).map (·.name83)
          = ((liveFiles slots).map RootFile.name83).map (· ++ [0]) := by
        rw [List.map_map, List.map_map]
        rfl
      rw [hnames]
      exact h.map.nodup.map fun a b hab => List.append_cancel_right hab
    · rw [List.mem_map]
      constructor
      · rintro ⟨f, hf, rfl⟩
        refine ⟨_, _, h.map.lookup_of_mem hf, ?_⟩
        rw [RootFile.dirent, fileData, length_bytesAt]
      · rintro ⟨name83, data, hlookup, rfl⟩
        obtain ⟨f, hf, rfl, rfl⟩ := (h.map.lookup_iff _ _).mp hlookup
        refine ⟨f, hf, ?_⟩
        rw [RootFile.dirent, fileData, length_bytesAt]

end Reads

end Holds

/-! ## Runs -/

/-- Every disk and map of a run belong together. -/
theorem MapReach.holds {dev : BlockDev} {before d : Disk} {fs : Fat32Fs} {m : VolumeMap}
    (hhigh : dev.sectorCount ≤ fatSizeLimit) (hworks : ∀ n, dev.fails n = false)
    (h : MapReach dev before fs d m) :
    Geometry fs ∧ fs.dev = dev ∧ ∃ slots, HoldsVolume fs d.sectors slots m := by
  induction h with
  | start hformatted =>
      obtain ⟨hg, hdev, -⟩ := hformatted.spec hhigh
      exact ⟨hg, hdev, [], hformatted.volOk hhigh, by simp [liveFiles], .nil⟩
  | call op _ ih =>
      obtain ⟨hg, rfl, slots, hholds⟩ := ih
      exact ⟨hg, rfl, (hholds.op hg hworks op).2⟩
  | read name outCap _ ih =>
      obtain ⟨hg, hdev, slots, hholds⟩ := ih
      exact ⟨hg, hdev, slots, by rwa [fat32ReadFile_sectors]⟩
  | list maxOut _ ih =>
      obtain ⟨hg, hdev, slots, hholds⟩ := ih
      exact ⟨hg, hdev, slots, by rwa [fat32ListRoot_sectors]⟩

/-- On a device that works a formatted volume refines a map: in every run each
call succeeds exactly when it does on the map, and the calls that read show the
map. -/
theorem fat32_refines_map {dev : BlockDev} {before d : Disk} {fs : Fat32Fs} {m : VolumeMap}
    (hhigh : dev.sectorCount < 2 ^ 28) (hworks : ∀ n, dev.fails n = false)
    (h : MapReach dev before fs d m) :
    (∀ op, (runOp fs op d).1 = .ok () ↔ (mapOp (someFree fs d) m op).1 = true) ∧
      ShowsVolume fs d m := by
  have hlimit : dev.sectorCount ≤ fatSizeLimit := by
    unfold fatSizeLimit
    omega
  obtain ⟨hg, rfl, slots, hholds⟩ := h.holds hlimit hworks
  exact ⟨fun op => (hholds.op hg hworks op).1, hholds.shows hg hworks⟩

/-- A file on a disk of `0xFF` bytes, written as "A" and read as "a". -/
theorem fat32_refines_map_exampleDev : ∃ d,
    Formatted exampleDev ⟨fun _ _ => 0xFF, 0⟩ (formattedFs exampleDev 2) d ∧
      (fat32ReadFile (formattedFs exampleDev 2) (ascii "a") 2
        (runOp (formattedFs exampleDev 2) (.write (ascii "A") (ascii "x")) d).2).1
        = .ok (ascii "x" ++ [0], 1) := by
  obtain ⟨d, hformatted⟩ := exampleDev_formatted ⟨fun _ _ => 0xFF, 0⟩
  have hg := hformatted.geometry (by decide)
  have hroom : someFree (formattedFs exampleDev 2) d = true :=
    (someFree_iff hg (fun _ => rfl) d).mpr ⟨3, by decide, by decide,
      (hformatted.fatEntry_first (by decide) (by decide) (by decide)).trans (by decide)⟩
  have hupper : makeName83 (ascii "A") = some (ascii "A          ") := by decide
  have hlower : makeName83 (ascii "a") = some (ascii "A          ") := by decide
  have hwrite : mapOp true ∅ (.write (ascii "A") (ascii "x"))
      = (true, (∅ : VolumeMap).insert (ascii "A          ") (ascii "x")) := by
    rw [mapOp, mapWriteFile, hupper]
    exact if_pos ⟨by decide, Or.inr ⟨by decide, rfl⟩⟩
  have hreach := (MapReach.start hformatted).call (.write (ascii "A") (ascii "x"))
  rw [hroom, hwrite] at hreach
  exact ⟨d, hformatted, (fat32_refines_map (by decide) (fun _ => rfl) hreach).2.read_data _ _ _ _
    hlower (Finmap.lookup_insert _) (by decide)⟩

end RoninOS.Fs
