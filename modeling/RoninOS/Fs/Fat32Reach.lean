/-
RoninOS.Fs.Fat32Reach — the volumes that calls reach when requests may fail.

A request that fails can leave a cluster free in one copy of the FAT and taken
in the other, or allocated with no file. `SizedShape` is what holds all the same
after every sequence of calls: a directory that can be read, a FAT whose head is
intact, and files of at most a cluster whose clusters exist.
-/
import RoninOS.Fs.Fat32Faults

namespace RoninOS.Fs

open RoninOS.Lib

/-- The disks of all sequences of calls on a formatted and mounted device,
whatever requests fail. -/
inductive FatReach (dev : BlockDev) (before : Disk) (fs : Fat32Fs) : Disk → Prop
  | start {d : Disk} : Formatted dev before fs d → FatReach dev before fs d
  | call {d : Disk} (op : FatOp) : FatReach dev before fs d → FatReach dev before fs (runOp fs op d).2
  | read {d : Disk} (name : List UInt8) (outCap : Nat) : FatReach dev before fs d →
      FatReach dev before fs (fat32ReadFile fs name outCap d).2
  | list {d : Disk} (maxOut : Nat) : FatReach dev before fs d →
      FatReach dev before fs (fat32ListRoot fs maxOut d).2

/-- The shape of a reachable volume: its files have at most 512 bytes each. -/
structure SizedShape (fs : Fat32Fs) (s : Nat → Mem) (slots : List (Option RootFile)) : Prop
    extends VolShape fs s slots where
  size_le : ∀ (i : Nat) (f : RootFile), slots[i]? = some (some f) → f.size ≤ 512

section Shape

variable {fs : Fat32Fs} (hg : Geometry fs) {s : Nat → Mem} {slots : List (Option RootFile)}
  {i c v n : Nat} {name83 : List UInt8}
include hg

/-- A data cluster's entry may change. -/
theorem SizedShape.setFirst (h : SizedShape fs s slots) (h3 : 3 ≤ c)
    (hc : c < 128 * fs.sectorsPerFat) (hc2 : c < fs.totalClusters + 2) (hv : v < 2 ^ 32) :
    SizedShape fs (setFirst fs s c v) slots := by
  refine ⟨⟨h.fat.setFirst hg h3 hc hc2 hv, ?_, h.three_le, h.cluster_lt⟩, h.size_le⟩
  rw [setFirst_data hg hc hc2 (le_refl _)]
  exact h.dir

theorem SizedShape.setBoth (h : SizedShape fs s slots) (h3 : 3 ≤ c)
    (hc : c < 128 * fs.sectorsPerFat) (hc2 : c < fs.totalClusters + 2) (hv : v < 2 ^ 32) :
    SizedShape fs (setBoth fs s c v) slots := by
  refine ⟨⟨h.fat.setBoth hg h3 hc hc2 hv, ?_, h.three_le, h.cluster_lt⟩, h.size_le⟩
  rw [setBoth_data hg hc hc2 (le_refl _)]
  exact h.dir

/-- A data sector may change. -/
theorem SizedShape.data {lba : Nat} {m : Mem} (h : SizedShape fs s slots)
    (hlba : fs.dataStartLba < lba) : SizedShape fs (Function.update s lba m) slots := by
  refine ⟨⟨h.fat.data hg hlba.le, ?_, h.three_le, h.cluster_lt⟩, h.size_le⟩
  rw [Function.update_of_ne (by omega)]
  exact h.dir

/-- A slot may change, with the root directory's sector. -/
theorem SizedShape.put {m : Mem} {x : Option RootFile} (h : SizedShape fs s slots)
    (hi : i ≤ slots.length) (hdir : DirOk m (putSlot slots i x))
    (hx : ∀ f, x = some f → 3 ≤ f.cluster ∧ f.cluster < 128 * fs.sectorsPerFat ∧
      f.cluster < fs.totalClusters + 2 ∧ f.size ≤ 512) :
    SizedShape fs (Function.update s fs.dataStartLba m) (putSlot slots i x) := by
  refine ⟨⟨h.fat.data hg (le_refl _), ?_, fun j f hf => ?_, fun j f hf => ?_⟩, fun j f hf => ?_⟩
  · rw [Function.update_self]
    exact hdir
  · exact (file_of_putSlot hi hf).elim (fun hnew => (hx f hnew).1) (h.three_le j f)
  · exact (file_of_putSlot hi hf).elim (fun hnew => ⟨(hx f hnew).2.1, (hx f hnew).2.2.1⟩)
      (h.cluster_lt j f)
  · exact (file_of_putSlot hi hf).elim (fun hnew => (hx f hnew).2.2.2) (h.size_le j f)

/-- The entry of a new file. -/
theorem SizedShape.enter {len : Nat} (h : SizedShape fs s slots) (hi : i ≤ slots.length)
    (hi16 : i < rootEntries) (hgood : GoodName name83) (hlen : len ≤ 512)
    (hfirst : FirstFree fs n s c) :
    SizedShape fs (enterSectors fs s (s fs.dataStartLba) (32 * i) name83 c len)
      (putSlot slots i (some ⟨name83, c, len⟩)) := by
  obtain ⟨h3, hc, hc2⟩ := hfirst.data_cluster h.fat
  have hlt := hg.cluster_lt hc2
  refine (h.setBoth hg h3 hc hc2 (v := fat32Eoc) (by decide)).put hg hi
    (h.dir.putEntry hi hi16 hgood (by omega) (by omega)) fun f hf => ?_
  obtain rfl := Option.some.inj hf
  exact ⟨h3, hc, hc2, hlen⟩

/-- `writeEntry` keeps the shape, wherever it stops. -/
theorem EntryOutcome.shape {data : List UInt8} {r : Except String Unit × Disk}
    (h : SizedShape fs s slots)
    (hi : i ≤ slots.length) (hi16 : i < rootEntries) (hgood : GoodName name83)
    (hlen : data.length ≤ 512)
    (hr : EntryOutcome fs n s (s fs.dataStartLba) (32 * i) name83 data r) :
    ∃ slots', SizedShape fs r.2.sectors slots' := by
  cases hr with
  | nothing _ hsectors => exact ⟨slots, hsectors ▸ h⟩
  | marked hmarks _ hsectors =>
      obtain ⟨h3, hc, hc2⟩ := hmarks.first.data_cluster h.fat
      rcases hsectors with hsectors | hsectors
      · exact ⟨slots, hsectors ▸ h.setFirst hg h3 hc hc2 (by decide)⟩
      · exact ⟨slots, hsectors ▸ h.setBoth hg h3 hc hc2 (by decide)⟩
  | entered henters _ hsectors =>
      exact ⟨_, hsectors ▸ h.enter hg hi hi16 hgood hlen henters.first⟩
  | written henters _ hsectors _ =>
      obtain ⟨h3, -, hc2⟩ := henters.first.data_cluster h.fat
      exact ⟨_, hsectors ▸ (h.enter hg hi hi16 hgood hlen henters.first).data hg
        (hg.dataStart_lt_clusterToLba h3 hc2)⟩

/-- `fat32_write_file` keeps the shape. -/
theorem SizedShape.write {d : Disk} (h : SizedShape fs d.sectors slots) (name data : List UInt8) :
    ∃ slots', SizedShape fs (fat32WriteFile fs name data d).2.sectors slots' := by
  by_cases haccepted : data.length ≤ 512 ∧ ∃ name83, makeName83 name = some name83
  · obtain ⟨hlen, name83, hname⟩ := haccepted
    have hgood := makeName83_good hname
    have houtcome := fat32WriteFile_outcome hg h.toVolShape hname hlen
    generalize fat32WriteFile fs name data d = r at houtcome
    cases houtcome with
    | unread _ hsectors => exact ⟨slots, hsectors ▸ h⟩
    | full _ _ _ _ hsectors => exact ⟨slots, hsectors ▸ h⟩
    | fresh _ _ hi hi16 _ _ hr => exact hr.shape hg h hi hi16 hgood hlen
    | unfreed _ _ _ _ _ hsectors => exact ⟨slots, hsectors ▸ h⟩
    | halfFreed _ _ hf _ _ _ _ hsectors =>
        obtain ⟨hfc, hfc2⟩ := h.cluster_lt _ _ hf
        exact ⟨slots, hsectors ▸ h.setFirst hg (h.three_le _ _ hf) hfc hfc2 (by decide)⟩
    | @freed i f _ _ _ hf _ _ _ _ hr =>
        obtain ⟨hfc, hfc2⟩ := h.cluster_lt i f hf
        have hi := slot_lt hf
        rw [← setBoth_data hg hfc hfc2 (s := d.sectors) (v := 0) (le_refl _)] at hr
        exact hr.shape hg (h.setBoth hg (h.three_le i f hf) hfc hfc2 (by decide)) hi.le
          (Nat.lt_of_lt_of_le hi h.dir.length_le) hgood hlen
  · obtain ⟨e, hrefused⟩ := fat32WriteFile_refused hg haccepted
    rw [hrefused]
    exact ⟨slots, h⟩

/-- `fat32_delete_file` keeps the shape. -/
theorem SizedShape.delete {d : Disk} (h : SizedShape fs d.sectors slots) (name : List UInt8) :
    ∃ slots', SizedShape fs (fat32DeleteFile fs name d).2.sectors slots' := by
  cases hname : makeName83 name with
  | none =>
      rw [fat32DeleteFile, hname]
      exact ⟨slots, h⟩
  | some name83 =>
      have houtcome := fat32DeleteFile_outcome hg h.toVolShape hname
      generalize fat32DeleteFile fs name d = r at houtcome
      -- the cluster of a file may be freed in both copies or in the first
      have hfree : ∀ {i : Nat} {f : RootFile}, slots[i]? = some (some f) →
          SizedShape fs (RoninOS.Fs.setFirst fs d.sectors f.cluster 0) slots ∧
            SizedShape fs (RoninOS.Fs.setBoth fs d.sectors f.cluster 0) slots := by
        intro i f hf
        obtain ⟨hfc, hfc2⟩ := h.cluster_lt i f hf
        exact ⟨h.setFirst hg (h.three_le i f hf) hfc hfc2 (by decide),
          h.setBoth hg (h.three_le i f hf) hfc hfc2 (by decide)⟩
      cases houtcome with
      | missing _ hsectors => exact ⟨slots, hsectors ▸ h⟩
      | unfreed _ _ _ hsectors => exact ⟨slots, hsectors ▸ h⟩
      | halfFreed hf _ _ _ hsectors => exact ⟨slots, hsectors ▸ (hfree hf).1⟩
      | unmarked hf _ _ _ hsectors => exact ⟨slots, hsectors ▸ (hfree hf).2⟩
      | deleted hf _ _ hsectors =>
          exact ⟨_, hsectors ▸ (hfree hf).2.put hg (slot_lt hf).le (h.dir.delete (slot_lt hf))
            fun f hnone => by cases hnone⟩

end Shape

/-- Every call keeps the shape. -/
theorem FatReach.shape {dev : BlockDev} {before d : Disk} {fs : Fat32Fs}
    (h : FatReach dev before fs d) (hg : Geometry fs) : ∃ slots, SizedShape fs d.sectors slots := by
  induction h with
  | start hformatted =>
      have hlimit : dev.sectorCount ≤ fatSizeLimit := hformatted.dev_eq ▸ hg.count_le
      exact ⟨[], (hformatted.volOk hlimit).shape, by simp⟩
  | call op _ ih =>
      obtain ⟨slots, hshape⟩ := ih
      cases op with
      | write name data => exact hshape.write hg name data
      | delete name => exact hshape.delete hg name
  | read name outCap _ ih =>
      rw [fat32ReadFile_sectors]
      exact ih
  | list maxOut _ ih =>
      rw [fat32ListRoot_sectors]
      exact ih

end RoninOS.Fs
