/-
RoninOS.Fs.Fat32Accounting — what becomes of the clusters over a run of writes
and deletes.

On a disk of zeros the FAT marks the root cluster and those of the files, and no
others: a cluster that an overwrite or a delete takes from a file is free
afterwards, and one that is marked is in an entry. `Tidy` is that invariant,
with the two FATs equal; a run keeps it, and changes only the FATs, the root
directory's sector and the sectors of the clusters that it allocates.
-/
import RoninOS.Fs.Fat32Damage
import RoninOS.Fs.Fat32Map

namespace RoninOS.Fs

open RoninOS.Lib

/-! ## Runs -/

/-- The disk after a run. -/
def runOps (fs : Fat32Fs) : List FatOp → Disk → Disk
  | [], d => d
  | op :: ops, d => runOps fs ops (runOp fs op d).2

/-- The clusters that the calls of a run allocate. -/
def allocations (fs : Fat32Fs) : List FatOp → Disk → List Nat
  | [], _ => []
  | op :: ops, d => (opAllocates fs op d).toList ++ allocations fs ops (runOp fs op d).2

/-- No cluster is lost and none has two owners, the FATs are equal, and the other
sectors are those of the disk `start`, the clusters of `used` apart. -/
structure Accounted (fs : Fat32Fs) (start d : Disk) (used : List Nat) : Prop where
  owned : ∀ c, 2 ≤ c → c < min (fs.totalClusters + 2) (128 * fs.sectorsPerFat) →
    ((fatGet fs c d).1 ≠ 0 ↔ c = fs.rootCluster ∨
      ∃! i, SlotLive (d.sectors (rootLba fs)) i ∧
        entryCluster (d.sectors (rootLba fs)) (32 * i) = c)
  copies : ∀ j < fs.sectorsPerFat, ∀ b < 512,
    d.sectors (fs.fatStartLba + j) b = d.sectors (fs.fatStartLba + fs.sectorsPerFat + j) b
  frame : ∀ lba, ¬ InFats fs lba → lba ≠ rootLba fs → (∀ c ∈ used, lba ≠ clusterToLba fs c) →
    d.sectors lba = start.sectors lba

/-! ## The invariant -/

/-- Every marked data cluster is that of a file. -/
def NoneLost (fs : Fat32Fs) (s : Nat → Mem) (slots : List (Option RootFile)) : Prop :=
  ∀ c, 3 ≤ c → c < 128 * fs.sectorsPerFat → c < fs.totalClusters + 2 → fatEntry fs s c ≠ 0 →
    ∃ (i : Nat) (f : RootFile), slots[i]? = some (some f) ∧ f.cluster = c

/-- The two FATs are equal. -/
def Mirrored (fs : Fat32Fs) (s : Nat → Mem) : Prop :=
  ∀ j < fs.sectorsPerFat, ∀ b < 512, s (32 + j) b = s (32 + fs.sectorsPerFat + j) b

/-- The invariant of a run. -/
structure Tidy (fs : Fat32Fs) (s : Nat → Mem) (slots : List (Option RootFile)) : Prop where
  ok : VolOk fs s slots
  noLeak : NoneLost fs s slots
  mirrored : Mirrored fs s

section Keep

variable {fs : Fat32Fs} {s s' : Nat → Mem} {slots : List (Option RootFile)} {i c : Nat}

/-- Emptying a slot without a file loses no owner. -/
theorem NoneLost.vacate (h : NoneLost fs s slots) (hi : i ≤ slots.length)
    (hempty : ∀ f : RootFile, slots[i]? ≠ some (some f)) : NoneLost fs s (putSlot slots i none) := by
  intro c h3 hc hc2 hmarked
  obtain ⟨j, f, hj, hcluster⟩ := h c h3 hc hc2 hmarked
  refine ⟨j, f, (getElem?_putSlot_none hi).mpr ⟨?_, hj⟩, hcluster⟩
  rintro rfl
  exact hempty f hj

section Volume

variable (hg : Geometry fs)
include hg

/-- Freeing the cluster of a file that leaves its slot. -/
theorem NoneLost.free {f : RootFile} (h : NoneLost fs s slots) (hf : slots[i]? = some (some f))
    (hfc : f.cluster < 128 * fs.sectorsPerFat) (hfc2 : f.cluster < fs.totalClusters + 2) :
    NoneLost fs (setBoth fs s f.cluster 0) (putSlot slots i none) := by
  intro c h3 hc hc2 hmarked
  rw [fatEntry_setBoth hg hfc hfc2 hc hc2 (by decide)] at hmarked
  split at hmarked
  · exact absurd rfl hmarked
  · rename_i hne
    obtain ⟨j, g, hj, rfl⟩ := h c h3 hc hc2 hmarked
    refine ⟨j, g, (getElem?_putSlot_none (slot_lt hf).le).mpr ⟨?_, hj⟩, rfl⟩
    rintro rfl
    obtain rfl : f = g := Option.some.inj (Option.some.inj (hf.symm.trans hj))
    exact hne rfl

/-- Marking the cluster of a file that enters a slot. -/
theorem NoneLost.enter {name83 : List UInt8} {len : Nat} (h : NoneLost fs s (putSlot slots i none))
    (hi : i ≤ slots.length) (hcc : c < 128 * fs.sectorsPerFat) (hcc2 : c < fs.totalClusters + 2) :
    NoneLost fs (setBoth fs s c fat32Eoc) (putSlot slots i (some ⟨name83, c, len⟩)) := by
  intro k h3 hk hk2 hmarked
  rw [fatEntry_setBoth hg hcc hcc2 hk hk2 (by decide)] at hmarked
  split at hmarked
  · rename_i heq
    exact ⟨i, _, by rw [getElem?_putSlot hi, if_pos rfl], heq.symm⟩
  · obtain ⟨j, f, hj, hcluster⟩ := h k h3 hk hk2 hmarked
    obtain ⟨hne, hslot⟩ := (getElem?_putSlot_none hi).mp hj
    exact ⟨j, f, by rw [getElem?_putSlot hi, if_neg hne]; exact hslot, hcluster⟩

/-- The data area may change. -/
theorem NoneLost.data {lba : Nat} {m : Mem} (h : NoneLost fs s slots) (hlba : fs.dataStartLba ≤ lba) :
    NoneLost fs (Function.update s lba m) slots := by
  intro c h3 hc hc2 hmarked
  rw [fatEntry_data hg hc2 hlba] at hmarked
  exact h c h3 hc hc2 hmarked

theorem Mirrored.data {lba : Nat} {m : Mem} (h : Mirrored fs s) (hlba : fs.dataStartLba ≤ lba) :
    Mirrored fs (Function.update s lba m) := by
  intro j hj b hb
  have hstart := hg.dataStart
  rw [Function.update_of_ne (by omega), Function.update_of_ne (by omega)]
  exact h j hj b hb

/-- `fat_set` writes the same sector to both FATs. -/
theorem Mirrored.setBoth {v : Nat} (h : Mirrored fs s) (hc : c < 128 * fs.sectorsPerFat)
    (hc2 : c < fs.totalClusters + 2) : Mirrored fs (setBoth fs s c v) := by
  intro j hj b hb
  have heq := hg.fatLba_eq hc2
  unfold RoninOS.Fs.setBoth setFirst
  by_cases hplace : 32 + j = fatLba fs c
  · have hplace' : 32 + fs.sectorsPerFat + j = fatLba fs c + fs.sectorsPerFat := by omega
    rw [hplace', Function.update_self, hplace, Function.update_of_ne (by omega),
      Function.update_self]
  · rw [Function.update_of_ne (by omega), Function.update_of_ne hplace,
      Function.update_of_ne (by omega), Function.update_of_ne (by omega)]
    exact h j hj b hb

/-- Entering a file with a fresh cluster and a new name at slot `i`. -/
theorem Tidy.enter {sec m : Mem} {name83 : List UInt8} {len n : Nat} (hfat : FatOk fs s)
    (hdir : DirOk sec slots) (hfiles : FilesOk fs s (putSlot slots i none))
    (hnoLeak : NoneLost fs s (putSlot slots i none)) (hmirrored : Mirrored fs s)
    (hi : i ≤ slots.length) (hi16 : i < rootEntries) (hgood : GoodName name83) (hlen : len ≤ 512)
    (hfirst : FirstFree fs n s c)
    (hname : ∀ (j : Nat) (f : RootFile), j ≠ i → slots[j]? = some (some f) → f.name83 ≠ name83) :
    Tidy fs (Function.update (enterSectors fs s sec (32 * i) name83 c len) (clusterToLba fs c) m)
      (putSlot slots i (some ⟨name83, c, len⟩)) := by
  obtain ⟨h3, hc, hc2⟩ := hfirst.data_cluster hfat
  have hlba := hg.dataStart_lt_clusterToLba h3 hc2
  refine ⟨(VolOk.enter hg hfat hdir hfiles hi hi16 hgood hlen hfirst hname).data hg hlba, ?_, ?_⟩
  · exact ((hnoLeak.enter hg hi hc hc2).data hg (le_refl _)).data hg hlba.le
  · exact ((hmirrored.setBoth hg hc hc2).data hg (le_refl _)).data hg hlba.le

/-! ## One call -/

variable (hworks : ∀ n, fs.dev.fails n = false)
include hworks

/-- `fat32_write_file`, on a device that works. -/
theorem Tidy.write {d : Disk} (h : Tidy fs d.sectors slots) (name data : List UInt8) :
    ∃ slots', Tidy fs (fat32WriteFile fs name data d).2.sectors slots' := by
  by_cases haccepted : data.length ≤ 512 ∧ ∃ name83, makeName83 name = some name83
  · obtain ⟨hlen, name83, hname⟩ := haccepted
    have hgood := makeName83_good hname
    have houtcome := fat32WriteFile_outcome hg h.ok.shape hname hlen
    generalize fat32WriteFile fs name data d = r at houtcome
    cases houtcome with
    | unread hfail => simp [hworks] at hfail
    | full _ _ _ _ hsectors => exact ⟨slots, hsectors ▸ h⟩
    | @fresh i _ _ hmiss hi hi16 hempty _ hr =>
        rcases hr.works hworks with ⟨c, hfirst, -, hsectors⟩ | ⟨-, -, hsectors⟩
        · have habsent := hmiss.resolve_left (by simp [hworks])
          rw [hsectors]
          exact ⟨_, Tidy.enter hg h.ok.fat h.ok.dir (h.ok.files.vacate hi)
            (h.noLeak.vacate hi hempty) h.mirrored hi hi16 hgood hlen hfirst
            fun j f _ hj => habsent j f hj⟩
        · exact ⟨slots, hsectors ▸ h⟩
    | unfreed _ _ _ _ hfail => simp [hworks] at hfail
    | halfFreed _ _ _ _ _ _ hfail => simp [hworks] at hfail
    | @freed i f _ _ _ hf hname _ _ _ hr =>
        obtain ⟨hfc, hfc2⟩ := h.ok.files.cluster_lt i f hf
        have hthree := h.ok.files.three_le i f hf
        have hi := slot_lt hf
        rcases hr.works hworks with ⟨c, hfirst, -, hsectors⟩ | ⟨hnone, -, -⟩
        · rw [hsectors]
          exact ⟨_, Tidy.enter hg (h.ok.fat.setBoth hg hthree hfc hfc2 (by decide)) h.ok.dir
            (h.ok.files.free hg hf) (h.noLeak.free hg hf hfc hfc2)
            (h.mirrored.setBoth hg hfc hfc2) hi.le
            (Nat.lt_of_lt_of_le hi h.ok.dir.length_le) hgood hlen hfirst
            fun j g hne hj heq => hne (h.ok.same_slot hj hf heq hname)⟩
        · exact absurd (fatEntry_freed hg hfc hfc2) (hnone _ (by omega) hfc2)
  · obtain ⟨e, hrefused⟩ := fat32WriteFile_refused hg haccepted
    rw [hrefused]
    exact ⟨slots, h⟩

/-- `fat32_delete_file`, on a device that works. -/
theorem Tidy.delete {d : Disk} (h : Tidy fs d.sectors slots) (name : List UInt8) :
    ∃ slots', Tidy fs (fat32DeleteFile fs name d).2.sectors slots' := by
  cases hname : makeName83 name with
  | none =>
      rw [fat32DeleteFile, hname]
      exact ⟨slots, h⟩
  | some name83 =>
      have houtcome := fat32DeleteFile_outcome hg h.ok.shape hname
      generalize fat32DeleteFile fs name d = r at houtcome
      cases houtcome with
      | missing _ hsectors => exact ⟨slots, hsectors ▸ h⟩
      | unfreed _ _ hfail => simp [hworks] at hfail
      | halfFreed _ _ _ hfail => simp [hworks] at hfail
      | unmarked _ _ _ hfail => simp [hworks] at hfail
      | @deleted i f _ hf _ _ hsectors =>
          obtain ⟨hfc, hfc2⟩ := h.ok.files.cluster_lt i f hf
          rw [hsectors]
          exact ⟨_, h.ok.delete hg hf, (h.noLeak.free hg hf hfc hfc2).data hg (le_refl _),
            (h.mirrored.setBoth hg hfc hfc2).data hg (le_refl _)⟩

/-- A call keeps the invariant. -/
theorem Tidy.op {d : Disk} (h : Tidy fs d.sectors slots) (op : FatOp) :
    ∃ slots', Tidy fs (runOp fs op d).2.sectors slots' := by
  cases op with
  | write name data => exact h.write hg hworks name data
  | delete name => exact h.delete hg hworks name

/-- A call changes the FATs, the root directory's sector and that of the cluster
it allocates. -/
theorem Tidy.outside {d : Disk} {lba : Nat} {op : FatOp} (h : Tidy fs d.sectors slots)
    (hlba : ¬ MayChange fs op d lba) : (runOp fs op d).2.sectors lba = d.sectors lba := by
  by_cases hfrees : ∃ k, Frees fs op d k
  · obtain ⟨k, hk⟩ := hfrees
    -- the entry it finds is a file's
    obtain ⟨name83, off, hname, hfind, rfl⟩ := hk.entry
    rw [hg.rootLba_eq] at hfind
    obtain ⟨i, f, ⟨-, hf, -, -⟩, hoff⟩ | ⟨-, hnone⟩ :=
      h.ok.dir.findEntryFrom_cases (makeName83_good hname) (Nat.zero_add rootEntries)
    swap
    · rw [Nat.mul_zero, hfind] at hnone
      cases hnone
    rw [Nat.mul_zero, hfind] at hoff
    obtain rfl := Option.some.inj hoff
    have hcluster := (h.ok.dir.file i f hf).cluster
    rw [← hg.rootLba_eq] at hcluster
    obtain ⟨hfc, hfc2⟩ := h.ok.files.cluster_lt i f hf
    have hthree := h.ok.files.three_le i f hf
    rw [hcluster] at hk
    have hset : (fatSet fs f.cluster 0 (d.tick 2)).2.sectors = setBoth fs d.sectors f.cluster 0 := by
      rw [hg.fatSet_eq hfc hfc2]
      simp [hworks]
    have htail : TailMarked fs (setBoth fs d.sectors f.cluster 0) :=
      (h.ok.fat.setBoth hg hthree hfc hfc2 (by decide)).tail
    rw [runOp_frees_outside hg hk (hset ▸ htail) hlba, hset]
    exact (setBoth_outside hg hfc hfc2 fun hfats => hlba (Or.inl hfats)).2
  · exact runOp_keeps_outside hg (not_exists.mp hfrees) h.ok.fat.tail hlba

/-- A run keeps the invariant, and changes nothing else. -/
theorem Tidy.run (ops : List FatOp) : ∀ {slots : List (Option RootFile)} {d : Disk},
    Tidy fs d.sectors slots → (∃ slots', Tidy fs (runOps fs ops d).sectors slots') ∧
      ∀ lba, ¬ InFats fs lba → lba ≠ rootLba fs →
        (∀ c ∈ allocations fs ops d, lba ≠ clusterToLba fs c) →
        (runOps fs ops d).sectors lba = d.sectors lba := by
  induction ops with
  | nil => exact fun h => ⟨⟨_, h⟩, fun _ _ _ _ => rfl⟩
  | cons op ops ih =>
      intro slots d h
      obtain ⟨slots', h'⟩ := h.op hg hworks op
      obtain ⟨hend, hframe⟩ := ih h'
      refine ⟨hend, fun lba hfats hroot hused => ?_⟩
      have hcall : (runOp fs op d).2.sectors lba = d.sectors lba := by
        refine h.outside hg hworks fun hmay => ?_
        rcases hmay with hin | heq | ⟨c, hc, -, -, hlba⟩
        · exact hfats hin
        · exact hroot heq
        · refine hused c (List.mem_append_left _ ?_) hlba
          rw [hc]
          exact List.mem_singleton_self c
      exact (hframe lba hfats hroot fun c hc => hused c (List.mem_append_right _ hc)).trans hcall

end Volume

end Keep

/-! ## From the format on -/

section Accounts

variable {dev : BlockDev} {before d : Disk} {fs : Fat32Fs}

/-- On a disk of zeros the invariant holds of the fresh volume. -/
theorem Formatted.tidy (h : Formatted dev before fs d) (hhigh : dev.sectorCount ≤ fatSizeLimit)
    (hzero : ∀ lba < dev.sectorCount, ∀ b < 512, before.sectors lba b = 0) :
    Tidy fs d.sectors [] := by
  obtain ⟨hg, rfl, -⟩ := h.spec hhigh
  have hstart := hg.dataStart
  have htotal := hg.total
  refine ⟨h.volOk hhigh, fun c h3 hc hc2 hmarked => ?_, ?_⟩
  · refine absurd ?_ hmarked
    by_cases hfirst : c < 128
    · rw [h.fatEntry_first hhigh hfirst hc2, if_neg (by omega), if_neg (by omega)]
    · rw [h.fatEntry_rest hhigh (by omega) hc hc2, hg.fatEntry_eq hc2]
      have hword : ld32 (before.sectors (32 + c / 128)) (c % 128 * 4)
          = ld32 zeroSector (c % 128 * 4) :=
        ld32_congr fun k hk => hzero _ (by omega) _ (by omega)
      rw [hword]
      simp [ld32, zeroSector, le32]
  · refine h.copies hhigh fun j h1 hj b hb => ?_
    rw [hzero _ (by omega) b hb, hzero _ (by omega) b hb]

/-- What the invariant says in the bytes of the volume. -/
theorem Tidy.owned {slots : List (Option RootFile)} (h : Tidy fs d.sectors slots)
    (hg : Geometry fs) (hworks : ∀ n, fs.dev.fails n = false) {c : Nat} (h2 : 2 ≤ c)
    (hc : c < 128 * fs.sectorsPerFat) (hc2 : c < fs.totalClusters + 2) :
    (fatGet fs c d).1 ≠ 0 ↔ c = fs.rootCluster ∨
      ∃! i, SlotLive (d.sectors (rootLba fs)) i ∧
        entryCluster (d.sectors (rootLba fs)) (32 * i) = c := by
  rw [fatGet_works hg hworks hc2, hg.rootCluster, hg.rootLba_eq]
  constructor
  · intro hmarked
    by_cases hroot : c = 2
    · exact Or.inl hroot
    · obtain ⟨i, f, hf, rfl⟩ := h.noLeak c (by omega) hc hc2 hmarked
      refine Or.inr ⟨i, ⟨h.ok.dir.slotLive_iff.mpr ⟨f, hf⟩, (h.ok.dir.file i f hf).cluster⟩, ?_⟩
      rintro j ⟨hlive, hcluster⟩
      obtain ⟨g, hgj⟩ := h.ok.dir.slotLive_iff.mp hlive
      rw [(h.ok.dir.file j g hgj).cluster] at hcluster
      exact h.ok.files.cluster_inj j i g f hgj hf hcluster
  · rintro (rfl | ⟨i, ⟨hlive, hcluster⟩, -⟩)
    · exact h.ok.fat.head 2 (by decide)
    · obtain ⟨f, hf⟩ := h.ok.dir.slotLive_iff.mp hlive
      rw [(h.ok.dir.file i f hf).cluster] at hcluster
      exact hcluster ▸ h.ok.files.marked i f hf

/-- From a format of a disk of zeros on, on a device that works, every run of
writes and deletes accounts for its clusters. -/
theorem run_accounted (hhigh : dev.sectorCount < 2 ^ 28) (hworks : ∀ n, dev.fails n = false)
    (hzero : ∀ lba < dev.sectorCount, ∀ b < 512, before.sectors lba b = 0)
    (h : Formatted dev before fs d) (ops : List FatOp) :
    Accounted fs d (runOps fs ops d) (allocations fs ops d) := by
  have hlimit : dev.sectorCount ≤ fatSizeLimit := by
    unfold fatSizeLimit
    omega
  have htidy := h.tidy hlimit hzero
  obtain ⟨hg, rfl, -⟩ := h.spec hlimit
  obtain ⟨⟨slots, hend⟩, hframe⟩ := htidy.run hg hworks ops
  refine ⟨fun c h2 hc => ?_, ?_, hframe⟩
  · exact hend.owned hg hworks h2 (by omega) (by omega)
  · rw [hg.fatStart]
    exact hend.mirrored

end Accounts

/-- A file that is written twice and deleted. -/
theorem run_accounted_exampleDev : ∃ d, Formatted exampleDev zeroDisk (formattedFs exampleDev 2) d ∧
    Accounted (formattedFs exampleDev 2) d
      (runOps (formattedFs exampleDev 2)
        [.write (ascii "A") (ascii "x"), .write (ascii "A") (ascii "y"), .delete (ascii "A")] d)
      (allocations (formattedFs exampleDev 2)
        [.write (ascii "A") (ascii "x"), .write (ascii "A") (ascii "y"), .delete (ascii "A")] d) := by
  obtain ⟨d, hformatted⟩ := exampleDev_formatted zeroDisk
  exact ⟨d, hformatted, run_accounted (by decide) (fun _ => rfl) (fun _ _ _ _ => rfl) hformatted _⟩

end RoninOS.Fs
