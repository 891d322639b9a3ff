/-
RoninOS.Fs.Fat32Overrun — how much `fat32_write_file` copies into its sector
buffer.

The length is compared with the size of a cluster, whose number of sectors is a
field of the boot sector; the buffer and the write of the data have one sector.
So the data is whole exactly where no call with more than 512 bytes gets as far
as the copy. `CopiesData` says on which disks and devices a call does, for any
geometry.
-/
import RoninOS.Fs.Fat32Damage
import RoninOS.Fs.Fat32Buffers

namespace RoninOS.Fs

open RoninOS.Lib

/-! ## `fat_set` and `alloc_cluster` on any volume -/

/-- From request `n` on, `fat_set` is served for cluster `k`: its read and the
write of every copy. -/
structure SetServed (fs : Fat32Fs) (k n : Nat) : Prop where
  read : fs.dev.Serves (fatLba fs k) n
  copies : ∀ f < fs.fatCount, fs.dev.writable = true ∧
    fs.dev.Serves (add32 (fatLba fs k) (mul32 f fs.sectorsPerFat)) (n + 1 + f)

/-- The sectors after `fat_set` has written every copy. -/
def setCopies (fs : Fat32Fs) (s : Nat → Mem) (k v : Nat) : Nat → Mem := fun lba =>
  if ∃ f < fs.fatCount, lba = add32 (fatLba fs k) (mul32 f fs.sectorsPerFat) then
    st32 (s (fatLba fs k)) (fatOffset k) v
  else s lba

section Steps

variable {fs : Fat32Fs} {k v n m : Nat} {s : Nat → Mem}

/-- A write that is served. -/
theorem fat32IoWrite_served {lba : Nat} {d : Disk} (hw : fs.dev.writable = true)
    (h : fs.dev.Serves lba d.requests) (sec : Mem) :
    fat32IoWrite fs.dev lba sec d = (some (), (d.put lba sec).tick 1) := by
  rw [fat32IoWrite, if_pos hw, BlockDev.write_ok h]

/-- The loop over the copies, from copy `f` on, where each write is served. -/
theorem fatSetCopies_served {lba : Nat} {sec : Mem} : ∀ {rounds f : Nat} {d : Disk},
    (∀ j < rounds, fs.dev.writable = true ∧
      fs.dev.Serves (add32 lba (mul32 (f + j) fs.sectorsPerFat)) (d.requests + j)) →
    fatSetCopies fs lba sec rounds f d = (some (),
      ⟨fun l => if ∃ j < rounds, l = add32 lba (mul32 (f + j) fs.sectorsPerFat) then sec
        else d.sectors l, d.requests + rounds⟩) := by
  intro rounds
  induction rounds with
  | zero => intro f d _; simp [fatSetCopies]
  | succ rounds ih =>
      intro f d h
      obtain ⟨hw, hserves⟩ := h 0 (Nat.succ_pos _)
      rw [fatSetCopies, fat32IoWrite_served hw (by simpa using hserves)]
      simp only
      rw [ih fun j hj => by simpa [Nat.add_assoc, Nat.add_comm 1] using h (j + 1) (by omega)]
      congr 2
      · funext l
        by_cases hl : ∃ j < rounds, l = add32 lba (mul32 (f + 1 + j) fs.sectorsPerFat)
        · obtain ⟨j, hj, heq⟩ := hl
          rw [if_pos ⟨j, hj, heq⟩, if_pos ⟨j + 1, by omega, by rw [heq]; congr 2; omega⟩]
        · rw [if_neg hl]
          by_cases hfirst : l = add32 lba (mul32 f fs.sectorsPerFat)
          · rw [if_pos ⟨0, Nat.succ_pos _, hfirst⟩]
            simp [Disk.put, Disk.tick, hfirst]
          · rw [if_neg]
            · simp [Disk.put, Disk.tick, hfirst]
            · rintro ⟨_ | j, hj, heq⟩
              · exact hfirst heq
              · exact hl ⟨j, by omega, by rw [heq]; congr 2; omega⟩
      · simp [Disk.put, Disk.tick]
        omega

/-- The loop gets through only so. -/
theorem served_of_fatSetCopies {lba : Nat} {sec : Mem} : ∀ {rounds f : Nat} {d d' : Disk},
    fatSetCopies fs lba sec rounds f d = (some (), d') → ∀ j < rounds,
      fs.dev.writable = true ∧
        fs.dev.Serves (add32 lba (mul32 (f + j) fs.sectorsPerFat)) (d.requests + j) := by
  intro rounds
  induction rounds with
  | zero => intro f d d' _ j hj; omega
  | succ rounds ih =>
      intro f d d' h j hj
      rw [fatSetCopies] at h
      cases hwrite : fat32IoWrite fs.dev (add32 lba (mul32 f fs.sectorsPerFat)) sec d with
      | mk o d₁ =>
          rw [hwrite] at h
          cases o with
          | none => simp at h
          | some =>
              obtain ⟨hw, hserves, rfl⟩ := fat32IoWrite_some hwrite
              cases j with
              | zero => exact ⟨hw, hserves⟩
              | succ j =>
                  have hrest := ih h j (by omega)
                  simpa [Nat.add_assoc, Nat.add_comm 1] using hrest

/-- `fat_set` where it is served. -/
theorem SetServed.run (h : SetServed fs k n) :
    fatSet fs k v ⟨s, n⟩ = (some (), ⟨setCopies fs s k v, n + 1 + fs.fatCount⟩) := by
  have hread : fat32IoRead fs.dev (fatLba fs k) ⟨s, n⟩
      = (some (s (fatLba fs k)), (⟨s, n⟩ : Disk).tick 1) := BlockDev.read_ok h.read
  rw [fatSet, hread]
  simp only
  rw [fatSetCopies_served fun j hj => by simpa [Disk.tick] using h.copies j hj]
  simp only [Nat.zero_add, Disk.sectors_tick, Disk.requests_tick]
  rfl

/-- `fat_set` succeeds only so. -/
theorem SetServed.of_run {d' : Disk} (h : fatSet fs k v ⟨s, n⟩ = (some (), d')) :
    SetServed fs k n := by
  unfold fatSet at h
  split at h
  · simp at h
  · rename_i sec d₁ hread
    obtain ⟨hserves, rfl, rfl⟩ := fat32IoRead_some hread
    exact ⟨hserves, fun f hf => by simpa [Disk.tick] using served_of_fatSetCopies h f hf⟩

/-! ## The scan -/

/-- Cluster `c` is read as free in a scan whose first read is request `n`. -/
def ScansFree (fs : Fat32Fs) (n : Nat) (s : Nat → Mem) (c : Nat) : Prop :=
  fs.dev.Serves (fatLba fs c) (n + (c - 2)) ∧ fatEntry fs s c = 0

/-- From request `n` on, `alloc_cluster` returns cluster `c`. -/
structure Allocates (fs : Fat32Fs) (n : Nat) (s : Nat → Mem) (c : Nat) : Prop where
  two_le : 2 ≤ c
  lt : c < add32 fs.totalClusters 2
  free : ScansFree fs n s c
  first : ∀ j, 2 ≤ j → j < c → ¬ ScansFree fs n s j
  marks : SetServed fs c (n + (c - 2) + 1)

/-- `fat_get` reads 0 exactly where its read is served and the entry is 0. -/
theorem fatGet_scan {c : Nat} (hn : n + (c - 2) = m) :
    ((fatGet fs c ⟨s, m⟩).1 = 0 ↔ ScansFree fs n s c) ∧ (fatGet fs c ⟨s, m⟩).2 = ⟨s, m + 1⟩ := by
  subst hn
  unfold fatGet fat32IoRead
  by_cases hserves : fs.dev.Serves (fatLba fs c) (n + (c - 2))
  · rw [BlockDev.read_ok hserves]
    exact ⟨⟨fun h => ⟨hserves, h⟩, fun h => h.2⟩, rfl⟩
  · rw [BlockDev.read_fail hserves]
    exact ⟨⟨fun h => absurd h (show fat32Eoc ≠ 0 by decide), fun h => absurd h.1 hserves⟩, rfl⟩

/-- The scan from cluster `c` on, when no earlier one was read as free. -/
theorem allocClusterFrom_scan : ∀ {rounds c : Nat}, 2 ≤ c → c + rounds = add32 fs.totalClusters 2 →
    (∀ j, 2 ≤ j → j < c → ¬ ScansFree fs n s j) →
    (∃ k, Allocates fs n s k ∧ allocClusterFrom fs rounds c ⟨s, n + (c - 2)⟩
      = (some k, ⟨setCopies fs s k fat32Eoc, n + k + fs.fatCount⟩)) ∨
    ((∀ k, ¬ Allocates fs n s k) ∧ (allocClusterFrom fs rounds c ⟨s, n + (c - 2)⟩).1 = none) := by
  intro rounds
  induction rounds with
  | zero =>
      intro c h2 hend hnone
      exact Or.inr ⟨fun k hk => hnone k hk.two_le (by have := hk.lt; omega) hk.free, rfl⟩
  | succ rounds ih =>
      intro c h2 hend hnone
      obtain ⟨hzero, hdisk⟩ := @fatGet_scan fs n _ s c rfl
      rw [allocClusterFrom]
      cases hget : fatGet fs c ⟨s, n + (c - 2)⟩ with
      | mk v d =>
          rw [hget] at hzero hdisk
          simp only at hzero hdisk
          subst hdisk
          simp only
          by_cases hfree : ScansFree fs n s c
          · rw [if_pos (hzero.mpr hfree)]
            by_cases hset : SetServed fs c (n + (c - 2) + 1)
            · refine Or.inl ⟨c, ⟨h2, by omega, hfree, hnone, hset⟩, ?_⟩
              rw [hset.run]
              simp only
              congr 2
              omega
            · refine Or.inr ⟨fun k hk => ?_, ?_⟩
              · -- a scan that takes a cluster takes the first one that it reads as free
                rcases Nat.lt_trichotomy k c with hlt | rfl | hlt
                · exact hnone k hk.two_le hlt hk.free
                · exact hset hk.marks
                · exact hk.first c h2 hlt hfree
              · cases hrun : fatSet fs c fat32Eoc ⟨s, n + (c - 2) + 1⟩ with
                | mk o d =>
                    cases o with
                    | none => rfl
                    | some => exact absurd (SetServed.of_run hrun) hset
          · rw [if_neg fun hv => hfree (hzero.mp hv)]
            have hreq : n + (c - 2) + 1 = n + (c + 1 - 2) := by omega
            rw [hreq]
            refine ih (by omega) (by omega) fun j hj2 hj => ?_
            rcases Nat.lt_or_ge j c with hlt | hge
            · exact hnone j hj2 hlt
            · rwa [show j = c by omega]

/-- `alloc_cluster` on any volume. -/
theorem allocCluster_scan :
    (∃ k, Allocates fs n s k ∧
      allocCluster fs ⟨s, n⟩ = (some k, ⟨setCopies fs s k fat32Eoc, n + k + fs.fatCount⟩)) ∨
    ((∀ k, ¬ Allocates fs n s k) ∧ (allocCluster fs ⟨s, n⟩).1 = none) := by
  rcases Nat.lt_or_ge (add32 fs.totalClusters 2) 2 with hwrap | h2
  · refine Or.inr ⟨fun k hk => ?_, ?_⟩
    · have := hk.two_le
      have := hk.lt
      omega
    · rw [allocCluster, show add32 fs.totalClusters 2 - 2 = 0 by omega, allocClusterFrom]
  · rw [allocCluster]
    exact @allocClusterFrom_scan fs n s _ 2 (le_refl _) (by omega) fun j _ _ => by omega

end Steps

/-! ## The calls that copy -/

/-- The search of `fat32_write_file` ends with an entry to fill, on disk `d`: the
sectors and the number of requests with which it gets to `alloc_cluster`. -/
inductive ToAlloc (fs : Fat32Fs) (name83 : List UInt8) (d : Disk) : (Nat → Mem) → Nat → Prop
  /-- No entry is found, or its sector is not read again; there is a free slot. -/
  | fresh : ¬ (fs.dev.Serves (rootLba fs) (d.requests + 1) ∧
        findEntryFrom (d.sectors (rootLba fs)) name83 rootEntries 0 ≠ none) →
      freeSlotFrom (d.sectors (rootLba fs)) rootEntries 0 ≠ none →
      ToAlloc fs name83 d d.sectors (d.requests + 2)
  /-- The entry found has no cluster. -/
  | empty {off : Nat} : fs.dev.Serves (rootLba fs) (d.requests + 1) →
      findEntryFrom (d.sectors (rootLba fs)) name83 rootEntries 0 = some off →
      entryCluster (d.sectors (rootLba fs)) off < 2 →
      ToAlloc fs name83 d d.sectors (d.requests + 2)
  /-- The cluster of the entry found is freed. -/
  | freed {off : Nat} : fs.dev.Serves (rootLba fs) (d.requests + 1) →
      findEntryFrom (d.sectors (rootLba fs)) name83 rootEntries 0 = some off →
      2 ≤ entryCluster (d.sectors (rootLba fs)) off →
      SetServed fs (entryCluster (d.sectors (rootLba fs)) off) (d.requests + 2) →
      ToAlloc fs name83 d (setCopies fs d.sectors (entryCluster (d.sectors (rootLba fs)) off) 0)
        (d.requests + 3 + fs.fatCount)

/-- None of the checks and requests of `fat32_write_file` stops it before it
copies the data, and it takes cluster `c` for them. -/
structure CopiesData (fs : Fat32Fs) (name data : List UInt8) (d : Disk) (c : Nat) : Prop where
  admitted : data.length ≤ mul32 512 fs.sectorsPerCluster
  root : fs.dev.Serves (rootLba fs) d.requests
  writable : fs.dev.writable = true
  entry : ∃ name83 s n, makeName83 name = some name83 ∧ ToAlloc fs name83 d s n ∧
    Allocates fs n s c ∧ fs.dev.Serves (rootLba fs) (n + c + fs.fatCount)

section Calls

variable {fs : Fat32Fs} {name data name83 : List UInt8} {d : Disk}

/-- Up to `alloc_cluster`. -/
theorem writeTarget_toAlloc {off : Nat} {sec : Mem} {d' : Disk}
    (h : writeTarget fs name data d = (some (name83, off, sec), d')) :
    data.length ≤ mul32 512 fs.sectorsPerCluster ∧ fs.dev.Serves (rootLba fs) d.requests ∧
      makeName83 name = some name83 ∧ ToAlloc fs name83 d d'.sectors d'.requests := by
  unfold writeTarget at h
  split at h
  · simp at h
  rename_i hlen
  split at h
  · simp at h
  rename_i name83' hname
  split at h
  · simp at h
  rename_i sec' d₁ hread
  obtain ⟨hroot, rfl, rfl⟩ := fat32IoRead_some hread
  refine ⟨Nat.not_lt.mp hlen, hroot, ?_⟩
  split at h
  · rename_i lba off' d₂ hfind
    obtain ⟨hserves, -, hentry, rfl⟩ := findRootEntry_some hfind
    simp only [Disk.requests_tick, Disk.sectors_tick] at hserves hentry h
    split at h
    · rename_i hcluster
      split at h
      · simp at h
      · rename_i u d₃ hset
        simp only [Prod.mk.injEq, Option.some.injEq] at h
        obtain ⟨⟨rfl, -, -⟩, rfl⟩ := h
        have hset : fatSet fs (entryCluster (d.sectors (rootLba fs)) off') 0
            ⟨d.sectors, d.requests + 2⟩ = (some (), d₃) := hset
        have hserved := SetServed.of_run hset
        rw [hserved.run] at hset
        obtain ⟨-, rfl⟩ := Prod.mk.inj hset
        exact ⟨hname, .freed hserves hentry hcluster hserved⟩
    · rename_i hcluster
      simp only [Prod.mk.injEq, Option.some.injEq] at h
      obtain ⟨⟨rfl, -, -⟩, rfl⟩ := h
      exact ⟨hname, .empty hserves hentry (Nat.not_le.mp hcluster)⟩
  · rename_i d₂ hfind
    obtain ⟨hmap, rfl⟩ := Prod.mk.inj h
    obtain ⟨off', hslot, heq⟩ := Option.map_eq_some_iff.mp hmap
    obtain ⟨rfl, -, -⟩ := Prod.mk.inj heq
    refine ⟨hname, ?_⟩
    -- a search that finds nothing reads one sector all the same
    have hnone : ¬ (fs.dev.Serves (rootLba fs) (d.requests + 1) ∧
        findEntryFrom (d.sectors (rootLba fs)) name83' rootEntries 0 ≠ none) ∧ d₂ = d.tick 2 := by
      unfold findRootEntry fat32IoRead at hfind
      by_cases hserves : fs.dev.Serves (rootLba fs) (d.tick 1).requests
      · rw [BlockDev.read_ok hserves] at hfind
        simp only [Prod.mk.injEq, Option.map_eq_none_iff] at hfind
        exact ⟨fun h => h.2 hfind.1, hfind.2.symm⟩
      · rw [BlockDev.read_fail hserves] at hfind
        exact ⟨fun h => hserves h.1, (Prod.mk.inj hfind).2.symm⟩
    obtain ⟨hmissing, rfl⟩ := hnone
    exact .fresh hmissing (by rw [hslot]; exact Option.some_ne_none _)

/-- Conversely. -/
theorem ToAlloc.writeTarget {s : Nat → Mem} {n : Nat} (h : ToAlloc fs name83 d s n)
    (hlen : data.length ≤ mul32 512 fs.sectorsPerCluster)
    (hroot : fs.dev.Serves (rootLba fs) d.requests) (hname : makeName83 name = some name83) :
    ∃ off sec, writeTarget fs name data d = (some (name83, off, sec), ⟨s, n⟩) := by
  have hread : fat32IoRead fs.dev (rootLba fs) d = (some (d.sectors (rootLba fs)), d.tick 1) :=
    BlockDev.read_ok hroot
  cases h with
  | fresh hmissing hslot =>
      obtain ⟨off, hoff⟩ := Option.ne_none_iff_exists'.mp hslot
      have hfind : findRootEntry fs name83 (d.tick 1) = (none, d.tick 2) := by
        unfold findRootEntry fat32IoRead
        by_cases hserves : fs.dev.Serves (rootLba fs) (d.tick 1).requests
        · rw [BlockDev.read_ok hserves]
          have hnone := not_not.mp fun hne => hmissing ⟨hserves, hne⟩
          simp only [Disk.sectors_tick, hnone, Option.map_none, Disk.tick_tick]
        · rw [BlockDev.read_fail hserves]
          simp only [Disk.tick_tick]
      refine ⟨off, d.sectors (rootLba fs), ?_⟩
      rw [RoninOS.Fs.writeTarget, if_neg (by omega), hname]
      simp only [hread, hfind, hoff, Option.map_some]
      rfl
  | @empty off hserves hentry hcluster =>
      have hfind := findRootEntry_found (d := d.tick 1) hserves hentry
      refine ⟨off, d.sectors (rootLba fs), ?_⟩
      rw [RoninOS.Fs.writeTarget, if_neg (by omega), hname]
      simp only [hread, hfind]
      rw [if_neg (by omega)]
      rfl
  | @freed off hserves hentry hcluster hserved =>
      have hfind := findRootEntry_found (d := d.tick 1) hserves hentry
      have hset : fatSet fs (entryCluster (d.sectors (rootLba fs)) off) 0 ((d.tick 1).tick 1)
          = (some (), _) := @SetServed.run fs _ 0 _ d.sectors hserved
      refine ⟨off, d.sectors (rootLba fs), ?_⟩
      rw [RoninOS.Fs.writeTarget, if_neg (by omega), hname]
      simp only [hread, hfind, if_pos hcluster, hset]
      rw [Disk.requests_tick, show d.requests + 1 + 1 + 1 = d.requests + 3 from rfl]

/-- A call that copies goes on with the write of the data. -/
theorem CopiesData.run {c : Nat} (h : CopiesData fs name data d c) : ∃ d₁,
    (fat32WriteFile fs name data d = orFail
      (fat32IoWrite fs.dev (clusterToLba fs c) (stBytes zeroSector 0 data) d₁)
      "write file data failed" fun _ d => (.ok (), d)) ∧
    opAllocates fs (.write name data) d = some c := by
  obtain ⟨name83, s, n, hname, htarget, halloc, hdir⟩ := h.entry
  obtain ⟨off, sec, hrun⟩ := htarget.writeTarget h.admitted h.root hname
  obtain ⟨k, hk, hcluster⟩ | ⟨hnone, -⟩ := @allocCluster_scan fs n s
  · -- a scan takes one cluster only
    obtain rfl : k = c := by
      rcases Nat.lt_trichotomy k c with hlt | heq | hlt
      · exact absurd hk.free (halloc.first k hk.two_le hlt)
      · exact heq
      · exact absurd halloc.free (hk.first c halloc.two_le hlt)
    obtain ⟨name83', off', sec', d', hrun', hfile⟩ | ⟨msg, d', hrun', -, -⟩ :=
      fat32WriteFile_branches fs name data d
    · rw [hrun] at hrun'
      simp only [Prod.mk.injEq, Option.some.injEq] at hrun'
      obtain ⟨⟨rfl, rfl, rfl⟩, rfl⟩ := hrun'
      refine ⟨((⟨setCopies fs s k fat32Eoc, n + k + fs.fatCount⟩ : Disk).put (rootLba fs)
        (putEntry sec off name83 k data.length)).tick 1, ?_, ?_⟩
      · rw [hfile, writeEntry, hcluster, orFail_some, fat32IoWrite_served h.writable hdir,
          orFail_some]
      · rw [opAllocates, hrun]
        simp only [hcluster]
    · rw [hrun] at hrun'
      simp at hrun'
  · exact absurd halloc (hnone c)

/-- A call that succeeds, or fails with the write of the data, copied them. -/
theorem copiesData_of_run {r : Except String Unit} {d' : Disk}
    (h : fat32WriteFile fs name data d = (r, d'))
    (hr : r = .ok () ∨ r = .error "write file data failed") : ∃ c, CopiesData fs name data d c := by
  obtain ⟨name83, off, sec, ⟨s, n⟩, hrun, hfile⟩ | ⟨msg, d₁, -, hfile, hmsg⟩ :=
    fat32WriteFile_branches fs name data d
  · obtain ⟨hlen, hroot, hname, htarget⟩ := writeTarget_toAlloc hrun
    rw [hfile, writeEntry] at h
    obtain ⟨c, hc, hcluster⟩ | ⟨-, hnone⟩ := @allocCluster_scan fs n s
    · rw [hcluster, orFail_some] at h
      cases hwrite : fat32IoWrite fs.dev (rootLba fs) (putEntry sec off name83 c data.length)
          ⟨setCopies fs s c fat32Eoc, n + c + fs.fatCount⟩ with
      | mk o d₂ =>
          cases o with
          | none =>
              rw [hwrite, orFail_none] at h
              obtain ⟨rfl, -⟩ := Prod.mk.inj h
              rcases hr with hr | hr <;> simp at hr
          | some =>
              obtain ⟨hw, hserves, -⟩ := fat32IoWrite_some hwrite
              exact ⟨c, hlen, hroot, hw, name83, s, n, hname, htarget, hc, hserves⟩
    · cases hcluster : allocCluster fs ⟨s, n⟩ with
      | mk o d₂ =>
          rw [hcluster] at hnone h
          simp only at hnone
          rw [hnone, orFail_none] at h
          obtain ⟨rfl, -⟩ := Prod.mk.inj h
          rcases hr with hr | hr <;> simp at hr
  · rw [hfile] at h
    obtain ⟨rfl, -⟩ := Prod.mk.inj h
    rcases hr with hr | hr
    · simp at hr
    · exact absurd (Except.error.inj hr) hmsg

end Calls

/-! ## The data on the device -/

/-- What is asked of a call: `fat32_write_file` copies at most 512 bytes, which it
has done where it succeeds or fails with the last write; and where it succeeds,
every byte is in a sector of the cluster it allocated. -/
structure WritesWhole (fs : Fat32Fs) (name data : List UInt8) (d : Disk) : Prop where
  copy : ∀ r d', fat32WriteFile fs name data d = (r, d') →
    r = .ok () ∨ r = .error "write file data failed" → data.length ≤ 512
  stored : ∀ d', fat32WriteFile fs name data d = (.ok (), d') →
    ∃ c, opAllocates fs (.write name data) d = some c ∧ ∀ (b : Nat) (h : b < data.length),
      b / 512 < fs.sectorsPerCluster ∧ d'.sectors (clusterToLba fs c + b / 512) (b % 512) = data[b]

/-- A call that copies has at most 512 bytes then. -/
theorem WritesWhole.fits {fs : Fat32Fs} {name data : List UInt8} {d : Disk} {c : Nat}
    (hwhole : WritesWhole fs name data d) (hcopies : CopiesData fs name data d c) :
    data.length ≤ 512 := by
  obtain ⟨d₁, hrun, -⟩ := hcopies.run
  cases hwrite : fat32IoWrite fs.dev (clusterToLba fs c) (stBytes zeroSector 0 data) d₁ with
  | mk o d₂ =>
      rw [hwrite] at hrun
      cases o with
      | none => exact hwhole.copy _ _ hrun (Or.inr rfl)
      | some => exact hwhole.copy _ _ hrun (Or.inl rfl)

/-- On every volume, the data is whole exactly where a call that gets as far as
the copy has at most 512 bytes. -/
theorem write_whole_iff (fs : Fat32Fs) (name data : List UInt8) (d : Disk) :
    WritesWhole fs name data d ↔ ∀ c, CopiesData fs name data d c → data.length ≤ 512 := by
  constructor
  · intro hwhole c hcopies
    exact hwhole.fits hcopies
  · intro hfits
    refine ⟨fun r d' hrun hr => ?_, fun d' hrun => ?_⟩
    · obtain ⟨c, hcopies⟩ := copiesData_of_run hrun hr
      exact hfits c hcopies
    · obtain ⟨c, hcopies⟩ := copiesData_of_run hrun (Or.inl rfl)
      obtain ⟨d₁, hfile, hcluster⟩ := hcopies.run
      refine ⟨c, hcluster, fun b hb => ?_⟩
      have hlen := hfits c hcopies
      have hadmitted := hcopies.admitted
      have hspc : 0 < fs.sectorsPerCluster := by
        rcases Nat.eq_zero_or_pos fs.sectorsPerCluster with h0 | hpos
        · rw [h0] at hadmitted
          simp [mul32] at hadmitted
          simp [hadmitted] at hb
        · exact hpos
      refine ⟨by omega, ?_⟩
      rw [hrun] at hfile
      obtain ⟨_, d₂, hwrite, heq⟩ := orFail_ok hfile.symm
      obtain ⟨-, -, rfl⟩ := fat32IoWrite_some hwrite
      obtain rfl := (Prod.mk.inj heq).2
      have hb0 : b / 512 = 0 := by omega
      rw [hb0, Nat.add_zero, Nat.mod_eq_of_lt (by omega), Disk.sectors_tick, Disk.sectors_put,
        Function.update_self, stBytes, if_pos (by omega), Nat.sub_zero]
      exact List.getD_eq_getElem data 0 hb

/-- A volume with two sectors in a cluster. -/
def wideClusterDisk : Disk :=
  ⟨fun lba => if lba = 0 then Function.update (bootSector 256 2) 13 2
    else if lba = 32 ∨ lba = 34 then fatHeadSector
    else zeroSector, 0⟩

/-- `fat32_mount` accepts it, and 513 bytes pass the size check. -/
theorem write_overruns : ∃ fs d, fat32Mount exampleDev wideClusterDisk = some (.ok fs, d) ∧
    ¬ WritesWhole fs (ascii "A") (List.replicate 513 65) d := by
  refine ⟨bootVolume exampleDev (wideClusterDisk.sectors 0), wideClusterDisk.tick 1, ?_,
    fun hwhole => ?_⟩
  · have houtcome := mountSector_outcome exampleDev (wideClusterDisk.sectors 0)
    have hchecked : BootChecked (wideClusterDisk.sectors 0) :=
      ⟨by decide +kernel, by decide +kernel, by decide +kernel, by decide +kernel⟩
    rw [fat32Mount, if_neg (by decide), fat32IoRead_works (fun _ => rfl) (by decide)]
    simp only
    generalize mountSector exampleDev (wideClusterDisk.sectors 0) = r at houtcome
    cases houtcome with
    | rejected hno => exact absurd hchecked hno
    | faulted _ hzero => exact absurd hzero (by decide +kernel)
    | empty _ hlt => exact absurd hlt (by decide +kernel)
    | mounted _ _ _ => simp only [Option.map_some]
  · -- the FAT has its head only, so cluster 3 is taken
    have hcopies : CopiesData (bootVolume exampleDev (wideClusterDisk.sectors 0)) (ascii "A")
        (List.replicate 513 65) (wideClusterDisk.tick 1) 3 := by
      refine ⟨?_, by decide +kernel, rfl, ascii "A          ", _, _, by decide,
        .fresh (by decide +kernel) (by decide +kernel),
        ⟨by decide, by decide +kernel, ⟨by decide +kernel, by decide +kernel⟩, fun j h2 hj => ?_,
          ⟨by decide +kernel, by decide +kernel⟩⟩, by decide +kernel⟩
      · rw [List.length_replicate]
        decide +kernel
      · obtain rfl : j = 2 := by omega
        exact fun h => absurd h.2 (by decide +kernel)
    have hlen := hwhole.fits hcopies
    rw [List.length_replicate] at hlen
    omega

end RoninOS.Fs
