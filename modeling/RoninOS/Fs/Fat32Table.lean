/-
RoninOS.Fs.Fat32Table — the entries of the file allocation table: `fat_get`,
`fat_set` and `alloc_cluster` on a device whose requests may fail.

`fat_set` reads the entry's sector and writes it to the first FAT and then to
the second, so a failure leaves the table as it was or with the first FAT ahead
of the second. `alloc_cluster` takes the first cluster that reads as free; a
read that fails skips its cluster.

The FAT may lack the entries of the last two clusters. `fat_get` reads those
from the second FAT, where `FatOk` keeps them from reading as free.
-/
import RoninOS.Fs.Fat32Layout

namespace RoninOS.Fs

open RoninOS.Lib

/-! ## Entries -/

/-- The entry of a cluster, as `fat_get` reads it. -/
def fatEntry (fs : Fat32Fs) (s : Nat → Mem) (cluster : Nat) : Nat :=
  ld32 (s (fatLba fs cluster)) (fatOffset cluster) &&& 0x0FFFFFFF

/-- The sectors after `fat_set` has written the first FAT. -/
def setFirst (fs : Fat32Fs) (s : Nat → Mem) (cluster val : Nat) : Nat → Mem :=
  Function.update s (fatLba fs cluster)
    (st32 (s (fatLba fs cluster)) (fatOffset cluster) val)

/-- The sectors after `fat_set` has written both FATs. -/
def setBoth (fs : Fat32Fs) (s : Nat → Mem) (cluster val : Nat) : Nat → Mem :=
  Function.update (setFirst fs s cluster val) (fatLba fs cluster + fs.sectorsPerFat)
    (st32 (s (fatLba fs cluster)) (fatOffset cluster) val)

/-- The entries of clusters 0 to 2 and those outside the first FAT never read as
free. -/
structure FatOk (fs : Fat32Fs) (s : Nat → Mem) : Prop where
  head : ∀ c < 3, fatEntry fs s c ≠ 0
  tail : ∀ c, 128 * fs.sectorsPerFat ≤ c → c < fs.totalClusters + 2 → fatEntry fs s c ≠ 0

theorem fatOffset_eq {c : Nat} (hc : c < 2 ^ 30) : fatOffset c = c % 128 * 4 := by
  unfold fatOffset
  rw [mul32_of_lt (by omega)]
  omega

section Entries

variable {fs : Fat32Fs} (hg : Geometry fs) {s : Nat → Mem} {c c' v : Nat}
include hg

/-- Every cluster number fits the FAT arithmetic. -/
theorem Geometry.cluster_lt (hc : c < fs.totalClusters + 2) : c < 2 ^ 30 := by
  have hlt := hg.count_lt
  have htotal := hg.total
  have hstart := hg.dataStart
  omega

theorem Geometry.fatLba_eq (hc : c < fs.totalClusters + 2) : fatLba fs c = 32 + c / 128 := by
  have hlt := hg.cluster_lt hc
  unfold fatLba
  rw [hg.fatStart, mul32_of_lt (by omega), add32_of_lt (by omega)]
  omega

theorem Geometry.fatLba_lt (hc : c < fs.totalClusters + 2) :
    fatLba fs c < fs.dev.sectorCount := by
  have hstart := hg.dataStart
  have htotal := hg.total
  have hpos := hg.fat_pos
  have hcovers := hg.covers
  have hclusters := hg.clusters_pos
  rw [hg.fatLba_eq hc]
  omega

/-- A cluster of the first FAT is in range of the device. -/
theorem Geometry.fatEntry_eq (hc : c < fs.totalClusters + 2) :
    fatEntry fs s c = ld32 (s (32 + c / 128)) (c % 128 * 4) &&& 0x0FFFFFFF := by
  rw [fatEntry, hg.fatLba_eq hc, fatOffset_eq (hg.cluster_lt hc)]

omit hg in
/-- Entry words of a sector are disjoint. -/
theorem ld32_entry {m : Mem} (hv : v < 2 ^ 32) (hoff : c / 128 = c' / 128) :
    ld32 (st32 m (c % 128 * 4) v) (c' % 128 * 4) =
      if c' = c then v else ld32 m (c' % 128 * 4) := by
  by_cases heq : c' = c
  · rw [if_pos heq, heq, ld32_st32_self _ _ hv]
  · rw [if_neg heq, ld32_st32_of_disjoint _ _ (by omega)]

/-- `setFirst` changes one entry. -/
theorem fatEntry_setFirst (hc : c < 128 * fs.sectorsPerFat) (hc2 : c < fs.totalClusters + 2)
    (hc' : c' < fs.totalClusters + 2) (hv : v < 2 ^ 32) :
    fatEntry fs (setFirst fs s c v) c' =
      if c' = c then v &&& 0x0FFFFFFF else fatEntry fs s c' := by
  rw [hg.fatEntry_eq hc', hg.fatEntry_eq hc', setFirst, hg.fatLba_eq hc2,
    fatOffset_eq (hg.cluster_lt hc2)]
  by_cases hsec : c / 128 = c' / 128
  · rw [← hsec, Function.update_self, ld32_entry hv hsec]
    split <;> rfl
  · rw [Function.update_of_ne (by omega), if_neg (by rintro rfl; exact hsec rfl)]

/-- `setBoth` changes one entry of the first FAT. -/
theorem fatEntry_setBoth (hc : c < 128 * fs.sectorsPerFat) (hc2 : c < fs.totalClusters + 2)
    (hc' : c' < 128 * fs.sectorsPerFat) (hc2' : c' < fs.totalClusters + 2) (hv : v < 2 ^ 32) :
    fatEntry fs (setBoth fs s c v) c' =
      if c' = c then v &&& 0x0FFFFFFF else fatEntry fs s c' := by
  rw [← fatEntry_setFirst hg hc hc2 hc2' hv, fatEntry, fatEntry, setBoth,
    Function.update_of_ne]
  rw [hg.fatLba_eq hc2, hg.fatLba_eq hc2']
  omega

/-- The entries outside the first FAT change only to those of clusters 0 and 1. -/
theorem fatEntry_setBoth_tail (hc : c < 128 * fs.sectorsPerFat) (hc2 : c < fs.totalClusters + 2)
    (hc' : 128 * fs.sectorsPerFat ≤ c') (hc2' : c' < fs.totalClusters + 2) :
    fatEntry fs (setBoth fs s c v) c' = fatEntry fs s c' ∨
      ∃ k < 2, fatEntry fs (setBoth fs s c v) c' = fatEntry fs (setFirst fs s c v) k := by
  have hcovers := hg.covers
  have hclusters := hg.clusters_pos
  by_cases hsec : c / 128 = 0
  · refine Or.inr ⟨c' - 128 * fs.sectorsPerFat, by omega, ?_⟩
    rw [hg.fatEntry_eq hc2', hg.fatEntry_eq (by omega), setBoth, setFirst, hg.fatLba_eq hc2,
      fatOffset_eq (hg.cluster_lt hc2)]
    have hlba : 32 + c' / 128 = 32 + c / 128 + fs.sectorsPerFat := by omega
    have hoff : c' % 128 = (c' - 128 * fs.sectorsPerFat) % 128 := by omega
    have hlow : 32 + (c' - 128 * fs.sectorsPerFat) / 128 = 32 + c / 128 := by omega
    rw [hlba, hoff, hlow, Function.update_self, Function.update_self]
  · left
    rw [hg.fatEntry_eq hc2', hg.fatEntry_eq hc2', setBoth, setFirst, hg.fatLba_eq hc2,
      Function.update_of_ne (by omega), Function.update_of_ne (by omega)]

/-- `fat_set` on a data cluster keeps the reserved entries in use. -/
theorem FatOk.setFirst (hok : FatOk fs s) (h3 : 3 ≤ c) (hc : c < 128 * fs.sectorsPerFat)
    (hc2 : c < fs.totalClusters + 2) (hv : v < 2 ^ 32) : FatOk fs (setFirst fs s c v) := by
  have hclusters := hg.clusters_pos
  refine ⟨fun k hk => ?_, fun k h1 h2 => ?_⟩
  · rw [fatEntry_setFirst hg hc hc2 (by omega) hv, if_neg (by omega)]
    exact hok.head k hk
  · rw [fatEntry_setFirst hg hc hc2 h2 hv, if_neg (by omega)]
    exact hok.tail k h1 h2

theorem FatOk.setBoth (hok : FatOk fs s) (h3 : 3 ≤ c) (hc : c < 128 * fs.sectorsPerFat)
    (hc2 : c < fs.totalClusters + 2) (hv : v < 2 ^ 32) : FatOk fs (setBoth fs s c v) := by
  have hclusters := hg.clusters_pos
  have hpos := hg.fat_pos
  refine ⟨fun k hk => ?_, fun k h1 h2 => ?_⟩
  · rw [fatEntry_setBoth hg hc hc2 (by omega) (by omega) hv, if_neg (by omega)]
    exact hok.head k hk
  · rcases fatEntry_setBoth_tail hg (s := s) (v := v) hc hc2 h1 h2 with heq | ⟨j, hj, heq⟩
    · rw [heq]
      exact hok.tail k h1 h2
    · rw [heq]
      exact (hok.setFirst hg h3 hc hc2 hv).head j (by omega)

/-- The table leaves the data area alone. -/
theorem setFirst_data {lba : Nat} (hc : c < 128 * fs.sectorsPerFat)
    (hc2 : c < fs.totalClusters + 2) (hlba : fs.dataStartLba ≤ lba) :
    setFirst fs s c v lba = s lba := by
  have hstart := hg.dataStart
  have hpos := hg.fat_pos
  rw [setFirst, hg.fatLba_eq hc2, Function.update_of_ne (by omega)]

theorem setBoth_data {lba : Nat} (hc : c < 128 * fs.sectorsPerFat)
    (hc2 : c < fs.totalClusters + 2) (hlba : fs.dataStartLba ≤ lba) :
    setBoth fs s c v lba = s lba := by
  have hstart := hg.dataStart
  rw [setBoth, hg.fatLba_eq hc2, Function.update_of_ne (by omega),
    setFirst_data hg hc hc2 hlba]

/-- Entries do not depend on the data area. -/
theorem fatEntry_data {lba : Nat} {m : Mem} (hc : c < fs.totalClusters + 2)
    (hlba : fs.dataStartLba ≤ lba) :
    fatEntry fs (Function.update s lba m) c = fatEntry fs s c := by
  have hstart := hg.dataStart
  have hcovers := hg.covers
  have hpos := hg.fat_pos
  rw [hg.fatEntry_eq hc, hg.fatEntry_eq hc, Function.update_of_ne (by omega)]

theorem FatOk.data {lba : Nat} {m : Mem} (hok : FatOk fs s) (hlba : fs.dataStartLba ≤ lba) :
    FatOk fs (Function.update s lba m) := by
  have hclusters := hg.clusters_pos
  refine ⟨fun k hk => ?_, fun k h1 h2 => ?_⟩
  · rw [fatEntry_data hg (by omega) hlba]
    exact hok.head k hk
  · rw [fatEntry_data hg h2 hlba]
    exact hok.tail k h1 h2

/-! ## Requests of the volume -/

omit hg in
/-- A read in range. -/
theorem read_eq {lba : Nat} (hlba : lba < fs.dev.sectorCount) (d : Disk) :
    fat32IoRead fs.dev lba d =
      (if fs.dev.fails d.requests then none else some (d.sectors lba), d.tick 1) := by
  unfold fat32IoRead
  by_cases hf : fs.dev.fails d.requests = true
  · rw [BlockDev.read_fail (by rw [BlockDev.serves_iff hlba, hf]; simp), if_pos hf]
  · rw [BlockDev.read_ok ((BlockDev.serves_iff hlba).mpr (by simpa using hf)), if_neg hf]

/-- A write in range. -/
theorem Geometry.write_eq {lba : Nat} (hlba : lba < fs.dev.sectorCount) (sec : Mem) (d : Disk) :
    fat32IoWrite fs.dev lba sec d =
      if fs.dev.fails d.requests then (none, d.tick 1)
      else (some (), ⟨Function.update d.sectors lba sec, d.requests + 1⟩) := by
  rw [fat32IoWrite, if_pos hg.writable]
  by_cases hf : fs.dev.fails d.requests = true
  · rw [BlockDev.write_fail (by rw [BlockDev.serves_iff hlba, hf]; simp), if_pos hf]
  · rw [BlockDev.write_ok ((BlockDev.serves_iff hlba).mpr (by simpa using hf)), if_neg hf]
    rfl

/-- `fat_get`. -/
theorem Geometry.fatGet_eq (hc : c < fs.totalClusters + 2) (d : Disk) :
    fatGet fs c d =
      (if fs.dev.fails d.requests then fat32Eoc else fatEntry fs d.sectors c, d.tick 1) := by
  rw [fatGet, read_eq (hg.fatLba_lt hc)]
  by_cases hf : fs.dev.fails d.requests = true
  · simp only [hf, if_true]
  · simp only [hf, Bool.false_eq_true, if_false, fatEntry]

omit hg in
theorem fatLba_lt_two_pow (hstart : fs.fatStartLba = 32) (c : Nat) : fatLba fs c < 2 ^ 24 := by
  have hmul := mul32_lt c 4
  unfold fatLba
  rw [hstart, add32_of_lt (by omega)]
  omega

/-- `fat_set` for any cluster number: one read, then one write for each copy. -/
theorem Geometry.fatSet_serves (d : Disk) :
    fatSet fs c v d =
      if ¬ fs.dev.Serves (fatLba fs c) d.requests then (none, d.tick 1)
      else if ¬ fs.dev.Serves (fatLba fs c) (d.requests + 1) then (none, d.tick 2)
      else if ¬ fs.dev.Serves (fatLba fs c + fs.sectorsPerFat) (d.requests + 2) then
        (none, ⟨setFirst fs d.sectors c v, d.requests + 3⟩)
      else (some (), ⟨setBoth fs d.sectors c v, d.requests + 3⟩) := by
  have hlt := hg.count_lt
  have hstart := hg.dataStart
  have htotal := hg.total
  have hlba := fatLba_lt_two_pow hg.fatStart c
  have hcopy0 : add32 (fatLba fs c) (mul32 0 fs.sectorsPerFat) = fatLba fs c := by
    rw [mul32_of_lt (by omega), add32_of_lt (by omega)]
    omega
  have hcopy1 : add32 (fatLba fs c) (mul32 (0 + 1) fs.sectorsPerFat)
      = fatLba fs c + fs.sectorsPerFat := by
    rw [mul32_of_lt (by omega), add32_of_lt (by omega)]
    omega
  rw [fatSet, fat32IoRead]
  by_cases h0 : fs.dev.Serves (fatLba fs c) d.requests
  · rw [BlockDev.read_ok h0, if_neg (not_not.mpr h0)]
    simp only [hg.fatCount, fatSetCopies, hcopy0, hcopy1, fat32IoWrite, if_pos hg.writable]
    by_cases h1 : fs.dev.Serves (fatLba fs c) (d.requests + 1)
    · rw [BlockDev.write_ok h1, if_neg (not_not.mpr h1)]
      by_cases h2 : fs.dev.Serves (fatLba fs c + fs.sectorsPerFat) (d.requests + 2)
      · simp only
        rw [BlockDev.write_ok h2, if_neg (not_not.mpr h2)]
        rfl
      · simp only
        rw [BlockDev.write_fail h2, if_pos h2]
        rfl
    · rw [BlockDev.write_fail h1, if_pos h1]
      rfl
  · rw [BlockDev.read_fail h0, if_pos h0]

/-- `fat_set` on an entry of the first FAT. -/
theorem Geometry.fatSet_eq (hc : c < 128 * fs.sectorsPerFat) (hc2 : c < fs.totalClusters + 2)
    (d : Disk) :
    fatSet fs c v d =
      if fs.dev.fails d.requests then (none, d.tick 1)
      else if fs.dev.fails (d.requests + 1) then (none, d.tick 2)
      else if fs.dev.fails (d.requests + 2) then
        (none, ⟨setFirst fs d.sectors c v, d.requests + 3⟩)
      else (some (), ⟨setBoth fs d.sectors c v, d.requests + 3⟩) := by
  have hstart := hg.dataStart
  have htotal := hg.total
  have heq := hg.fatLba_eq hc2
  have hcopy : fatLba fs c + fs.sectorsPerFat < fs.dev.sectorCount := by omega
  rw [hg.fatSet_serves]
  simp only [BlockDev.serves_iff (hg.fatLba_lt hc2), BlockDev.serves_iff hcopy, Bool.not_eq_false]

end Entries

/-! ## The first free cluster -/

/-- Cluster `c` reads as free in a scan whose first read, of cluster 2, is
request `n`. -/
def ReadsFree (fs : Fat32Fs) (n : Nat) (s : Nat → Mem) (c : Nat) : Prop :=
  fs.dev.fails (n + (c - 2)) = false ∧ fatEntry fs s c = 0

/-- The scan takes cluster `c`. -/
structure FirstFree (fs : Fat32Fs) (n : Nat) (s : Nat → Mem) (c : Nat) : Prop where
  two_le : 2 ≤ c
  lt : c < fs.totalClusters + 2
  free : ReadsFree fs n s c
  first : ∀ k, 2 ≤ k → k < c → ¬ ReadsFree fs n s k

/-- A scan takes one cluster only. -/
theorem FirstFree.unique {fs : Fat32Fs} {n : Nat} {s : Nat → Mem} {c c' : Nat}
    (h : FirstFree fs n s c) (h' : FirstFree fs n s c') : c = c' := by
  rcases Nat.lt_trichotomy c c' with hlt | heq | hlt
  · exact absurd h.free (h'.first c h.two_le hlt)
  · exact heq
  · exact absurd h'.free (h.first c' h'.two_le hlt)

/-- If some cluster reads as free, the scan takes one. -/
theorem exists_firstFree {fs : Fat32Fs} {n : Nat} {s : Nat → Mem} {c : Nat} (h2 : 2 ≤ c)
    (hc : c < fs.totalClusters + 2) (hfree : ReadsFree fs n s c) : ∃ k, FirstFree fs n s k := by
  classical
  have hex : ∃ k, 2 ≤ k ∧ ReadsFree fs n s k := ⟨c, h2, hfree⟩
  have hmin : Nat.find hex ≤ c := Nat.find_min' hex ⟨h2, hfree⟩
  obtain ⟨hk2, hkfree⟩ := Nat.find_spec hex
  exact ⟨Nat.find hex, hk2, by omega, hkfree, fun k h2' hk hread => Nat.find_min hex hk ⟨h2', hread⟩⟩

/-- `alloc_cluster` from its `fat_set` on. -/
def takeCluster (fs : Fat32Fs) (c : Nat) (d : Disk) : Option Nat × Disk :=
  match fatSet fs c fat32Eoc d with
  | (none, d) => (none, d)
  | (some (), d) => (some c, d)

section Alloc

variable {fs : Fat32Fs} (hg : Geometry fs)
include hg

/-- The scan from cluster `c` on, when no earlier one read as free. -/
theorem allocClusterFrom_cases {n : Nat} : ∀ {rounds c : Nat} {d : Disk}, 2 ≤ c →
    c + rounds = fs.totalClusters + 2 → n + (c - 2) = d.requests →
    (∀ k, 2 ≤ k → k < c → ¬ ReadsFree fs n d.sectors k) →
    (∃ k, FirstFree fs n d.sectors k ∧
      allocClusterFrom fs rounds c d = takeCluster fs k ⟨d.sectors, n + (k - 2) + 1⟩) ∨
    ((∀ k, 2 ≤ k → k < fs.totalClusters + 2 → ¬ ReadsFree fs n d.sectors k) ∧
      allocClusterFrom fs rounds c d = (none, ⟨d.sectors, n + fs.totalClusters⟩))
  | 0, c, d, h2, hend, hreq, hnone => by
      refine Or.inr ⟨fun k hk2 hk => hnone k hk2 (by omega), ?_⟩
      rw [allocClusterFrom, show n + fs.totalClusters = d.requests by omega]
  | rounds + 1, c, d, h2, hend, hreq, hnone => by
      have hc : c < fs.totalClusters + 2 := by omega
      rw [allocClusterFrom, hg.fatGet_eq hc]
      by_cases hfree : ReadsFree fs n d.sectors c
      · have hf : fs.dev.fails d.requests = false := hreq ▸ hfree.1
        refine Or.inl ⟨c, ⟨h2, hc, hfree, hnone⟩, ?_⟩
        simp only [hf, Bool.false_eq_true, if_false, hfree.2, if_true]
        rw [hreq]
        rfl
      · have hskip : (if fs.dev.fails d.requests = true then fat32Eoc
            else fatEntry fs d.sectors c) ≠ 0 := by
          split
          · decide
          · rename_i hf
            exact fun h0 => hfree ⟨by rw [hreq]; simpa using hf, h0⟩
        simp only [if_neg hskip]
        refine allocClusterFrom_cases (d := d.tick 1) (by omega) (by omega)
          (by rw [Disk.requests_tick]; omega) fun k hk2 hk => ?_
        by_cases heq : k = c
        · rw [heq]
          exact hfree
        · exact hnone k hk2 (by omega)

/-- `alloc_cluster`: the first cluster that reads as free is taken, or none does. -/
theorem Geometry.allocCluster_scan (d : Disk) :
    (∃ c, FirstFree fs d.requests d.sectors c ∧
      allocCluster fs d = takeCluster fs c ⟨d.sectors, d.requests + (c - 2) + 1⟩) ∨
    ((∀ c, 2 ≤ c → c < fs.totalClusters + 2 → ¬ ReadsFree fs d.requests d.sectors c) ∧
      allocCluster fs d = (none, ⟨d.sectors, d.requests + fs.totalClusters⟩)) := by
  have hlt := hg.count_lt
  have htotal := hg.total
  have hrounds : add32 fs.totalClusters 2 - 2 = fs.totalClusters := by
    rw [add32_of_lt (by omega)]
    omega
  rw [allocCluster, hrounds]
  exact allocClusterFrom_cases hg (le_refl _) (by omega) rfl fun k h2 hk => by omega

/-- Taking a cluster of the first FAT: one read and two writes after its own. -/
theorem Geometry.takeCluster_eq {c n : Nat} {s : Nat → Mem} (h2 : 2 ≤ c)
    (hc : c < 128 * fs.sectorsPerFat) (hc2 : c < fs.totalClusters + 2) :
    takeCluster fs c ⟨s, n + (c - 2) + 1⟩ =
      if fs.dev.fails (n + c - 1) then (none, ⟨s, n + c⟩)
      else if fs.dev.fails (n + c) then (none, ⟨s, n + c + 1⟩)
      else if fs.dev.fails (n + c + 1) then (none, ⟨setFirst fs s c fat32Eoc, n + c + 2⟩)
      else (some c, ⟨setBoth fs s c fat32Eoc, n + c + 2⟩) := by
  have hreq : n + (c - 2) + 1 = n + c - 1 := by omega
  have h1 : n + c - 1 + 1 = n + c := by omega
  have h2 : n + c - 1 + 2 = n + c + 1 := by omega
  have h3 : n + c - 1 + 3 = n + c + 2 := by omega
  rw [takeCluster, hg.fatSet_eq hc hc2, hreq]
  simp only [Disk.tick, h1, h2, h3]
  split_ifs <;> rfl

/-- `alloc_cluster`: nothing reads as free, or the first cluster that does is
marked, with one read and two writes after its own. -/
theorem Geometry.allocCluster_cases {d : Disk} (hok : FatOk fs d.sectors) :
    (∃ c, FirstFree fs d.requests d.sectors c ∧ 3 ≤ c ∧ c < 128 * fs.sectorsPerFat ∧
      allocCluster fs d =
        if fs.dev.fails (d.requests + c - 1) then (none, ⟨d.sectors, d.requests + c⟩)
        else if fs.dev.fails (d.requests + c) then (none, ⟨d.sectors, d.requests + c + 1⟩)
        else if fs.dev.fails (d.requests + c + 1) then
          (none, ⟨setFirst fs d.sectors c fat32Eoc, d.requests + c + 2⟩)
        else (some c, ⟨setBoth fs d.sectors c fat32Eoc, d.requests + c + 2⟩)) ∨
    ((∀ c, 2 ≤ c → c < fs.totalClusters + 2 → ¬ ReadsFree fs d.requests d.sectors c) ∧
      allocCluster fs d = (none, ⟨d.sectors, d.requests + fs.totalClusters⟩)) := by
  rcases hg.allocCluster_scan d with ⟨c, hfirst, heq⟩ | hnone
  · have h3 : 3 ≤ c := by
      by_contra hlow
      exact hok.head c (by omega) hfirst.free.2
    have hc : c < 128 * fs.sectorsPerFat := by
      by_contra hhigh
      exact hok.tail c (by omega) hfirst.lt hfirst.free.2
    exact Or.inl ⟨c, hfirst, h3, hc, heq.trans (hg.takeCluster_eq hfirst.two_le hc hfirst.lt)⟩
  · exact Or.inr hnone

end Alloc

end RoninOS.Fs
