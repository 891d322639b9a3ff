/-
RoninOS.Fs.Fat32Format — the volume that `fat32_format` and `fat32_mount` leave.

`fat32_format` writes the first sector of each FAT and no other sector of them,
so the entries from cluster 128 on are what the disk held before. The root
directory is empty and the entries of clusters 0 to 2 are in use, whatever was
on the disk; the rest of an empty volume depends on the old contents of the FAT
sectors, and on a FAT that has an entry for every cluster. `CleanBefore` is that
condition.
-/
import RoninOS.Fs.Fat32Dir
import RoninOS.Fs.Fat32Table

namespace RoninOS.Fs

open RoninOS.Lib

/-! ## The sectors after formatting -/

/-- The entries of a fresh first FAT sector. -/
theorem fatHeadSector_entry (k : Nat) : ld32 fatHeadSector (k * 4) &&& 0x0FFFFFFF =
    if k = 0 then 0x0FFFFFF8 else if k ≤ 2 then fat32Eoc else 0 := by
  unfold fatHeadSector
  by_cases h2 : k = 2
  · rw [h2, ld32_st32_self _ _ (by decide)]
    decide
  rw [ld32_st32_of_disjoint _ _ (by omega)]
  by_cases h1 : k = 1
  · rw [h1, ld32_st32_self _ _ (by decide)]
    decide
  rw [ld32_st32_of_disjoint _ _ (by omega)]
  by_cases h0 : k = 0
  · rw [h0, ld32_st32_self _ _ (by decide)]
    decide
  rw [ld32_st32_of_disjoint _ _ (by omega), if_neg h0, if_neg (by omega)]
  have hzero : ld32 zeroSector (k * 4) = 0 := by simp [ld32, zeroSector, le32]
  rw [hzero, Nat.zero_and]

/-- The free count of the FSInfo sector. -/
theorem fsInfoSector_count {n : Nat} (hn : n < 2 ^ 32) : ld32 (fsInfoSector n) 488 = n := by
  simp [fsInfoSector, ld32, st32, le32_byteOf hn]

section Formatted

variable {dev : BlockDev} {before d : Disk} {fs : Fat32Fs} (h : Formatted dev before fs d)
  (hhigh : dev.sectorCount ≤ fatSizeLimit)
include h hhigh

theorem Formatted.geometry : Geometry fs := (h.spec hhigh).1

/-- The root directory is empty. -/
theorem Formatted.dirOk : DirOk (d.sectors fs.dataStartLba) [] := by
  obtain ⟨hg, -, -, hsectors⟩ := h.spec hhigh
  rw [hsectors, formatSectors, if_pos hg.dataStart]
  exact dirOk_zeroSector

/-- The entries of the first FAT sector. -/
theorem Formatted.fatEntry_first {c : Nat} (hc : c < 128) (hc2 : c < fs.totalClusters + 2) :
    fatEntry fs d.sectors c = if c = 0 then 0x0FFFFFF8 else if c ≤ 2 then fat32Eoc else 0 := by
  obtain ⟨hg, -, -, hsectors⟩ := h.spec hhigh
  have hpos := hg.fat_pos
  rw [hg.fatEntry_eq hc2, hsectors, formatSectors, if_neg (by omega), if_pos (by omega),
    Nat.mod_eq_of_lt hc]
  exact fatHeadSector_entry c

/-- The entries of the other FAT sectors are the old ones. -/
theorem Formatted.fatEntry_rest {c : Nat} (hc : 128 ≤ c) (hc1 : c < 128 * fs.sectorsPerFat)
    (hc2 : c < fs.totalClusters + 2) : fatEntry fs d.sectors c = fatEntry fs before.sectors c := by
  obtain ⟨hg, -, -, hsectors⟩ := h.spec hhigh
  rw [hg.fatEntry_eq hc2, hg.fatEntry_eq hc2, hsectors, formatSectors, if_neg (by omega),
    if_neg (by omega), if_neg (by omega), if_neg (by omega), if_neg (by omega)]

/-- The entries outside the first FAT are those of clusters 0 and 1 in the second. -/
theorem Formatted.fatEntry_tail {c : Nat} (hc1 : 128 * fs.sectorsPerFat ≤ c)
    (hc2 : c < fs.totalClusters + 2) : fatEntry fs d.sectors c ≠ 0 := by
  obtain ⟨hg, -, -, hsectors⟩ := h.spec hhigh
  have hcovers := hg.covers
  have hpos := hg.fat_pos
  rw [hg.fatEntry_eq hc2, hsectors, formatSectors, if_neg (by omega), if_pos (by omega),
    fatHeadSector_entry]
  split_ifs
  · decide
  · decide
  · omega

/-- Behind their first sectors the FATs are the old ones. -/
theorem Formatted.sectors_rest (lba : Nat) (h1 : 32 < lba) (h2 : lba < 32 + 2 * fs.sectorsPerFat)
    (h3 : lba ≠ 32 + fs.sectorsPerFat) : d.sectors lba = before.sectors lba := by
  obtain ⟨hg, -, -, hsectors⟩ := h.spec hhigh
  rw [hsectors, formatSectors, if_neg (by omega), if_neg (by omega), if_neg (by omega),
    if_neg (by omega), if_neg (by omega)]

/-- The FATs are equal where the old ones were. -/
theorem Formatted.copies (hsame : ∀ j, 1 ≤ j → j < fs.sectorsPerFat → ∀ b < 512,
    before.sectors (32 + j) b = before.sectors (32 + fs.sectorsPerFat + j) b) :
    ∀ j < fs.sectorsPerFat, ∀ b < 512,
      d.sectors (32 + j) b = d.sectors (32 + fs.sectorsPerFat + j) b := by
  intro j hj b hb
  by_cases hj0 : j = 0
  · obtain ⟨hg, -, -, hsectors⟩ := h.spec hhigh
    rw [hj0, hsectors, formatSectors, if_neg (by omega), if_pos (Or.inl rfl), formatSectors,
      if_neg (by omega), if_pos (by omega)]
  · rw [h.sectors_rest hhigh (32 + j) (by omega) (by omega) (by omega),
      h.sectors_rest hhigh (32 + fs.sectorsPerFat + j) (by omega) (by omega) (by omega)]
    exact hsame j (by omega) hj b hb

/-- The reserved entries are in use. -/
theorem Formatted.fatOk : FatOk fs d.sectors := by
  have hclusters := (h.geometry hhigh).clusters_pos
  refine ⟨fun c hc => ?_, fun c h1 h2 => h.fatEntry_tail hhigh h1 h2⟩
  rw [h.fatEntry_first hhigh (by omega) (by omega)]
  split_ifs
  · decide
  · decide
  · omega

end Formatted

/-! ## Empty volumes -/

/-- The clusters other than the root that `fat_get` reads as free. -/
def freeClusters (fs : Fat32Fs) (d : Disk) : Nat :=
  (List.range (fs.totalClusters + 2)).countP fun c =>
    decide (2 ≤ c ∧ c ≠ fs.rootCluster ∧ (fatGet fs c d).1 = 0)

/-- An empty volume: no entries, every cluster of the FAT free, the right free
count in the FSInfo sector, and two equal FATs. -/
structure EmptyVolume (fs : Fat32Fs) (d : Disk) : Prop where
  listing : ∀ maxOut, 0 < maxOut → (fat32ListRoot fs maxOut d).1 = .ok []
  free : ∀ c, 3 ≤ c → c < fs.totalClusters + 2 → c < 128 * fs.sectorsPerFat →
    (fatGet fs c d).1 = 0
  count : ld32 (d.sectors 1) 488 = freeClusters fs d
  copies : ∀ j < fs.sectorsPerFat, ∀ b < 512,
    d.sectors (fs.fatStartLba + j) b = d.sectors (fs.fatStartLba + fs.sectorsPerFat + j) b

/-- What the disk must have held for `fat32_format` to leave an empty volume: a
FAT with an entry for every cluster, old entries from cluster 128 on that read
as free, and equal old FAT copies behind their first sectors. -/
structure CleanBefore (fs : Fat32Fs) (before : Disk) : Prop where
  covers : fs.totalClusters + 2 ≤ 128 * fs.sectorsPerFat
  zero : ∀ c, 128 ≤ c → c < fs.totalClusters + 2 → fatEntry fs before.sectors c = 0
  same : ∀ j, 1 ≤ j → j < fs.sectorsPerFat → ∀ b < 512,
    before.sectors (32 + j) b = before.sectors (32 + fs.sectorsPerFat + j) b

section Empty

variable {dev : BlockDev} {before d : Disk} {fs : Fat32Fs}

/-- On a device that works `fat_get` reads the entry. -/
theorem fatGet_works (hg : Geometry fs) (hworks : ∀ n, fs.dev.fails n = false) {c : Nat}
    (hc : c < fs.totalClusters + 2) (d : Disk) : (fatGet fs c d).1 = fatEntry fs d.sectors c := by
  rw [hg.fatGet_eq hc]
  simp [hworks]

/-- All clusters but the root are free exactly when they are as many as there
are clusters but the root. -/
theorem freeClusters_eq_iff (hg : Geometry fs) (hworks : ∀ n, fs.dev.fails n = false) (d : Disk) :
    freeClusters fs d = fs.totalClusters - 1 ↔
      ∀ c, 3 ≤ c → c < fs.totalClusters + 2 → fatEntry fs d.sectors c = 0 := by
  have hclusters := hg.clusters_pos
  have hsplit : List.range (fs.totalClusters + 2)
      = [0, 1, 2] ++ List.range' 3 (fs.totalClusters - 1) := by
    rw [List.range_eq_range', show fs.totalClusters + 2 = 3 + (fs.totalClusters - 1) by omega,
      ← List.range'_append_1]
    rfl
  have hlow : List.countP (fun c => decide (2 ≤ c ∧ c ≠ fs.rootCluster ∧ (fatGet fs c d).1 = 0))
      [0, 1, 2] = 0 := by
    rw [hg.rootCluster]
    simp
  have hlen : (List.range' 3 (fs.totalClusters - 1)).length = fs.totalClusters - 1 :=
    List.length_range'
  unfold freeClusters
  rw [hsplit, List.countP_append, hlow, Nat.zero_add]
  refine Iff.trans (Eq.congr rfl hlen.symm) ?_
  rw [List.countP_eq_length]
  constructor
  · intro hall c h3 hc
    have := hall c (List.mem_range'_1.mpr ⟨h3, by omega⟩)
    simp only [decide_eq_true_eq] at this
    rw [← fatGet_works hg hworks hc]
    exact this.2.2
  · intro hall c hc
    obtain ⟨h3, hlt⟩ := List.mem_range'_1.mp hc
    have hc2 : c < fs.totalClusters + 2 := by omega
    simp only [decide_eq_true_eq, hg.rootCluster, fatGet_works hg hworks hc2]
    exact ⟨by omega, by omega, hall c h3 hc2⟩

/-- Formatting leaves an empty volume exactly on the disks that were clean. -/
theorem format_empty_iff (hhigh : dev.sectorCount < 2 ^ 28)
    (hworks : ∀ n, dev.fails n = false) (h : Formatted dev before fs d) :
    EmptyVolume fs d ↔ CleanBefore fs before := by
  have hlimit : dev.sectorCount ≤ fatSizeLimit := by
    unfold fatSizeLimit
    omega
  obtain ⟨hg, rfl, htotal, hsectors⟩ := h.spec hlimit
  have hclusters := hg.clusters_pos
  have hstart := hg.fatStart
  have hdata := hg.dataStart
  have hpos := hg.fat_pos
  have hinfo : ld32 (d.sectors 1) 488 = fs.totalClusters - 1 := by
    rw [hsectors, formatSectors, if_neg (by omega), if_neg (by omega), if_neg (by omega),
      if_pos (Or.inl rfl), fsInfoSector_count (by omega), htotal]
  constructor
  · intro hempty
    have hall := (freeClusters_eq_iff hg hworks d).mp (hempty.count.symm.trans hinfo)
    have hcovers : fs.totalClusters + 2 ≤ 128 * fs.sectorsPerFat := by
      by_contra hlt
      exact h.fatEntry_tail hlimit (c := 128 * fs.sectorsPerFat) (le_refl _) (by omega)
        (hall _ (by omega) (by omega))
    refine ⟨hcovers, fun c h1 h2 => ?_, fun j h1 h2 b hb => ?_⟩
    · rw [← h.fatEntry_rest hlimit h1 (by omega) h2]
      exact hall c (by omega) h2
    · have hcopy := hempty.copies j h2 b hb
      rw [hstart] at hcopy
      rwa [h.sectors_rest hlimit (32 + j) (by omega) (by omega) (by omega),
        h.sectors_rest hlimit (32 + fs.sectorsPerFat + j) (by omega) (by omega) (by omega)]
        at hcopy
  · intro hclean
    have hall : ∀ c, 3 ≤ c → c < fs.totalClusters + 2 → fatEntry fs d.sectors c = 0 := by
      intro c h3 hc
      have hcovers := hclean.covers
      by_cases hfirst : c < 128
      · rw [h.fatEntry_first hlimit hfirst hc, if_neg (by omega), if_neg (by omega)]
      · rw [h.fatEntry_rest hlimit (by omega) (by omega) hc]
        exact hclean.zero c (by omega) hc
    refine ⟨fun maxOut hmax => ?_, fun c h3 hc _ => ?_, ?_, fun j hj b hb => ?_⟩
    · rw [fat32ListRoot, if_neg (by omega), hg.rootLba_eq, fat32IoRead_works hworks hg.rootLba_lt,
        orFail_some, (h.dirOk hlimit).listFrom_eq (k := 0) rfl]
      simp [liveFiles]
    · rw [fatGet_works hg hworks hc]
      exact hall c h3 hc
    · rw [hinfo, (freeClusters_eq_iff hg hworks d).mpr hall]
    · rw [hstart]
      exact h.copies hlimit hclean.same j hj b hb

end Empty

/-! ## A device of 256 sectors -/

/-- A device of 256 sectors that works. -/
def exampleDev : BlockDev where
  sectorSize := 512
  sectorCount := 256
  sectorCount_lt := by decide
  writable := true
  fails := fun _ => false

/-- It can be formatted whatever it held; each FAT takes two sectors. -/
theorem exampleDev_formatted (before : Disk) :
    ∃ d, Formatted exampleDev before (formattedFs exampleDev 2) d := by
  obtain ⟨spf, d, hspf, hformatted⟩ := @formatted_total exampleDev (fun _ => rfl) rfl rfl
    (by decide) (by decide) before
  obtain rfl : 2 = spf := Option.some.inj ((show some 2 = sizeFat 256 8 1 by decide).trans hspf)
  exact ⟨d, hformatted⟩

/-- On a disk of zeros the volume is empty. -/
theorem format_empty_zeroDisk : ∃ d,
    Formatted exampleDev ⟨fun _ => zeroSector, 0⟩ (formattedFs exampleDev 2) d ∧
      EmptyVolume (formattedFs exampleDev 2) d := by
  obtain ⟨d, hformatted⟩ := exampleDev_formatted ⟨fun _ => zeroSector, 0⟩
  refine ⟨d, hformatted, (format_empty_iff (by decide) (fun _ => rfl) hformatted).mpr
    ⟨by decide, fun c _ _ => ?_, fun j _ _ b _ => rfl⟩⟩
  simp [fatEntry, ld32, zeroSector, le32]

/-- On a disk of `0xFF` bytes cluster 128 does not read as free. -/
theorem format_keeps_old_entries : ∃ before d,
    Formatted exampleDev before (formattedFs exampleDev 2) d ∧
      ¬ EmptyVolume (formattedFs exampleDev 2) d := by
  obtain ⟨d, hformatted⟩ := exampleDev_formatted ⟨fun _ _ => 0xFF, 0⟩
  refine ⟨_, d, hformatted, fun hempty => ?_⟩
  have hfree := hempty.free 128 (by decide) (by decide) (by decide)
  rw [fatGet_works (hformatted.geometry (by decide)) (fun _ => rfl) (by decide),
    hformatted.fatEntry_rest (by decide) (by decide) (by decide) (by decide)] at hfree
  exact absurd hfree (by decide)

end RoninOS.Fs
