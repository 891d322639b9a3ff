/-
RoninOS.Fs.Fat32Sizing — the layouts that `fat32_format` accepts, for every
size of the device.

Below `fatSizeLimit` the sizing loop is the map `nextFatSize`, which has a fixed
point unless the size is 31 or 32 modulo 130. At those two sizes it alternates
between two neighbours and its eight rounds end at the lower one, whose FAT is
too small. Above the limit the entry bytes wrap in 32 bits; a FAT of no sectors
is a fixed point of the loop, and the first round reaches it from the 126 sizes
of `LayoutWraps` in every 2^30.
-/
import RoninOS.Fs.Fat32Format
import Mathlib.Order.Interval.Set.Basic

namespace RoninOS.Fs

open RoninOS.Lib

/-! ## The geometry that is written -/

/-- The variables of `fat32_format` after its sizing loop. -/
def formatGeometry (dev : BlockDev) : Option Fat32Fs :=
  (sizeFat dev.sectorCount 8 1).map fun sectorsPerFat => {
    dev
    sectorsPerCluster := 1
    reservedSectors := 32
    fatCount := 2
    sectorsPerFat
    rootCluster := 2
    fatStartLba := 32
    dataStartLba := add32 32 (mul32 2 sectorsPerFat)
    totalClusters := sub32 (sub32 dev.sectorCount 32) (mul32 2 sectorsPerFat) / 1 }

theorem formatGeometry_eq {dev : BlockDev} {spf : Nat} (hspf : sizeFat dev.sectorCount 8 1 = some spf)
    (hfit : 33 + 2 * spf < dev.sectorCount) : formatGeometry dev = some (formattedFs dev spf) := by
  have hlt := dev.sectorCount_lt
  have hmul : mul32 2 spf = 2 * spf := mul32_of_lt (by omega)
  have hadd : add32 32 (2 * spf) = 32 + 2 * spf := add32_of_lt (by omega)
  have hsub : sub32 (sub32 dev.sectorCount 32) (2 * spf) = dev.sectorCount - (32 + 2 * spf) := by
    rw [sub32_of_le (by omega : 32 ≤ dev.sectorCount) hlt, sub32_of_le (by omega) (by omega)]
    omega
  simp [formatGeometry, formattedFs, hspf, hmul, hadd, hsub]

/-- A device of `n` sectors that works. -/
def sizedDev (n : Nat) (hn : n < 2 ^ 32) : BlockDev :=
  { exampleDev with sectorCount := n, sectorCount_lt := hn }

/-- A disk of zeros. -/
def zeroDisk : Disk := ⟨fun _ => zeroSector, 0⟩

theorem sizedDev_format {n : Nat} (hn : n < 2 ^ 32) (hlow : 256 ≤ n) {spf : Nat}
    (hspf : sizeFat n 8 1 = some spf) (hfit : 33 + 2 * spf < n) :
    ∃ d', fat32Format (sizedDev n hn) zeroDisk = (.ok (), d') :=
  @fat32Format_fits (sizedDev n hn) (fun _ => rfl) rfl rfl hlow _ hspf hfit zeroDisk

section Format

variable {dev : BlockDev} {d d' : Disk}

/-- The reserved sectors stay as they were written first. -/
theorem formatSectors_reserved {total spf lba : Nat} (s : Nat → Mem) (hlba : lba < 32) :
    formatSectors total spf s lba =
      if lba = 0 ∨ lba = 6 then bootSector total spf
      else if lba = 1 ∨ lba = 7 then fsInfoSector (total - (32 + 2 * spf) - 1)
      else if lba = 2 then signatureSector
      else s lba := by
  rw [formatSectors, if_neg (by omega), if_neg (by omega)]

/-- What `fat32_mount` reads from the boot sector of a formatted device. -/
theorem mountSector_format (h : fat32Format dev d = (.ok (), d')) :
    ∃ spf, sizeFat dev.sectorCount 8 1 = some spf ∧ 33 + 2 * spf < dev.sectorCount ∧
      mountSector dev (d'.sectors 0) = some (.ok (formattedFs dev spf)) := by
  obtain ⟨-, -, -, spf, hspf, -, hfit, hsectors⟩ := fat32Format_some h
  refine ⟨spf, hspf, hfit, ?_⟩
  rw [hsectors, formatSectors_reserved _ (by decide)]
  exact mountSector_formatted hfit

/-- Mounting undoes formatting: on a device that works, of any size and with any
contents, the volume that `fat32_mount` reads back has the geometry that
`fat32_format` chose, and the backups at 6 and 7 are copies. -/
theorem mount_format (hworks : ∀ n, dev.fails n = false) (h : fat32Format dev d = (.ok (), d')) :
    ∃ fs, formatGeometry dev = some fs ∧ fat32Mount dev d' = some (.ok fs, d'.tick 1) ∧
      d'.sectors 6 = d'.sectors 0 ∧ d'.sectors 7 = d'.sectors 1 := by
  obtain ⟨hsize, -, hlow, spf, hspf, -, hfit, hsectors⟩ := fat32Format_some h
  refine ⟨formattedFs dev spf, formatGeometry_eq hspf hfit, ?_, ?_, ?_⟩
  · obtain ⟨spf', hspf', -, hmount⟩ := mountSector_format h
    obtain rfl := Option.some.inj (hspf.symm.trans hspf')
    rw [fat32Mount, if_neg (by simp [hsize]), fat32IoRead_works hworks (by omega)]
    simp only [hmount, Option.map_some]
  · rw [hsectors, formatSectors_reserved _ (by decide), formatSectors_reserved _ (by decide)]
    rfl
  · rw [hsectors, formatSectors_reserved _ (by decide), formatSectors_reserved _ (by decide)]
    rfl

/-- A device of 2^16 sectors mounts as it was formatted. -/
theorem mount_format_sized : ∃ d' fs,
    fat32Format (sizedDev (2 ^ 16) (by decide)) zeroDisk = (.ok (), d') ∧
      fat32Mount (sizedDev (2 ^ 16) (by decide)) d' = some (.ok fs, d'.tick 1) := by
  obtain ⟨d', hformat⟩ := sizedDev_format (by decide) (by decide)
    (show sizeFat (2 ^ 16) 8 1 = some 504 by decide) (by decide)
  obtain ⟨fs, -, hmount, -, -⟩ := mount_format (fun _ => rfl) hformat
  exact ⟨d', fs, hformat, hmount⟩

/-! ## The size of the FAT -/

/-- Every cluster number has an entry of its own in the first FAT. -/
def FatCovers (fs : Fat32Fs) : Prop := fs.totalClusters + 2 ≤ 128 * fs.sectorsPerFat

instance (fs : Fat32Fs) : Decidable (FatCovers fs) := inferInstanceAs (Decidable (_ ≤ _))

/-- Without a fixed point, an even number of rounds from below ends below. -/
theorem sizeFat_cycle {total a k s : Nat} (hlow : 256 ≤ total) (hhigh : total ≤ fatSizeLimit)
    (hcycle : total = 130 * a + 31 ∨ total = 130 * a + 32) (hpos : 1 ≤ s) (hs : s ≤ a) :
    ∃ spf, sizeFat total (2 * k) s = some spf ∧ spf ≤ a := by
  induction k generalizing s with
  | zero => exact ⟨s, rfl, hs⟩
  | succ k ih =>
      have hup : a + 1 ≤ nextFatSize total s := by
        unfold nextFatSize
        omega
      have hup' : nextFatSize total s ≤ (total + 95) / 128 := nextFatSize_le hpos
      have hdown : nextFatSize total (nextFatSize total s) ≤ a := by
        unfold nextFatSize at hup ⊢
        omega
      have hdown' : 1 ≤ nextFatSize total (nextFatSize total s) := nextFatSize_pos hlow hup'
      rw [Nat.mul_add, Nat.mul_one, sizeFat_succ hlow hhigh hpos (by omega), if_neg (by omega),
        sizeFat_succ hlow hhigh (by omega) hup', if_neg (by omega)]
      exact ih hdown' hdown

/-- On devices below 2^28 sectors the FAT has an entry for every cluster unless
the size is 31 or 32 modulo 130. -/
theorem format_covers_iff (hhigh : dev.sectorCount < 2 ^ 28)
    (h : fat32Format dev d = (.ok (), d')) :
    ∃ fs, mountSector dev (d'.sectors 0) = some (.ok fs) ∧
      (FatCovers fs ↔ dev.sectorCount % 130 ≠ 31 ∧ dev.sectorCount % 130 ≠ 32) := by
  have hlimit : dev.sectorCount ≤ fatSizeLimit := by
    unfold fatSizeLimit
    omega
  obtain ⟨-, -, hlow, -⟩ := fat32Format_some h
  obtain ⟨spf, hspf, hfit, hmount⟩ := mountSector_format h
  obtain ⟨spf', hspf', -, -, henough⟩ := sizeFat_spec hlow hlimit
  obtain rfl := Option.some.inj (hspf.symm.trans hspf')
  refine ⟨_, hmount, ?_⟩
  simp only [FatCovers, formattedFs]
  constructor
  · intro hcovers
    by_contra hmod
    obtain ⟨a, hcycle⟩ : ∃ a, dev.sectorCount = 130 * a + 31 ∨ dev.sectorCount = 130 * a + 32 :=
      ⟨dev.sectorCount / 130, by omega⟩
    obtain ⟨spf', hspf', hle⟩ := sizeFat_cycle (k := 4) hlow hlimit hcycle (le_refl 1) (by omega)
    obtain rfl := Option.some.inj (hspf.symm.trans hspf')
    omega
  · intro hmod
    omega

/-- On 256 sectors every cluster has its entry. -/
theorem format_covers_small : ∃ d' fs,
    fat32Format (sizedDev 256 (by decide)) zeroDisk = (.ok (), d') ∧
      mountSector (sizedDev 256 (by decide)) (d'.sectors 0) = some (.ok fs) ∧ FatCovers fs := by
  obtain ⟨d', hformat⟩ := sizedDev_format (by decide) (le_refl 256)
    (show sizeFat 256 8 1 = some 2 by decide) (by decide)
  obtain ⟨fs, hmount, hiff⟩ := format_covers_iff (by decide) hformat
  exact ⟨d', fs, hformat, hmount, hiff.mpr (by decide)⟩

/-- On 291 sectors each FAT has 256 entries, and the clusters are 2 to 256. -/
theorem format_lacks_entries : ∃ d' fs,
    fat32Format (sizedDev 291 (by decide)) zeroDisk = (.ok (), d') ∧
      mountSector (sizedDev 291 (by decide)) (d'.sectors 0) = some (.ok fs) ∧ ¬ FatCovers fs := by
  have hspf : sizeFat 291 8 1 = some 2 := by decide
  obtain ⟨d', hformat⟩ := sizedDev_format (by decide) (by decide) hspf (by decide)
  obtain ⟨spf, hspf', -, hmount⟩ := mountSector_format hformat
  obtain rfl : 2 = spf := Option.some.inj (hspf.symm.trans hspf')
  exact ⟨d', _, hformat, hmount, by decide⟩

/-! ## Wrapping -/

/-- The first round wraps to a FAT of no sectors, and so does the next. -/
def LayoutWraps (total : Nat) : Prop := (total + 95) % 2 ^ 30 ≤ 125

instance (total : Nat) : Decidable (LayoutWraps total) := inferInstanceAs (Decidable (_ ≤ _))

theorem sizeFat_of_wraps {total : Nat} (hlow : 256 ≤ total) (htotal : total < 2 ^ 32)
    (hwraps : LayoutWraps total) : sizeFat total 8 1 = some 0 := by
  unfold LayoutWraps at hwraps
  have hfirst : wrapFatSize total 1 = 0 := by
    unfold wrapFatSize
    omega
  have hagain : wrapFatSize total 0 = 0 := by
    unfold wrapFatSize
    omega
  rw [sizeFat_round htotal (by omega), hfirst, if_neg (by decide), sizeFat_round htotal (by omega),
    hagain, if_pos rfl]

/-- Two sizes in every 2^30 alternate between no sector and one. -/
theorem sizeFat_alternates {total rounds : Nat} (hlow : 256 ≤ total) (htotal : total < 2 ^ 32)
    (hmod : (total - 30) % 2 ^ 30 = 1 ∨ (total - 30) % 2 ^ 30 = 2) :
    sizeFat total (rounds + 2) 1 = sizeFat total rounds 1 := by
  have hfirst : wrapFatSize total 1 = 0 := by
    unfold wrapFatSize
    omega
  have hback : wrapFatSize total 0 = 1 := by
    unfold wrapFatSize
    omega
  rw [sizeFat_round htotal (by omega), hfirst, if_neg (by decide), sizeFat_round htotal (by omega),
    hback, if_neg (by decide)]

/-- From the other sizes no round wraps to 0. -/
theorem sizeFat_pos {total rounds s spf : Nat} (hlow : 256 ≤ total) (htotal : total < 2 ^ 32)
    (h3 : 3 ≤ (total - 30) % 2 ^ 30) (hmod : (total - 30) % 2 ^ 30 ≤ 2 ^ 30 - 126) (hpos : 1 ≤ s)
    (hs : s ≤ ((total - 30) % 2 ^ 30 + 125) / 128) (h : sizeFat total rounds s = some spf) :
    1 ≤ spf := by
  induction rounds generalizing s with
  | zero => exact Option.some.inj h ▸ hpos
  | succ rounds ih =>
      have hnext : wrapFatSize total s = ((total - 30) % 2 ^ 30 - 2 * s + 127) / 128 := by
        unfold wrapFatSize
        omega
      rw [sizeFat_round htotal (by omega)] at h
      split at h
      · exact Option.some.inj h ▸ hpos
      · exact ih (by omega) (by omega) h

/-- The FAT has no sectors exactly at the sizes that wrap. -/
theorem sizeFat_pos_iff {total spf : Nat} (hlow : 256 ≤ total) (htotal : total < 2 ^ 32)
    (h : sizeFat total 8 1 = some spf) : 1 ≤ spf ↔ ¬ LayoutWraps total := by
  constructor
  · intro hpos hwraps
    rw [sizeFat_of_wraps hlow htotal hwraps] at h
    obtain rfl := Option.some.inj h
    omega
  · intro hwraps
    unfold LayoutWraps at hwraps
    by_cases hfew : (total - 30) % 2 ^ 30 = 1 ∨ (total - 30) % 2 ^ 30 = 2
    · rw [sizeFat_alternates hlow htotal hfew, sizeFat_alternates hlow htotal hfew,
        sizeFat_alternates hlow htotal hfew, sizeFat_alternates hlow htotal hfew, sizeFat] at h
      exact (Option.some.inj h).le
    · exact sizeFat_pos hlow htotal (by omega) (by omega) (le_refl 1) (by omega) h

/-- The regions of a volume: the reserved sectors, the two FATs and the data. -/
def regions (fs : Fat32Fs) : List (Nat × Nat) :=
  [(0, fs.reservedSectors),
   (fs.fatStartLba, fs.fatStartLba + fs.sectorsPerFat),
   (fs.fatStartLba + fs.sectorsPerFat, fs.fatStartLba + 2 * fs.sectorsPerFat),
   (fs.dataStartLba, fs.dataStartLba + fs.totalClusters)]

/-- The regions are not empty, lie on the device and share no sector. -/
structure RegionsOk (fs : Fat32Fs) : Prop where
  fat_pos : 1 ≤ fs.sectorsPerFat
  inside : ∀ r ∈ regions fs, r.1 < r.2 ∧ r.2 ≤ fs.dev.sectorCount
  disjoint : (regions fs).Pairwise fun a b => ∀ lba ∈ Set.Ico a.1 a.2, lba ∉ Set.Ico b.1 b.2

theorem not_mem_Ico_of_le {a b c e : Nat} (h : b ≤ c) : ∀ lba ∈ Set.Ico a b, lba ∉ Set.Ico c e :=
  fun _ hlba hlba' => absurd (hlba.2.trans_le (h.trans hlba'.1)) (lt_irrefl _)

theorem regionsOk_formattedFs {spf : Nat} (hpos : 1 ≤ spf) (hfit : 33 + 2 * spf < dev.sectorCount) :
    RegionsOk (formattedFs dev spf) where
  fat_pos := hpos
  inside := by
    simp [regions, formattedFs]
    omega
  disjoint := by
    simp only [regions, formattedFs, List.pairwise_cons, List.mem_cons, List.not_mem_nil, or_false,
      forall_eq_or_imp, forall_eq]
    refine ⟨⟨?_, ?_, ?_⟩, ⟨?_, ?_⟩, ?_, by simp⟩ <;> exact not_mem_Ico_of_le (by omega)

/-- On devices of every size: the regions are as they should be, and the root
directory's sector, written last, leaves both FATs as they were written, unless
the size is one that wraps. -/
theorem format_regions_iff (h : fat32Format dev d = (.ok (), d')) :
    ∃ fs, formatGeometry dev = some fs ∧
      ((RegionsOk fs ∧ d'.sectors fs.fatStartLba = fatHeadSector ∧
          d'.sectors (fs.fatStartLba + fs.sectorsPerFat) = fatHeadSector) ↔
        ¬ LayoutWraps dev.sectorCount) := by
  have hlt := dev.sectorCount_lt
  obtain ⟨-, -, hlow, spf, hspf, -, hfit, hsectors⟩ := fat32Format_some h
  refine ⟨formattedFs dev spf, formatGeometry_eq hspf hfit, ?_⟩
  rw [← sizeFat_pos_iff hlow hlt hspf]
  constructor
  · intro hok
    exact hok.1.fat_pos
  · intro hpos
    refine ⟨regionsOk_formattedFs hpos hfit, ?_, ?_⟩
    · simp only [hsectors, formatSectors, formattedFs]
      rw [if_neg (by omega), if_pos (by simp)]
    · simp only [hsectors, formatSectors, formattedFs]
      rw [if_neg (by omega), if_pos (by simp)]

end Format

/-- The regions of 256 sectors. -/
theorem format_regions_small : ∃ d' fs,
    fat32Format (sizedDev 256 (by decide)) zeroDisk = (.ok (), d') ∧
      formatGeometry (sizedDev 256 (by decide)) = some fs ∧ RegionsOk fs := by
  obtain ⟨d', hformat⟩ := sizedDev_format (by decide) (le_refl 256)
    (show sizeFat 256 8 1 = some 2 by decide) (by decide)
  obtain ⟨fs, hgeometry, hiff⟩ := format_regions_iff hformat
  exact ⟨d', fs, hformat, hgeometry, (hiff.mpr (by decide)).1⟩

/-- On 2^30 sectors the FATs have no sectors, and the root directory is written
over their first one. -/
theorem format_overlaps : ∃ d' fs,
    fat32Format (sizedDev (2 ^ 30) (by decide)) zeroDisk = (.ok (), d') ∧
      formatGeometry (sizedDev (2 ^ 30) (by decide)) = some fs ∧ ¬ RegionsOk fs ∧
      d'.sectors fs.fatStartLba ≠ fatHeadSector := by
  have hspf : sizeFat (2 ^ 30) 8 1 = some 0 := by decide
  obtain ⟨d', hformat⟩ := sizedDev_format (by decide) (by decide) hspf (by decide)
  refine ⟨d', _, hformat, formatGeometry_eq hspf (by decide), fun hok => ?_, ?_⟩
  · exact absurd hok.fat_pos (by decide)
  · obtain ⟨-, -, -, spf, hspf', -, -, hsectors⟩ := fat32Format_some hformat
    obtain rfl := Option.some.inj (hspf.symm.trans hspf')
    intro hfat
    have hbyte := congrFun hfat 0
    rw [hsectors] at hbyte
    exact absurd hbyte (by decide)

end RoninOS.Fs
