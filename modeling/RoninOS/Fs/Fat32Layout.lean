/-
RoninOS.Fs.Fat32Layout — the geometry that `fat32_format` chooses and
`fat32_mount` reads back.

The sizing loop replaces a guess `s` for the FAT size by the number of sectors
that hold the entries of the clusters left beside two FATs of `s` sectors.
Two guesses that differ by `D` are replaced by two that differ by at most
`D / 64` rounded up, so eight rounds are enough: the loop ends at a fixed point
or between two neighbours, and the FAT holds all entries but at most two.

`fatSizeLimit` is the largest device whose FAT size does not wrap in 32 bits.
-/
import RoninOS.Fs.Fat32

namespace RoninOS.Fs

open RoninOS.Lib

/-! ## The sizing loop -/

/-- The largest device on which no round of the sizing loop wraps. -/
def fatSizeLimit : Nat := 2 ^ 30 - 96

/-- The FAT size that one round computes from the guess `s`. -/
def nextFatSize (total s : Nat) : Nat := (total + 97 - 2 * s) / 128

/-- The FAT size that one round computes in 32 bits. -/
def wrapFatSize (total s : Nat) : Nat := ((total - 30 - 2 * s) * 4 % 2 ^ 32 + 511) % 2 ^ 32 / 512

/-- One round of the sizing loop that passes its check. -/
theorem sizeFat_round {total s rounds : Nat} (htotal : total < 2 ^ 32) (hfit : 33 + 2 * s < total) :
    sizeFat total (rounds + 1) s =
      if wrapFatSize total s = s then some s else sizeFat total rounds (wrapFatSize total s) := by
  have h1 : mul32 2 s = 2 * s := mul32_of_lt (by omega)
  have h2 : add32 (add32 32 (2 * s)) 1 = 33 + 2 * s := by
    rw [add32_of_lt (by omega : 32 + 2 * s < 2 ^ 32), add32_of_lt (by omega)]
    omega
  have h3 : sub32 (sub32 total 32) (2 * s) = total - 32 - 2 * s := by
    rw [sub32_of_le (by omega : 32 ≤ total) (by omega), sub32_of_le (by omega) (by omega)]
  have h4 : add32 (total - 32 - 2 * s) 2 = total - 30 - 2 * s := by
    rw [add32_of_lt (by omega)]
    omega
  have h5 : (add32 (mul32 (total - 30 - 2 * s) 4) 511 &&& not32 511) / 512
      = wrapFatSize total s := by
    rw [show 511 = 2 ^ 9 - 1 from rfl, and_not32_mask (k := 9) (by decide) (add32_lt _ _)]
    unfold wrapFatSize add32 mul32
    omega
  simp only [sizeFat, h1, h2, h3, Nat.div_one, h4, h5]
  rw [if_neg (by omega)]

/-- One round of the sizing loop, without wrapping. -/
theorem sizeFat_succ {total s rounds : Nat} (hlow : 256 ≤ total) (hhigh : total ≤ fatSizeLimit)
    (hpos : 1 ≤ s) (hs : s ≤ (total + 95) / 128) :
    sizeFat total (rounds + 1) s =
      if nextFatSize total s = s then some s else sizeFat total rounds (nextFatSize total s) := by
  have hhigh : total ≤ 2 ^ 30 - 96 := hhigh
  have hnext : wrapFatSize total s = nextFatSize total s := by
    unfold wrapFatSize nextFatSize
    omega
  rw [sizeFat_round (by omega) (by omega), hnext]

theorem nextFatSize_pos {total s : Nat} (hlow : 256 ≤ total) (hs : s ≤ (total + 95) / 128) :
    1 ≤ nextFatSize total s := by
  unfold nextFatSize
  omega

theorem nextFatSize_le {total s : Nat} (hs : 1 ≤ s) : nextFatSize total s ≤ (total + 95) / 128 := by
  unfold nextFatSize
  omega

/-- From a guess within `64 ^ rounds` of the one before it, the loop ends with a
FAT that lacks at most two entries. -/
theorem sizeFat_converges {total : Nat} (hlow : 256 ≤ total) (hhigh : total ≤ fatSizeLimit) :
    ∀ {rounds r s : Nat}, 1 ≤ r → r ≤ (total + 95) / 128 → s = nextFatSize total r →
    s ≤ r + 64 ^ rounds → r ≤ s + 64 ^ rounds →
    ∃ spf, sizeFat total rounds s = some spf ∧ 1 ≤ spf ∧ spf ≤ (total + 95) / 128 ∧
      total ≤ 130 * spf + 32
  | 0, r, s, hr1, hr2, hs, hup, hdown => by
      refine ⟨s, rfl, hs ▸ nextFatSize_pos hlow hr2, hs ▸ nextFatSize_le hr1, ?_⟩
      unfold nextFatSize at hs
      rw [pow_zero] at hup hdown
      omega
  | rounds + 1, r, s, hr1, hr2, hs, hup, hdown => by
      have hs1 : 1 ≤ s := hs ▸ nextFatSize_pos hlow hr2
      have hs2 : s ≤ (total + 95) / 128 := hs ▸ nextFatSize_le hr1
      rw [sizeFat_succ hlow hhigh hs1 hs2]
      by_cases hfix : nextFatSize total s = s
      · rw [if_pos hfix]
        refine ⟨s, rfl, hs1, hs2, ?_⟩
        unfold nextFatSize at hfix
        omega
      · rw [if_neg hfix]
        rw [pow_succ] at hup hdown
        refine sizeFat_converges hlow hhigh hs1 hs2 rfl ?_ ?_
        · unfold nextFatSize at hs ⊢
          omega
        · unfold nextFatSize at hs ⊢
          omega

/-- The loop ends with a quotient of a 32-bit number by 512. -/
theorem sizeFat_lt {total rounds s spf : Nat} (hs : s < 2 ^ 23)
    (h : sizeFat total rounds s = some spf) : spf < 2 ^ 23 := by
  induction rounds generalizing s with
  | zero => exact Option.some.inj h ▸ hs
  | succ rounds ih =>
      rw [sizeFat] at h
      split at h
      · simp at h
      · dsimp only at h
        split at h
        · exact Option.some.inj h ▸ hs
        · refine ih ?_ h
          have hlt : ∀ x, add32 x 511 &&& not32 511 < 2 ^ 32 := fun x =>
            Nat.lt_of_le_of_lt Nat.and_le_left (add32_lt x 511)
          exact Nat.div_lt_of_lt_mul (hlt _)

/-- The FAT size of a device. -/
theorem sizeFat_spec {total : Nat} (hlow : 256 ≤ total) (hhigh : total ≤ fatSizeLimit) :
    ∃ spf, sizeFat total 8 1 = some spf ∧ 1 ≤ spf ∧ spf ≤ (total + 95) / 128 ∧
      total ≤ 130 * spf + 32 := by
  have hone : 1 ≤ (total + 95) / 128 := by omega
  rw [sizeFat_succ hlow hhigh (le_refl _) hone]
  by_cases hfix : nextFatSize total 1 = 1
  · rw [if_pos hfix]
    refine ⟨1, rfl, le_refl _, hone, ?_⟩
    unfold nextFatSize at hfix
    omega
  · rw [if_neg hfix]
    have hhigh' : total ≤ 2 ^ 30 - 96 := hhigh
    refine sizeFat_converges hlow hhigh (le_refl _) hone rfl ?_ ?_
    · unfold nextFatSize
      omega
    · omega

/-! ## Geometry -/

/-- The volume on a device with FATs of `spf` sectors. -/
def formattedFs (dev : BlockDev) (spf : Nat) : Fat32Fs where
  dev
  sectorsPerCluster := 1
  reservedSectors := 32
  fatCount := 2
  sectorsPerFat := spf
  rootCluster := 2
  fatStartLba := 32
  dataStartLba := 32 + 2 * spf
  totalClusters := dev.sectorCount - (32 + 2 * spf)

/-- A volume as `fat32_format` lays it out: 32 reserved sectors, two FATs, one
sector a cluster up to the end of the device. -/
structure Geometry (fs : Fat32Fs) : Prop where
  writable : fs.dev.writable = true
  sectorsPerCluster : fs.sectorsPerCluster = 1
  fatCount : fs.fatCount = 2
  rootCluster : fs.rootCluster = 2
  fatStart : fs.fatStartLba = 32
  dataStart : fs.dataStartLba = 32 + 2 * fs.sectorsPerFat
  total : fs.dataStartLba + fs.totalClusters = fs.dev.sectorCount
  fat_pos : 1 ≤ fs.sectorsPerFat
  clusters_pos : 2 ≤ fs.totalClusters
  covers : fs.totalClusters ≤ 128 * fs.sectorsPerFat
  count_le : fs.dev.sectorCount ≤ fatSizeLimit

namespace Geometry

variable {fs : Fat32Fs} (hg : Geometry fs)
include hg

theorem count_lt : fs.dev.sectorCount < 2 ^ 30 :=
  Nat.lt_of_le_of_lt hg.count_le (by decide)

/-- The bytes of a cluster. -/
theorem cluster_bytes : mul32 512 fs.sectorsPerCluster = 512 := by
  rw [hg.sectorsPerCluster]
  rfl

/-- The sector of a cluster. -/
theorem clusterToLba_eq {c : Nat} (h2 : 2 ≤ c) (hc : c < fs.totalClusters + 2) :
    clusterToLba fs c = fs.dataStartLba + (c - 2) := by
  have hlt := hg.count_lt
  have htotal := hg.total
  unfold clusterToLba
  rw [hg.sectorsPerCluster, sub32_of_le h2 (by omega), mul32_of_lt (by omega),
    add32_of_lt (by omega), Nat.mul_one]

theorem dataStart_lt_clusterToLba {c : Nat} (h3 : 3 ≤ c) (hc : c < fs.totalClusters + 2) :
    fs.dataStartLba < clusterToLba fs c := by
  rw [hg.clusterToLba_eq (by omega) hc]
  omega

theorem clusterToLba_inj {c c' : Nat} (h2 : 2 ≤ c) (hc : c < fs.totalClusters + 2) (h2' : 2 ≤ c')
    (hc' : c' < fs.totalClusters + 2) (hlba : clusterToLba fs c = clusterToLba fs c') : c = c' := by
  rw [hg.clusterToLba_eq h2 hc, hg.clusterToLba_eq h2' hc'] at hlba
  omega

/-- The root directory's sector. -/
theorem rootLba_eq : rootLba fs = fs.dataStartLba := by
  have hpos := hg.clusters_pos
  rw [rootLba, hg.rootCluster, hg.clusterToLba_eq (le_refl _) (by omega), Nat.sub_self, Nat.add_zero]

/-- A cluster's sector is on the device. -/
theorem clusterToLba_lt {c : Nat} (h2 : 2 ≤ c) (hc : c < fs.totalClusters + 2) :
    clusterToLba fs c < fs.dev.sectorCount := by
  have htotal := hg.total
  rw [hg.clusterToLba_eq h2 hc]
  omega

theorem rootLba_lt : fs.dataStartLba < fs.dev.sectorCount := by
  have htotal := hg.total
  have hpos := hg.clusters_pos
  omega

end Geometry

/-- What the sizing loop guarantees makes `formattedFs` a good geometry. -/
theorem geometry_formattedFs {dev : BlockDev} {spf : Nat} (hw : dev.writable = true)
    (hlow : 256 ≤ dev.sectorCount) (hhigh : dev.sectorCount ≤ fatSizeLimit) (h1 : 1 ≤ spf)
    (h2 : spf ≤ (dev.sectorCount + 95) / 128) (h3 : dev.sectorCount ≤ 130 * spf + 32) :
    Geometry (formattedFs dev spf) :=
  ⟨hw, rfl, rfl, rfl, rfl, rfl, by simp only [formattedFs]; omega, h1,
    by simp only [formattedFs]; omega, by simp only [formattedFs]; omega, hhigh⟩

/-! ## What `fat32_format` writes -/

/-- The sectors of a device after `fat32_format`. -/
def formatSectors (total spf : Nat) (s : Nat → Mem) : Nat → Mem := fun lba =>
  if lba = 32 + 2 * spf then zeroSector
  else if lba = 32 ∨ lba = 32 + spf then fatHeadSector
  else if lba = 0 ∨ lba = 6 then bootSector total spf
  else if lba = 1 ∨ lba = 7 then fsInfoSector (total - (32 + 2 * spf) - 1)
  else if lba = 2 then signatureSector
  else s lba

section Format

variable {dev : BlockDev} {d d' : Disk}

/-- A write that succeeds was served. -/
theorem fat32IoWrite_some {lba : Nat} {sec : Mem} {u : Unit}
    (h : fat32IoWrite dev lba sec d = (some u, d')) :
    dev.writable = true ∧ dev.Serves lba d.requests ∧ d' = (d.put lba sec).tick 1 := by
  unfold fat32IoWrite at h
  split at h
  · rename_i hw
    by_cases hs : dev.Serves lba d.requests
    · rw [BlockDev.write_ok hs] at h
      exact ⟨hw, hs, (Prod.mk.inj h).2.symm⟩
    · rw [BlockDev.write_fail hs] at h
      simp at h
  · simp at h

/-- A write changes one sector at most. -/
theorem fat32IoWrite_of_ne {lba lba' : Nat} (h : lba' ≠ lba) (sec : Mem) (d : Disk) :
    (fat32IoWrite dev lba sec d).2.sectors lba' = d.sectors lba' := by
  unfold fat32IoWrite
  split
  · exact BlockDev.write_of_ne h sec
  · rfl

/-- A read that succeeds was served. -/
theorem fat32IoRead_some {lba : Nat} {sec : Mem} (h : fat32IoRead dev lba d = (some sec, d')) :
    dev.Serves lba d.requests ∧ sec = d.sectors lba ∧ d' = d.tick 1 := by
  unfold fat32IoRead at h
  by_cases hs : dev.Serves lba d.requests
  · rw [BlockDev.read_ok hs] at h
    obtain ⟨h1, h2⟩ := Prod.mk.inj h
    exact ⟨hs, (Option.some.inj h1).symm, h2.symm⟩
  · rw [BlockDev.read_fail hs] at h
    simp at h

/-- A successful run of the ten requests writes `formatSectors`. -/
theorem writeFormat_ok {spf : Nat} (hfit : 32 + 2 * spf < dev.sectorCount)
    (h : writeFormat dev spf (dev.sectorCount - (32 + 2 * spf) - 1) d = (.ok (), d')) :
    d'.sectors = formatSectors dev.sectorCount spf d.sectors := by
  have hlt := dev.sectorCount_lt
  have hdata : add32 32 (mul32 2 spf) = 32 + 2 * spf := by
    rw [mul32_of_lt (by omega), add32_of_lt (by omega)]
  have hfat : add32 32 spf = 32 + spf := add32_of_lt (by omega : 32 + spf < 2 ^ 32)
  simp only [writeFormat, hdata, hfat] at h
  obtain ⟨_, e0, hw0, h⟩ := orFail_ok h
  obtain ⟨_, e1, hw1, h⟩ := orFail_ok h
  obtain ⟨_, e2, hw2, h⟩ := orFail_ok h
  obtain ⟨boot, e3, hr0, h⟩ := orFail_ok h
  obtain ⟨_, e4, hw6, h⟩ := orFail_ok h
  obtain ⟨info, e5, hr1, h⟩ := orFail_ok h
  obtain ⟨_, e6, hw7, h⟩ := orFail_ok h
  obtain ⟨_, e7, hfat0, h⟩ := orFail_ok h
  obtain ⟨_, e8, hfat1, h⟩ := orFail_ok h
  obtain ⟨_, e9, hroot, h⟩ := orFail_ok h
  obtain ⟨-, -, rfl⟩ := fat32IoWrite_some hw0
  obtain ⟨-, -, rfl⟩ := fat32IoWrite_some hw1
  obtain ⟨-, -, rfl⟩ := fat32IoWrite_some hw2
  obtain ⟨-, hboot, rfl⟩ := fat32IoRead_some hr0
  obtain ⟨-, -, rfl⟩ := fat32IoWrite_some hw6
  obtain ⟨-, hinfo, rfl⟩ := fat32IoRead_some hr1
  obtain ⟨-, -, rfl⟩ := fat32IoWrite_some hw7
  obtain ⟨-, -, rfl⟩ := fat32IoWrite_some hfat0
  obtain ⟨-, -, rfl⟩ := fat32IoWrite_some hfat1
  obtain ⟨-, -, rfl⟩ := fat32IoWrite_some hroot
  obtain ⟨-, rfl⟩ := Prod.mk.inj h
  -- the backups are copies of the two sectors written first
  replace hboot : boot = bootSector dev.sectorCount spf := by
    simpa [Function.update_apply] using hboot
  replace hinfo : info = fsInfoSector (dev.sectorCount - (32 + 2 * spf) - 1) := by
    simpa [Function.update_apply] using hinfo
  clear hw0 hw1 hw2 hr0 hw6 hr1 hw7 hfat0 hfat1 hroot
  funext lba
  simp only [Disk.sectors_tick, Disk.sectors_put, formatSectors, Function.update_apply, hboot, hinfo]
  by_cases hroot : lba = 32 + 2 * spf
  · rw [if_pos hroot, if_pos hroot]
  by_cases hfat1 : lba = 32 + spf
  · rw [if_neg hroot, if_neg hroot, if_pos hfat1, if_pos (Or.inr hfat1)]
  by_cases hfat0 : lba = 32
  · rw [if_neg hroot, if_neg hroot, if_neg hfat1, if_pos hfat0, if_pos (Or.inl hfat0)]
  rw [if_neg hroot, if_neg hroot, if_neg hfat1, if_neg hfat0, if_neg (not_or.mpr ⟨hfat0, hfat1⟩)]
  -- the five sectors at the start
  split_ifs <;> first | rfl | omega

/-- A successful `fat32_format`, on a device of any size. -/
theorem fat32Format_some (h : fat32Format dev d = (.ok (), d')) :
    dev.sectorSize = 512 ∧ dev.writable = true ∧ 256 ≤ dev.sectorCount ∧
    ∃ spf, sizeFat dev.sectorCount 8 1 = some spf ∧ spf < 2 ^ 23 ∧
      33 + 2 * spf < dev.sectorCount ∧
      d'.sectors = formatSectors dev.sectorCount spf d.sectors := by
  have hlt := dev.sectorCount_lt
  simp only [fat32Format] at h
  split at h
  · simp at h
  rename_i hw
  split at h
  · simp at h
  rename_i hsize
  split at h
  · simp at h
  rename_i hlow
  cases hspf : sizeFat dev.sectorCount 8 1 with
  | none => simp [hspf] at h
  | some spf =>
      have hspf23 := sizeFat_lt (by decide) hspf
      have hmul : mul32 2 spf = 2 * spf := mul32_of_lt (by omega)
      have hadd : add32 (add32 32 (2 * spf)) 1 = 33 + 2 * spf := by
        rw [add32_of_lt (by omega : 32 + 2 * spf < 2 ^ 32), add32_of_lt (by omega)]
        omega
      simp only [hspf, hmul, hadd] at h
      split at h
      · simp at h
      rename_i hfit
      have hdata : sub32 (sub32 dev.sectorCount 32) (2 * spf) = dev.sectorCount - (32 + 2 * spf) := by
        rw [sub32_of_le (by omega : 32 ≤ dev.sectorCount) hlt, sub32_of_le (by omega) (by omega)]
        omega
      have hfree : sub32 (dev.sectorCount - (32 + 2 * spf)) 1
          = dev.sectorCount - (32 + 2 * spf) - 1 := sub32_of_le (by omega) (by omega)
      simp only [hdata, Nat.div_one, hfree] at h
      rw [if_neg (by omega)] at h
      exact ⟨by simpa using hsize, by simpa using hw, Nat.not_lt.mp hlow, spf, rfl, hspf23,
        Nat.not_le.mp hfit, writeFormat_ok (by omega) h⟩

/-- A successful `fat32_format` below the limit. -/
theorem fat32Format_ok (hhigh : dev.sectorCount ≤ fatSizeLimit)
    (h : fat32Format dev d = (.ok (), d')) :
    dev.sectorSize = 512 ∧ ∃ spf, sizeFat dev.sectorCount 8 1 = some spf ∧
      Geometry (formattedFs dev spf) ∧
      d'.sectors = formatSectors dev.sectorCount spf d.sectors := by
  obtain ⟨hsize, hw, hlow, spf, hspf, -, -, hsectors⟩ := fat32Format_some h
  obtain ⟨spf', hspf', h1, h2, h3⟩ := sizeFat_spec hlow hhigh
  obtain rfl := Option.some.inj (hspf.symm.trans hspf')
  exact ⟨hsize, spf, hspf, geometry_formattedFs hw hlow hhigh h1 h2 h3, hsectors⟩

/-! ## What `fat32_mount` reads back -/

/-- The bytes of the boot sector that `fat32_mount` looks at. -/
theorem bootSector_byte (total spf : Nat) :
    bootSector total spf 510 = 0x55 ∧ bootSector total spf 511 = 0xAA ∧
      bootSector total spf 13 = 1 ∧ bootSector total spf 16 = 2 :=
  ⟨rfl, rfl, rfl, rfl⟩

/-- The words of the boot sector that `fat32_mount` looks at. -/
theorem bootSector_word {total spf : Nat} (htotal : total < 2 ^ 32) (hspf : spf < 2 ^ 32) :
    ld16 (bootSector total spf) 11 = 512 ∧ ld16 (bootSector total spf) 14 = 32 ∧
      ld16 (bootSector total spf) 17 = 0 ∧ ld32 (bootSector total spf) 32 = total ∧
      ld32 (bootSector total spf) 36 = spf ∧ ld32 (bootSector total spf) 44 = 2 := by
  refine ⟨?_, ?_, ?_, ?_, ?_, ?_⟩
  · exact @ld16_of_bytes _ _ 0 2 rfl rfl
  · exact @ld16_of_bytes _ _ 32 0 rfl rfl
  · exact @ld16_of_bytes _ _ 0 0 rfl rfl
  · exact ld32_of_bytes htotal rfl rfl rfl rfl
  · exact ld32_of_bytes hspf rfl rfl rfl rfl
  · exact ld32_of_bytes (by decide) rfl rfl rfl rfl

/-- `fat32_mount` accepts the boot sector of `fat32_format`. -/
theorem mountSector_formatted {spf : Nat} (hfit : 33 + 2 * spf < dev.sectorCount) :
    mountSector dev (bootSector dev.sectorCount spf) = some (.ok (formattedFs dev spf)) := by
  have hlt := dev.sectorCount_lt
  obtain ⟨h510, h511, h13, h16⟩ := bootSector_byte dev.sectorCount spf
  obtain ⟨w11, w14, w17, w32, w36, w44⟩ :=
    @bootSector_word _ spf hlt (by omega)
  have hdata : add32 32 (mul32 2 spf) = 32 + 2 * spf := by
    rw [mul32_of_lt (by omega), add32_of_lt (by omega)]
  have hone : (1 : UInt8).toNat = 1 := rfl
  have htwo : (2 : UInt8).toNat = 2 := rfl
  simp only [mountSector, h510, h511, h13, h16, w11, w14, w17, w32, w36, w44, hone, htwo, hdata,
    if_neg (show dev.sectorCount ≠ 0 by omega), Nat.div_one]
  rw [if_neg (by simp), if_neg (by simp), if_neg (by simp), if_neg (by omega), if_neg (by simp),
    if_neg (by omega)]
  rfl

theorem mountSector_bootSector {spf : Nat} (hg : Geometry (formattedFs dev spf)) :
    mountSector dev (bootSector dev.sectorCount spf) = some (.ok (formattedFs dev spf)) := by
  have htotal := hg.total
  have hpos := hg.clusters_pos
  simp only [formattedFs] at htotal hpos
  exact mountSector_formatted (by omega)

end Format

/-! ## Devices that work -/

section Works

variable {dev : BlockDev} (hworks : ∀ n, dev.fails n = false)
include hworks

theorem fat32IoRead_works {lba : Nat} (hlba : lba < dev.sectorCount) (d : Disk) :
    fat32IoRead dev lba d = (some (d.sectors lba), d.tick 1) :=
  BlockDev.read_ok (BlockDev.serves_of_works hworks hlba _)

theorem fat32IoWrite_works (hw : dev.writable = true) {lba : Nat} (hlba : lba < dev.sectorCount)
    (sec : Mem) (d : Disk) :
    fat32IoWrite dev lba sec d = (some (), (d.put lba sec).tick 1) := by
  rw [fat32IoWrite, if_pos hw]
  exact BlockDev.write_ok (BlockDev.serves_of_works hworks hlba _)

/-- On a device that works `fat32_format` succeeds where its layout fits. -/
theorem fat32Format_fits (hw : dev.writable = true) (hsize : dev.sectorSize = 512)
    (hlow : 256 ≤ dev.sectorCount) {spf : Nat} (hspf : sizeFat dev.sectorCount 8 1 = some spf)
    (hfit : 33 + 2 * spf < dev.sectorCount) (d : Disk) : ∃ d', fat32Format dev d = (.ok (), d') := by
  have hlt := dev.sectorCount_lt
  have hmul : mul32 2 spf = 2 * spf := mul32_of_lt (by omega)
  have hdata : add32 32 (2 * spf) = 32 + 2 * spf := add32_of_lt (by omega)
  have hadd : add32 (32 + 2 * spf) 1 = 33 + 2 * spf := by
    rw [add32_of_lt (by omega)]
    omega
  have hsub : sub32 (sub32 dev.sectorCount 32) (2 * spf) = dev.sectorCount - (32 + 2 * spf) := by
    rw [sub32_of_le (by omega : 32 ≤ dev.sectorCount) (by omega), sub32_of_le (by omega) (by omega)]
    omega
  have hfat : add32 32 spf = 32 + spf := add32_of_lt (by omega)
  simp only [fat32Format, hspf, hmul, hdata, hadd, hsub, Nat.div_one]
  rw [if_neg (by simp [hw]), if_neg (by simp [hsize]), if_neg (by omega), if_neg (by omega),
    if_neg (by omega)]
  simp (disch := first | assumption | omega) only [writeFormat, hmul, hdata, hfat,
    fat32IoWrite_works, fat32IoRead_works, orFail_some]
  exact ⟨_, rfl⟩

/-- Below the limit it always fits. -/
theorem fat32Format_total (hw : dev.writable = true) (hsize : dev.sectorSize = 512)
    (hlow : 256 ≤ dev.sectorCount) (hhigh : dev.sectorCount ≤ fatSizeLimit) (d : Disk) :
    ∃ d', fat32Format dev d = (.ok (), d') := by
  obtain ⟨spf, hspf, -, h2, -⟩ := sizeFat_spec hlow hhigh
  exact fat32Format_fits hworks hw hsize hlow hspf (by omega) d

end Works

/-- `fat32_format` and `fat32_mount` succeed on `before` and leave the volume
`fs` on the disk `d`. -/
def Formatted (dev : BlockDev) (before : Disk) (fs : Fat32Fs) (d : Disk) : Prop :=
  ∃ mid, fat32Format dev before = (.ok (), mid) ∧ fat32Mount dev mid = some (.ok fs, d)

/-- The volume that is mounted, and the sectors, for a device of any size. -/
theorem Formatted.layout {dev : BlockDev} {before d : Disk} {fs : Fat32Fs}
    (h : Formatted dev before fs d) : ∃ spf, sizeFat dev.sectorCount 8 1 = some spf ∧
      fs = formattedFs dev spf ∧ d.sectors = formatSectors dev.sectorCount spf before.sectors := by
  obtain ⟨mid, hformat, hmount⟩ := h
  obtain ⟨hsize, -, -, spf, hspf, -, hfit, hsectors⟩ := fat32Format_some hformat
  rw [fat32Mount, if_neg (by simp [hsize])] at hmount
  split at hmount
  · simp at hmount
  · rename_i sec mid' hread
    obtain ⟨-, rfl, rfl⟩ := fat32IoRead_some hread
    have hboot : mid.sectors 0 = bootSector dev.sectorCount spf := by
      rw [hsectors, formatSectors, if_neg (by omega), if_neg (by omega), if_pos (Or.inl rfl)]
    rw [hboot, mountSector_formatted hfit] at hmount
    simp only [Option.map_some, Option.some.injEq, Prod.mk.injEq, Except.ok.injEq] at hmount
    obtain ⟨rfl, rfl⟩ := hmount
    exact ⟨spf, hspf, rfl, hsectors⟩

theorem Formatted.dev_eq {dev : BlockDev} {before d : Disk} {fs : Fat32Fs}
    (h : Formatted dev before fs d) : fs.dev = dev := by
  obtain ⟨spf, -, rfl, -⟩ := h.layout
  rfl

/-- The volume and the sectors after `fat32_format` and `fat32_mount`. -/
theorem Formatted.spec {dev : BlockDev} {before d : Disk} {fs : Fat32Fs}
    (h : Formatted dev before fs d) (hhigh : dev.sectorCount ≤ fatSizeLimit) :
    Geometry fs ∧ fs.dev = dev ∧ fs.totalClusters = dev.sectorCount - (32 + 2 * fs.sectorsPerFat) ∧
      d.sectors = formatSectors dev.sectorCount fs.sectorsPerFat before.sectors := by
  obtain ⟨spf, hspf, rfl, hsectors⟩ := h.layout
  obtain ⟨mid, hformat, -⟩ := h
  obtain ⟨-, spf', hspf', hg, -⟩ := fat32Format_ok hhigh hformat
  obtain rfl := Option.some.inj (hspf.symm.trans hspf')
  exact ⟨hg, rfl, rfl, hsectors⟩

/-- Every disk of a device that works can be formatted and mounted. -/
theorem formatted_total {dev : BlockDev} (hworks : ∀ n, dev.fails n = false)
    (hw : dev.writable = true) (hsize : dev.sectorSize = 512) (hlow : 256 ≤ dev.sectorCount)
    (hhigh : dev.sectorCount ≤ fatSizeLimit) (before : Disk) :
    ∃ spf d, sizeFat dev.sectorCount 8 1 = some spf ∧
      Formatted dev before (formattedFs dev spf) d := by
  obtain ⟨mid, hformat⟩ := fat32Format_total hworks hw hsize hlow hhigh before
  obtain ⟨-, spf, hspf, hg, hsectors⟩ := fat32Format_ok hhigh hformat
  have hboot : mid.sectors 0 = bootSector dev.sectorCount spf := by
    rw [hsectors, formatSectors, if_neg (by omega), if_neg (by omega), if_pos (Or.inl rfl)]
  refine ⟨spf, mid.tick 1, hspf, mid, hformat, ?_⟩
  rw [fat32Mount, if_neg (by simp [hsize]), fat32IoRead_works hworks (by omega)]
  simp only [hboot, mountSector_bootSector hg, Option.map_some]

/-- A format that succeeds is mounted by a read that is served. -/
theorem formatted_of_isOk {dev : BlockDev} {before : Disk} {spf : Nat}
    (hspf : sizeFat dev.sectorCount 8 1 = some spf)
    (hok : (fat32Format dev before).1.isOk = true)
    (hserves : dev.Serves 0 (fat32Format dev before).2.requests) :
    Formatted dev before (formattedFs dev spf) ((fat32Format dev before).2.tick 1) := by
  generalize hformat : fat32Format dev before = r at hok hserves
  obtain ⟨rc, mid⟩ := r
  cases rc with
  | error msg => cases hok
  | ok u =>
      obtain ⟨hsize, -, -, spf', hspf', -, hfit, hsectors⟩ := fat32Format_some hformat
      obtain rfl := Option.some.inj (hspf.symm.trans hspf')
      have hboot : mid.sectors 0 = bootSector dev.sectorCount spf := by
        rw [hsectors, formatSectors, if_neg (by omega), if_neg (by omega), if_pos (Or.inl rfl)]
      refine ⟨mid, hformat, ?_⟩
      rw [fat32Mount, if_neg (by simp [hsize]), fat32IoRead, BlockDev.read_ok hserves]
      simp only [hboot, mountSector_formatted hfit, Option.map_some]

end RoninOS.Fs
