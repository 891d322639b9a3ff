/-
RoninOS.Fs.Fat32Mount — what `fat32_mount` accepts.

`fat32_mount` checks the signature, two fields, that the data area is not empty
and that it holds a cluster. It divides before it looks at the divisor, and it
compares the fields neither with the device nor with each other. `BootSane` are
the checks on the boot sector that are missing: with them every volume it
accepts is a `SoundVolume`, and only with them.
-/
import RoninOS.Fs.Fat32Sizing

namespace RoninOS.Fs

open RoninOS.Lib

/-! ## Sound volumes -/

/-- A volume whose clusters are sectors of its device and have FAT entries. -/
structure SoundVolume (fs : Fat32Fs) : Prop where
  cluster_pos : 1 ≤ fs.sectorsPerCluster
  no_wrap : fs.reservedSectors + fs.fatCount * fs.sectorsPerFat < 2 ^ 32
  root : 2 ≤ fs.rootCluster ∧ fs.rootCluster < fs.totalClusters + 2
  data_fits : fs.dataStartLba + fs.totalClusters * fs.sectorsPerCluster ≤ fs.dev.sectorCount
  covers : FatCovers fs
  on_device : ∀ c, 2 ≤ c → c < fs.totalClusters + 2 → clusterToLba fs c < fs.dev.sectorCount

/-- The data area on the device puts every cluster there. -/
theorem clusterToLba_lt_of_fits {fs : Fat32Fs} (hpos : 1 ≤ fs.sectorsPerCluster)
    (hfits : fs.dataStartLba + fs.totalClusters * fs.sectorsPerCluster ≤ fs.dev.sectorCount)
    {c : Nat} (h2 : 2 ≤ c) (hc : c < fs.totalClusters + 2) :
    clusterToLba fs c < fs.dev.sectorCount := by
  have hlt := fs.dev.sectorCount_lt
  -- the cluster ends in the data area
  have hend : (c - 2 + 1) * fs.sectorsPerCluster ≤ fs.totalClusters * fs.sectorsPerCluster :=
    Nat.mul_le_mul_right _ (by omega)
  have hlast : c - 2 ≤ (c - 2) * fs.sectorsPerCluster := Nat.le_mul_of_pos_right _ hpos
  rw [Nat.add_mul, Nat.one_mul] at hend
  have hclusters : fs.totalClusters ≤ fs.totalClusters * fs.sectorsPerCluster :=
    Nat.le_mul_of_pos_right _ hpos
  have hindex : sub32 c 2 = c - 2 := by
    unfold sub32
    omega
  rw [clusterToLba, hindex, mul32_of_lt (by omega), add32_of_lt (by omega)]
  omega

/-- `fat32_mount` does not divide by zero, and what it accepts is sound. -/
structure MountSound (dev : BlockDev) (d : Disk) : Prop where
  no_fault : fat32Mount dev d ≠ none
  sound : ∀ fs d', fat32Mount dev d = some (.ok fs, d') → SoundVolume fs

/-! ## The boot sector -/

section Boot

variable (dev : BlockDev) (sec : Mem)

/-- `data_start_lba`, in 32 bits. -/
def bootDataStart : Nat := add32 (ld16 sec 14) (mul32 (sec 16).toNat (ld32 sec 36))

/-- `total_sectors`. -/
def bootTotal : Nat := if ld32 sec 32 = 0 then ld16 sec 19 else ld32 sec 32

/-- The checks that `fat32_mount` makes before it divides. -/
structure BootChecked : Prop where
  signature : sec 510 = 0x55 ∧ sec 511 = 0xAA
  sector_size : ld16 sec 11 = 512
  root_entries : ld16 sec 17 = 0
  data_area : bootDataStart sec < bootTotal sec

/-- The checks that it does not make: on the divisor, and where the data area
holds a cluster, on the sum of the reserved sectors and the FATs, on the root
cluster, on the device's size and on the size of the FAT. -/
structure BootSane : Prop where
  divisor : sec 13 ≠ 0
  metadata : (sec 13).toNat ≤ bootTotal sec - bootDataStart sec →
    ld16 sec 14 + (sec 16).toNat * ld32 sec 36 < bootTotal sec
  root : (sec 13).toNat ≤ bootTotal sec - bootDataStart sec →
    2 ≤ ld32 sec 44 ∧ (ld32 sec 44 - 1) * (sec 13).toNat ≤ bootTotal sec - bootDataStart sec
  device : (sec 13).toNat ≤ bootTotal sec - bootDataStart sec →
    bootTotal sec - (bootTotal sec - bootDataStart sec) % (sec 13).toNat ≤ dev.sectorCount
  fat : (sec 13).toNat ≤ bootTotal sec - bootDataStart sec →
    bootTotal sec - bootDataStart sec < (128 * ld32 sec 36 - 1) * (sec 13).toNat

/-- The volume of a boot sector. -/
def bootVolume : Fat32Fs where
  dev
  sectorsPerCluster := (sec 13).toNat
  reservedSectors := ld16 sec 14
  fatCount := (sec 16).toNat
  sectorsPerFat := ld32 sec 36
  rootCluster := ld32 sec 44
  fatStartLba := ld16 sec 14
  dataStartLba := bootDataStart sec
  totalClusters := (bootTotal sec - bootDataStart sec) / (sec 13).toNat

/-- Everything `fat32_mount` can do with a boot sector. -/
inductive MountOutcome : Option (Except String Fat32Fs) → Prop
  | rejected {msg : String} : ¬ BootChecked sec → MountOutcome (some (.error msg))
  | faulted : BootChecked sec → sec 13 = 0 → MountOutcome none
  | empty {msg : String} : sec 13 ≠ 0 → bootTotal sec - bootDataStart sec < (sec 13).toNat →
      MountOutcome (some (.error msg))
  | mounted : BootChecked sec → sec 13 ≠ 0 →
      (sec 13).toNat ≤ bootTotal sec - bootDataStart sec →
      MountOutcome (some (.ok (bootVolume dev sec)))

theorem mountSector_outcome : MountOutcome dev sec (mountSector dev sec) := by
  unfold mountSector
  split
  · rename_i h
    exact .rejected fun hok => h.elim (fun h => h hok.signature.1) fun h => h hok.signature.2
  rename_i hsignature
  split
  · rename_i h
    exact .rejected fun hok => h hok.sector_size
  rename_i hsize
  split
  · rename_i h
    exact .rejected fun hok => h hok.root_entries
  rename_i hentries
  have htotal : (if ld32 sec 32 = 0 then ld16 sec 19 else ld32 sec 32) = bootTotal sec := rfl
  have hstart : add32 (ld16 sec 14) (mul32 (sec 16).toNat (ld32 sec 36)) = bootDataStart sec := rfl
  simp only [htotal, hstart]
  split
  · rename_i h
    exact .rejected fun hok => Nat.not_le.mpr hok.data_area h
  rename_i harea
  have hchecked : BootChecked sec :=
    ⟨by simpa using hsignature, by simpa using hsize, by simpa using hentries, Nat.not_le.mp harea⟩
  split
  · rename_i h
    exact .faulted hchecked (UInt8.toNat_inj.mp h)
  rename_i hdivisor
  have hne : sec 13 ≠ 0 := fun h => hdivisor (by rw [h]; rfl)
  split
  · rename_i h
    exact .empty hne ((Nat.div_eq_zero_iff_lt (Nat.pos_of_ne_zero hdivisor)).mp h)
  · rename_i h
    refine .mounted hchecked hne ?_
    by_contra hlt
    exact h (Nat.div_eq_of_lt (Nat.not_le.mp hlt))

/-- The volume of a boot sector with an accepted data area is sound exactly where
the missing checks pass. -/
theorem soundVolume_iff (hchecked : BootChecked sec) (hne : sec 13 ≠ 0)
    (hcluster : (sec 13).toNat ≤ bootTotal sec - bootDataStart sec) :
    SoundVolume (bootVolume dev sec) ↔ BootSane dev sec := by
  have hpos : 0 < (sec 13).toNat := by
    have : (sec 13).toNat ≠ 0 := fun h => hne (UInt8.toNat_inj.mp h)
    omega
  have harea := hchecked.data_area
  have htotal : bootTotal sec < 2 ^ 32 := by
    have h16 := ld16_lt sec 19
    have h32 := ld32_lt sec 32
    unfold bootTotal
    split <;> omega
  -- each check, on the cluster count and on the fields
  have hmetadata : ld16 sec 14 + (sec 16).toNat * ld32 sec 36 < 2 ^ 32 ↔
      ld16 sec 14 + (sec 16).toNat * ld32 sec 36 < bootTotal sec := by
    unfold bootDataStart add32 mul32 at harea
    omega
  have hroot : ld32 sec 44 - 1 ≤ (bootTotal sec - bootDataStart sec) / (sec 13).toNat ↔
      (ld32 sec 44 - 1) * (sec 13).toNat ≤ bootTotal sec - bootDataStart sec :=
    Nat.le_div_iff_mul_le hpos
  have hfat : (bootTotal sec - bootDataStart sec) / (sec 13).toNat < 128 * ld32 sec 36 - 1 ↔
      bootTotal sec - bootDataStart sec < (128 * ld32 sec 36 - 1) * (sec 13).toNat :=
    Nat.div_lt_iff_lt_mul hpos
  have hdata : bootDataStart sec
      + (bootTotal sec - bootDataStart sec) / (sec 13).toNat * (sec 13).toNat
      = bootTotal sec - (bootTotal sec - bootDataStart sec) % (sec 13).toNat := by
    have hdiv := Nat.div_add_mod' (bootTotal sec - bootDataStart sec) (sec 13).toNat
    omega
  constructor
  · intro h
    have hroot' := h.root
    have hdata' := h.data_fits
    have hcovers := h.covers
    simp only [bootVolume, FatCovers] at hroot' hdata' hcovers
    refine ⟨hne, fun _ => hmetadata.mp h.no_wrap, fun _ => ⟨hroot'.1, hroot.mp (by omega)⟩,
      fun _ => hdata ▸ hdata', fun _ => hfat.mp (by omega)⟩
  · intro h
    obtain ⟨hroot2, hroot'⟩ := h.root hcluster
    have hrange := hroot.mpr hroot'
    have hentries := hfat.mpr (h.fat hcluster)
    have hfits : (bootVolume dev sec).dataStartLba + (bootVolume dev sec).totalClusters
        * (bootVolume dev sec).sectorsPerCluster ≤ dev.sectorCount := by
      simp only [bootVolume]
      rw [hdata]
      exact h.device hcluster
    refine ⟨hpos, hmetadata.mpr (h.metadata hcluster), ?_, hfits, ?_,
      fun c => @clusterToLba_lt_of_fits (bootVolume dev sec) hpos hfits c⟩
    · simp only [bootVolume]
      omega
    · simp only [bootVolume, FatCovers]
      omega

end Boot

/-- `fat32_mount` is sound exactly where the boot sector fails its checks or
passes the missing ones too. -/
theorem mount_sound_iff (dev : BlockDev) (d : Disk) : MountSound dev d ↔
    (dev.sectorSize = 512 → dev.Serves 0 d.requests → BootChecked (d.sectors 0) →
      BootSane dev (d.sectors 0)) := by
  by_cases hreads : dev.sectorSize = 512 ∧ dev.Serves 0 d.requests
  · have hmount : fat32Mount dev d
        = (mountSector dev (d.sectors 0)).map fun r => (r, d.tick 1) := by
      rw [fat32Mount, if_neg (by simp [hreads.1]), fat32IoRead, BlockDev.read_ok hreads.2]
    have houtcome := mountSector_outcome dev (d.sectors 0)
    generalize mountSector dev (d.sectors 0) = r at houtcome hmount
    cases houtcome with
    | rejected hno =>
        refine iff_of_true ⟨by simp [hmount], fun fs d' h => ?_⟩ fun _ _ h => absurd h hno
        simp [hmount] at h
    | faulted hchecked hzero =>
        refine iff_of_false (fun h => h.no_fault (by simp [hmount])) fun h => ?_
        exact (h hreads.1 hreads.2 hchecked).divisor hzero
    | empty hne hlt =>
        refine iff_of_true ⟨by simp [hmount], fun fs d' h => ?_⟩ fun _ _ _ => ?_
        · simp [hmount] at h
        · exact ⟨hne, fun h => by omega, fun h => by omega, fun h => by omega, fun h => by omega⟩
    | mounted hchecked hne hcluster =>
        have hiff := soundVolume_iff dev (d.sectors 0) hchecked hne hcluster
        constructor
        · intro h _ _ _
          exact hiff.mp (h.sound _ (d.tick 1) (by simp [hmount]))
        · intro h
          refine ⟨by simp [hmount], fun fs d' heq => ?_⟩
          simp only [hmount, Option.map_some, Option.some.injEq, Prod.mk.injEq, Except.ok.injEq] at heq
          rw [← heq.1]
          exact hiff.mpr (h hreads.1 hreads.2 hchecked)
  · -- sector 0 is not read
    have hmount : ∃ msg d', fat32Mount dev d = some (.error msg, d') := by
      unfold fat32Mount
      split
      · exact ⟨_, _, rfl⟩
      · rename_i hsize
        rw [fat32IoRead, BlockDev.read_fail fun h => hreads ⟨by simpa using hsize, h⟩]
        exact ⟨_, _, rfl⟩
    obtain ⟨msg, d', hmount⟩ := hmount
    refine iff_of_true ⟨by simp [hmount], fun fs d' h => ?_⟩ fun h1 h2 => absurd ⟨h1, h2⟩ hreads
    simp [hmount] at h

/-- A boot sector of `fat32_format` whose sectors per cluster have become 0. -/
def zeroClusterDisk : Disk := ⟨fun _ => Function.update (bootSector 256 2) 13 0, 0⟩

theorem mount_divides_by_zero : ¬ MountSound exampleDev zeroClusterDisk := by
  intro h
  exact h.no_fault (by decide)

end RoninOS.Fs
