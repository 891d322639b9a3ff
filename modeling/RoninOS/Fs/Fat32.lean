/-
RoninOS.Fs.Fat32 — the FAT32 volume of `kernel/fs/fat32.c`.

A function of the source that returns -1 without a message returns `none` here,
and one that leaves its message in `g_fat32_last_error` returns that message as
`Except.error`; `fat32_list_root` alone does not reset the message on success.
`fat32_device_t` is the block device itself: `fat32_device_from_blockdev` copies
its sector size and count. Pointers are never null; a null name, which
`make_name83` rejects, behaves as the empty one.

A sector buffer is a memory that starts at 0. Copies of more than 512 bytes run
past the buffer in the source, and past byte 511 here.
-/
import RoninOS.Lib.BlockDev
import RoninOS.Lib.CString
import RoninOS.Lib.Word32

namespace RoninOS.Fs

open RoninOS.Lib

/-! ## Constants and types (`fat32.h`, `fat32.c`) -/

/-- `FAT32_ATTR_ARCHIVE`. -/
def fat32AttrArchive : UInt8 := 0x20
/-- `FAT32_EOC`. -/
def fat32Eoc : Nat := 0x0FFFFFFF

/-- `fat32_fs_t`. -/
structure Fat32Fs where
  dev : BlockDev
  sectorsPerCluster : Nat
  reservedSectors : Nat
  fatCount : Nat
  sectorsPerFat : Nat
  rootCluster : Nat
  fatStartLba : Nat
  dataStartLba : Nat
  totalClusters : Nat

/-- `fat32_dirent_t`; the name keeps its terminating NUL. -/
structure Fat32Dirent where
  name83 : List UInt8
  size : Nat
  deriving DecidableEq

/-! ## Sector I/O -/

/-- `fat32_io_read` of one sector, as every caller reads. -/
def fat32IoRead (dev : BlockDev) (sectorLba : Nat) (d : Disk) : Option Mem × Disk :=
  dev.read sectorLba d

/-- `fat32_io_write` of one sector, as every caller writes. -/
def fat32IoWrite (dev : BlockDev) (sectorLba : Nat) (sec : Mem) (d : Disk) : Option Unit × Disk :=
  if dev.writable then dev.write sectorLba sec d else (none, d)

/-- `memset(sec, 0, sizeof(sec))`. -/
def zeroSector : Mem := fun _ => 0

/-- `cluster_to_lba`. -/
def clusterToLba (fs : Fat32Fs) (cluster : Nat) : Nat :=
  add32 fs.dataStartLba (mul32 (sub32 cluster 2) fs.sectorsPerCluster)

/-! ## Names -/

/-- The loop of `make_name83`, with the bytes of `out11` filled so far at `pos`. -/
def makeName83Loop : List UInt8 → Nat → List UInt8 → Option (List UInt8)
  | [], _, out11 => some out11
  | c :: rest, pos, out11 =>
      let extPos := 8
      if c = 46 then
        if pos = 0 ∨ pos > 8 ∨ extPos ≠ 8 then none else makeName83Loop rest extPos out11
      else
        let c := if 97 ≤ c ∧ c ≤ 122 then c - 32 else c
        if ¬ ((65 ≤ c ∧ c ≤ 90) ∨ (48 ≤ c ∧ c ≤ 57) ∨ c = 95) then none
        else if pos < 8 then makeName83Loop rest (pos + 1) (out11.set pos c)
        else if pos ≥ 8 ∧ pos < 11 then makeName83Loop rest (pos + 1) (out11.set pos c)
        else none

/-- `make_name83`: the 11 bytes of `out11`, or `none` where it returns -1. -/
def makeName83 (name : List UInt8) : Option (List UInt8) :=
  if name = [] then none else makeName83Loop name 0 (List.replicate 11 32)

/-! ## The file allocation table -/

/-- The sector of a cluster's entry in the first FAT. -/
def fatLba (fs : Fat32Fs) (cluster : Nat) : Nat := add32 fs.fatStartLba (mul32 cluster 4 / 512)

/-- The byte of a cluster's entry in its sector. -/
def fatOffset (cluster : Nat) : Nat := mul32 cluster 4 % 512

/-- `fat_get`. -/
def fatGet (fs : Fat32Fs) (cluster : Nat) (d : Disk) : Nat × Disk :=
  match fat32IoRead fs.dev (fatLba fs cluster) d with
  | (none, d) => (fat32Eoc, d)
  | (some sec, d) => (ld32 sec (fatOffset cluster) &&& 0x0FFFFFFF, d)

/-- The loop over the FAT copies in `fat_set`, from copy `f` on. -/
def fatSetCopies (fs : Fat32Fs) (lba : Nat) (sec : Mem) : Nat → Nat → Disk → Option Unit × Disk
  | 0, _, d => (some (), d)
  | rounds + 1, f, d =>
      match fat32IoWrite fs.dev (add32 lba (mul32 f fs.sectorsPerFat)) sec d with
      | (none, d) => (none, d)
      | (some (), d) => fatSetCopies fs lba sec rounds (f + 1) d

/-- `fat_set`. -/
def fatSet (fs : Fat32Fs) (cluster val : Nat) (d : Disk) : Option Unit × Disk :=
  match fat32IoRead fs.dev (fatLba fs cluster) d with
  | (none, d) => (none, d)
  | (some sec, d) =>
      fatSetCopies fs (fatLba fs cluster) (st32 sec (fatOffset cluster) val) fs.fatCount 0 d

/-- The loop of `alloc_cluster`, from cluster `c` on. -/
def allocClusterFrom (fs : Fat32Fs) : Nat → Nat → Disk → Option Nat × Disk
  | 0, _, d => (none, d)
  | rounds + 1, c, d =>
      match fatGet fs c d with
      | (v, d) =>
          if v = 0 then
            match fatSet fs c fat32Eoc d with
            | (none, d) => (none, d)
            | (some (), d) => (some c, d)
          else allocClusterFrom fs rounds (c + 1) d

/-- `alloc_cluster`. -/
def allocCluster (fs : Fat32Fs) (d : Disk) : Option Nat × Disk :=
  allocClusterFrom fs (add32 fs.totalClusters 2 - 2) 2 d

/-! ## The root directory -/

/-- The entries of a directory sector. -/
def rootEntries : Nat := 16

/-- `cluster_to_lba(fs, fs->root_cluster)`. -/
def rootLba (fs : Fat32Fs) : Nat := clusterToLba fs fs.rootCluster

/-- The loop of `find_root_entry`, from offset `i` on. -/
def findEntryFrom (sec : Mem) (name83 : List UInt8) : Nat → Nat → Option Nat
  | 0, _ => none
  | rounds + 1, i =>
      if sec i = 0x00 then none
      else if sec i = 0xE5 then findEntryFrom sec name83 rounds (i + 32)
      else if sec (i + 11) &&& 0x0F = 0x0F then findEntryFrom sec name83 rounds (i + 32)
      else if strncmp (bytesAt sec i 11) name83 11 = 0 then some i
      else findEntryFrom sec name83 rounds (i + 32)

/-- `find_root_entry`: the sector and the offset of the entry. -/
def findRootEntry (fs : Fat32Fs) (name83 : List UInt8) (d : Disk) : Option (Nat × Nat) × Disk :=
  match fat32IoRead fs.dev (rootLba fs) d with
  | (none, d) => (none, d)
  | (some sec, d) =>
      ((findEntryFrom sec name83 rootEntries 0).map (fun off => (rootLba fs, off)), d)

/-- The search for a free slot in `fat32_write_file`, from offset `off` on. -/
def freeSlotFrom (sec : Mem) : Nat → Nat → Option Nat
  | 0, _ => none
  | rounds + 1, off =>
      if sec off = 0x00 ∨ sec off = 0xE5 then some off else freeSlotFrom sec rounds (off + 32)

/-- `((unsigned int)hi << 16) | lo` of the entry at `off`. -/
def entryCluster (sec : Mem) (off : Nat) : Nat :=
  ld16 sec (off + 20) <<< 16 ||| ld16 sec (off + 26)

/-- The directory sector with a new entry at `off`. -/
def putEntry (sec : Mem) (off : Nat) (name83 : List UInt8) (cluster len : Nat) : Mem :=
  let sec := stBytes sec off (List.replicate 32 0)
  let sec := stBytes sec off name83
  let sec := Function.update sec (off + 11) fat32AttrArchive
  let sec := st16 sec (off + 20) ((cluster >>> 16) &&& 0xFFFF)
  let sec := st16 sec (off + 26) (cluster &&& 0xFFFF)
  st32 sec (off + 28) len

/-! ## `fat32_format` -/

/-- The sizing loop of `fat32_format`: `sectors_per_fat` after it, or `none`
where the metadata does not fit. -/
def sizeFat (totalSectors : Nat) : Nat → Nat → Option Nat
  | 0, sectorsPerFat => some sectorsPerFat
  | rounds + 1, sectorsPerFat =>
      if totalSectors ≤ add32 (add32 32 (mul32 2 sectorsPerFat)) 1 then none
      else
        let dataSectors := sub32 (sub32 totalSectors 32) (mul32 2 sectorsPerFat)
        let totalClusters := dataSectors / 1
        let bytesPerFat := mul32 (add32 totalClusters 2) 4
        let bytesPerFat := add32 bytesPerFat 511 &&& not32 511
        if bytesPerFat / 512 = sectorsPerFat then some sectorsPerFat
        else sizeFat totalSectors rounds (bytesPerFat / 512)

/-- The boot sector that `fat32_format` writes. -/
def bootSector (totalSectors sectorsPerFat : Nat) : Mem :=
  let sec := Function.update zeroSector 0 0xEB
  let sec := Function.update sec 1 0x58
  let sec := Function.update sec 2 0x90
  let sec := stBytes sec 3 (ascii "RONINOS ")
  let sec := st16 sec 11 512
  let sec := Function.update sec 13 1
  let sec := st16 sec 14 32
  let sec := Function.update sec 16 2
  let sec := st16 sec 17 0
  let sec := st16 sec 19 0
  let sec := Function.update sec 21 0xF8
  let sec := st16 sec 22 0
  let sec := st16 sec 24 63
  let sec := st16 sec 26 255
  let sec := st32 sec 28 0
  let sec := st32 sec 32 totalSectors
  let sec := st32 sec 36 sectorsPerFat
  let sec := st16 sec 40 0
  let sec := st16 sec 42 0
  let sec := st32 sec 44 2
  let sec := st16 sec 48 1
  let sec := st16 sec 50 6
  let sec := Function.update sec 64 0x80
  let sec := Function.update sec 66 0x29
  let sec := st32 sec 67 0x12345678
  let sec := stBytes sec 71 (ascii "RONINOS    ")
  let sec := stBytes sec 82 (ascii "FAT32   ")
  let sec := Function.update sec 510 0x55
  Function.update sec 511 0xAA

/-- The FSInfo sector that `fat32_format` writes. -/
def fsInfoSector (freeClusters : Nat) : Mem :=
  let sec := st32 zeroSector 0 0x41615252
  let sec := st32 sec 484 0x61417272
  let sec := st32 sec 488 freeClusters
  let sec := st32 sec 492 3
  let sec := Function.update sec 510 0x55
  Function.update sec 511 0xAA

/-- The sector that `fat32_format` writes at 2. -/
def signatureSector : Mem := Function.update (Function.update zeroSector 510 0x55) 511 0xAA

/-- The first sector of each FAT that `fat32_format` writes. -/
def fatHeadSector : Mem :=
  st32 (st32 (st32 zeroSector 0 0x0FFFFFF8) 4 fat32Eoc) 8 fat32Eoc

/-- The I/O of `fat32_format` for a FAT of `sectorsPerFat` sectors. -/
def writeFormat (dev : BlockDev) (sectorsPerFat freeClusters : Nat) (d : Disk) :
    Except String Unit × Disk :=
  let fatStart := 32
  let dataStart := add32 32 (mul32 2 sectorsPerFat)
  orFail (fat32IoWrite dev 0 (bootSector dev.sectorCount sectorsPerFat) d)
    "write boot sector failed" fun _ d =>
  orFail (fat32IoWrite dev 1 (fsInfoSector freeClusters) d) "write fsinfo failed" fun _ d =>
  orFail (fat32IoWrite dev 2 signatureSector d) "write boot backup area failed" fun _ d =>
  orFail (fat32IoRead dev 0 d) "cannot read boot sector" fun sec d =>
  orFail (fat32IoWrite dev 6 sec d) "write backup boot sector failed" fun _ d =>
  orFail (fat32IoRead dev 1 d) "read fsinfo for backup failed" fun sec d =>
  orFail (fat32IoWrite dev 7 sec d) "write backup fsinfo failed" fun _ d =>
  orFail (fat32IoWrite dev fatStart fatHeadSector d) "write FAT #0 failed" fun _ d =>
  orFail (fat32IoWrite dev (add32 fatStart sectorsPerFat) fatHeadSector d)
    "write FAT #1 failed" fun _ d =>
  orFail (fat32IoWrite dev dataStart zeroSector d) "write root directory cluster failed" fun _ d =>
  (.ok (), d)

/-- `fat32_format`. -/
def fat32Format (dev : BlockDev) (d : Disk) : Except String Unit × Disk :=
  if dev.writable = false then (.error "device missing read/write support", d)
  else if dev.sectorSize ≠ 512 then (.error "sector size must be 512 bytes", d)
  else if dev.sectorCount < 256 then (.error "disk too small", d)
  else
    match sizeFat dev.sectorCount 8 1 with
    | none => (.error "disk layout cannot fit FAT32 metadata", d)
    | some sectorsPerFat =>
        if dev.sectorCount ≤ add32 (add32 32 (mul32 2 sectorsPerFat)) 1 then
          (.error "disk layout cannot fit FAT32 data area", d)
        else
          let dataSectors := sub32 (sub32 dev.sectorCount 32) (mul32 2 sectorsPerFat)
          let totalClusters := dataSectors / 1
          if totalClusters < 2 then (.error "not enough clusters", d)
          else writeFormat dev sectorsPerFat (sub32 totalClusters 1) d

/-! ## `fat32_mount` -/

/-- The checks of `fat32_mount` on the boot sector and the volume they accept;
`none` where the division by `sectors_per_cluster` faults. -/
def mountSector (dev : BlockDev) (sec : Mem) : Option (Except String Fat32Fs) :=
  if sec 510 ≠ 0x55 ∨ sec 511 ≠ 0xAA then some (.error "boot signature missing")
  else if ld16 sec 11 ≠ 512 then some (.error "invalid bytes/sector in BPB")
  else if ld16 sec 17 ≠ 0 then some (.error "not a FAT32 BPB")
  else
    let sectorsPerCluster := (sec 13).toNat
    let reservedSectors := ld16 sec 14
    let fatCount := (sec 16).toNat
    let sectorsPerFat := ld32 sec 36
    let dataStartLba := add32 reservedSectors (mul32 fatCount sectorsPerFat)
    let totalSectors := if ld32 sec 32 = 0 then ld16 sec 19 else ld32 sec 32
    if totalSectors ≤ dataStartLba then some (.error "invalid layout: no data area")
    else if sectorsPerCluster = 0 then none
    else
      let totalClusters := (totalSectors - dataStartLba) / sectorsPerCluster
      if totalClusters = 0 then some (.error "invalid cluster count")
      else some (.ok {
        dev, sectorsPerCluster, reservedSectors, fatCount, sectorsPerFat,
        rootCluster := ld32 sec 44, fatStartLba := reservedSectors, dataStartLba, totalClusters })

/-- `fat32_mount`. -/
def fat32Mount (dev : BlockDev) (d : Disk) : Option (Except String Fat32Fs × Disk) :=
  if dev.sectorSize ≠ 512 then some (.error "unsupported sector size", d)
  else
    match fat32IoRead dev 0 d with
    | (none, d) => some (.error "cannot read boot sector", d)
    | (some sec, d) => (mountSector dev sec).map fun r => (r, d)

/-! ## Files -/

/-- The loop of `fat32_list_root`, from offset `i` on, with room for `room` more
entries. -/
def listFrom (sec : Mem) : Nat → Nat → Nat → List Fat32Dirent
  | 0, _, _ => []
  | rounds + 1, i, room =>
      if room = 0 then []
      else if sec i = 0x00 then []
      else if sec i = 0xE5 then listFrom sec rounds (i + 32) room
      else if sec (i + 11) &&& 0x0F = 0x0F then listFrom sec rounds (i + 32) room
      else
        { name83 := bytesAt sec i 11 ++ [0], size := ld32 sec (i + 28) } ::
          listFrom sec rounds (i + 32) (room - 1)

/-- `fat32_list_root`: the entries it stores, whose number is `*out_count`. -/
def fat32ListRoot (fs : Fat32Fs) (maxOut : Nat) (d : Disk) :
    Except String (List Fat32Dirent) × Disk :=
  if maxOut = 0 then (.error "invalid ls arguments", d)
  else
    orFail (fat32IoRead fs.dev (rootLba fs) d) "read root directory failed"
      fun sec d => (.ok (listFrom sec rootEntries 0 maxOut), d)

/-- `fat32_write_file` from `alloc_cluster` on: the entry at `off` of the
directory sector `sec` gets a new cluster with the data. -/
def writeEntry (fs : Fat32Fs) (name83 data : List UInt8) (lba off : Nat) (sec : Mem) (d : Disk) :
    Except String Unit × Disk :=
  orFail (allocCluster fs d) "no free cluster available" fun cluster d =>
  orFail (fat32IoWrite fs.dev lba (putEntry sec off name83 cluster data.length) d)
    "write directory entry failed" fun _ d =>
  orFail (fat32IoWrite fs.dev (clusterToLba fs cluster) (stBytes zeroSector 0 data) d)
    "write file data failed" fun _ d =>
  (.ok (), d)

/-- `fat32_write_file`. -/
def fat32WriteFile (fs : Fat32Fs) (name data : List UInt8) (d : Disk) : Except String Unit × Disk :=
  if data.length > mul32 512 fs.sectorsPerCluster then
    (.error "file too large for current implementation", d)
  else
    match makeName83 name with
    | none => (.error "invalid 8.3 filename", d)
    | some name83 =>
        orFail (fat32IoRead fs.dev (rootLba fs) d) "read root entry sector failed" fun sec d =>
        match findRootEntry fs name83 d with
        | (some (lba, off), d) =>
            let cluster := entryCluster sec off
            if cluster ≥ 2 then
              orFail (fatSet fs cluster 0 d) "free old cluster failed" fun _ d =>
              writeEntry fs name83 data lba off sec d
            else writeEntry fs name83 data lba off sec d
        | (none, d) =>
            match freeSlotFrom sec rootEntries 0 with
            | none => (.error "root directory is full", d)
            | some off => writeEntry fs name83 data (rootLba fs) off sec d

/-- `fat32_read_file`: the bytes it stores in `out`, the terminating NUL
included, and `*out_len`. -/
def fat32ReadFile (fs : Fat32Fs) (name : List UInt8) (outCap : Nat) (d : Disk) :
    Except String (List UInt8 × Nat) × Disk :=
  if outCap = 0 then (.error "invalid read arguments", d)
  else
    match makeName83 name with
    | none => (.error "invalid 8.3 filename", d)
    | some name83 =>
        orFail (findRootEntry fs name83 d) "file not found" fun (lba, off) d =>
        orFail (fat32IoRead fs.dev lba d) "read directory entry failed" fun sec d =>
        let len := ld32 sec (off + 28)
        let cluster := entryCluster sec off
        if cluster < 2 then (.error "invalid file cluster", d)
        else if add32 len 1 > outCap then (.error "output buffer too small", d)
        else
          orFail (fat32IoRead fs.dev (clusterToLba fs cluster) d) "read file data failed"
            fun sec d => (.ok (bytesAt sec 0 len ++ [0], len), d)

/-- `fat32_delete_file`. -/
def fat32DeleteFile (fs : Fat32Fs) (name : List UInt8) (d : Disk) : Except String Unit × Disk :=
  match makeName83 name with
  | none => (.error "invalid 8.3 filename", d)
  | some name83 =>
      orFail (findRootEntry fs name83 d) "file not found" fun (lba, off) d =>
      orFail (fat32IoRead fs.dev lba d) "read directory entry failed" fun sec d =>
      let cluster := entryCluster sec off
      let finish (d : Disk) : Except String Unit × Disk :=
        orFail (fat32IoWrite fs.dev lba (Function.update sec off 0xE5) d)
          "write delete marker failed" fun _ d => (.ok (), d)
      if cluster ≥ 2 then
        orFail (fatSet fs cluster 0 d) "free cluster failed" fun _ d => finish d
      else finish d

end RoninOS.Fs
