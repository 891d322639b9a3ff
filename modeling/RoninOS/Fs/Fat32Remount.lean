/-
RoninOS.Fs.Fat32Remount — files outlive the volume structure.

A `fat32_fs_t` lives in its caller and is gone at the next boot; what is left is the
disk. Every call keeps the sectors before the FATs, so that `fat32_mount` reads the
same volume from the boot sector whenever it is called, and the files of the run so
far are on it.
-/
import RoninOS.Fs.Fat32Room

namespace RoninOS.Fs

open RoninOS.Lib

/-! ## Runs -/

/-- A call on the mounted volume, or a mount that forgets it. -/
inductive VolumeEvent
  | call (op : FatOp)
  | read (name : List UInt8) (outCap : Nat)
  | list (maxOut : Nat)
  | mount

/-- The volume and the disk after an event; `none` for a mount that fails or faults. -/
def VolumeEvent.next (dev : BlockDev) : Fat32Fs × Disk → VolumeEvent → Option (Fat32Fs × Disk)
  | (fs, d), .call op => some (fs, (runOp fs op d).2)
  | (fs, d), .read name outCap => some (fs, (fat32ReadFile fs name outCap d).2)
  | (fs, d), .list maxOut => some (fs, (fat32ListRoot fs maxOut d).2)
  | (_, d), .mount =>
      match fat32Mount dev d with
      | some (.ok fs, d) => some (fs, d)
      | _ => none

/-- The map after an event; there is room for every file. -/
def VolumeEvent.map (m : VolumeMap) : VolumeEvent → VolumeMap
  | .call op => (mapOp true m op).2
  | _ => m

/-! ## Mounted disks -/

/-- A disk that mounts as `fs`, and holds the files of `m` on it. -/
structure MountsAs (fs : Fat32Fs) (d : Disk) (m : VolumeMap) : Prop where
  geometry : Geometry fs
  sectorSize : fs.dev.sectorSize = 512
  boot : mountSector fs.dev (d.sectors 0) = some (.ok fs)
  holds : ∃ slots, HoldsVolume fs d.sectors slots m
  roomy : ∃ slots, Roomy fs d.sectors slots

section Disk

variable {dev : BlockDev} {fs : Fat32Fs} {d d' before : Disk} {m : VolumeMap}

/-- Only the sectors count. -/
theorem MountsAs.sectors (h : MountsAs fs d m) (heq : d'.sectors = d.sectors) :
    MountsAs fs d' m := by
  obtain ⟨hg, hsize, hboot, hholds, hroomy⟩ := h
  rw [← heq] at hboot hholds hroomy
  exact ⟨hg, hsize, hboot, hholds, hroomy⟩

/-- A fresh volume is empty. -/
theorem Formatted.mountsAs (h : Formatted dev before fs d) (hhigh : dev.sectorCount ≤ fatSizeLimit) :
    MountsAs fs d ∅ := by
  obtain ⟨hg, rfl, -⟩ := h.spec hhigh
  have hvol := h.volOk hhigh
  have hroomy := h.roomy hhigh
  obtain ⟨mid, hformat, hmount⟩ := h
  obtain ⟨hsize, -⟩ := fat32Format_some hformat
  have hboot : mountSector fs.dev (d.sectors 0) = some (.ok fs) := by
    rw [fat32Mount, if_neg (by simp [hsize])] at hmount
    split at hmount
    · simp at hmount
    · rename_i sec mid' hread
      obtain ⟨-, rfl, rfl⟩ := fat32IoRead_some hread
      obtain ⟨r, hr, heq⟩ := Option.map_eq_some_iff.mp hmount
      obtain ⟨rfl, rfl⟩ := Prod.mk.inj heq
      exact hr
  exact ⟨hg, hsize, hboot, ⟨[], hvol, by simp [liveFiles], .nil⟩, [], hroomy⟩

section Works

variable (hworks : ∀ n, fs.dev.fails n = false)
include hworks

/-- Mounting reads the volume back. -/
theorem MountsAs.mount (h : MountsAs fs d m) :
    fat32Mount fs.dev d = some (.ok fs, d.tick 1) := by
  have hpos := h.geometry.clusters_pos
  have htotal := h.geometry.total
  rw [fat32Mount, if_neg (by simp [h.sectorSize]), fat32IoRead_works hworks (by omega)]
  simp only [h.boot, Option.map_some]

/-- A call succeeds as on a map with room for every file. -/
theorem MountsAs.op (h : MountsAs fs d m) (op : FatOp) :
    ((runOp fs op d).1 = .ok () ↔ (mapOp true m op).1 = true) ∧
      MountsAs fs (runOp fs op d).2 (mapOp true m op).2 := by
  obtain ⟨hg, hsize, hboot, ⟨slots, hholds⟩, slots', hroomy⟩ := h
  have hroom := hroomy.someFree hg hworks
  obtain ⟨hiff, hholds'⟩ := hholds.op hg hworks op
  obtain ⟨hroomy', hreserved⟩ := hroomy.op hg hworks op
  rw [hroom] at hiff hholds'
  rw [← hreserved 0 (by decide)] at hboot
  exact ⟨hiff, hg, hsize, hboot, hholds', hroomy'⟩

/-- An event keeps the volume. -/
theorem MountsAs.next (h : MountsAs fs d m) (e : VolumeEvent) :
    ∃ d', VolumeEvent.next fs.dev (fs, d) e = some (fs, d') ∧ MountsAs fs d' (e.map m) := by
  cases e with
  | call op => exact ⟨_, rfl, (h.op hworks op).2⟩
  | read name outCap => exact ⟨_, rfl, h.sectors (fat32ReadFile_sectors ..)⟩
  | list maxOut => exact ⟨_, rfl, h.sectors (fat32ListRoot_sectors ..)⟩
  | mount =>
      refine ⟨d.tick 1, ?_, h.sectors (Disk.sectors_tick d 1)⟩
      simp only [VolumeEvent.next, h.mount hworks]

theorem MountsAs.run {events : List VolumeEvent} (h : MountsAs fs d m) :
    ∃ d', events.foldlM (VolumeEvent.next fs.dev) (fs, d) = some (fs, d') ∧
      MountsAs fs d' (events.foldl VolumeEvent.map m) := by
  induction events generalizing d m with
  | nil => exact ⟨d, rfl, h⟩
  | cons e events ih =>
      obtain ⟨d₁, hnext, h₁⟩ := h.next hworks e
      rw [List.foldlM_cons, Option.bind_eq_bind, hnext, Option.bind_some, List.foldl_cons]
      exact ih h₁

end Works

/-- Files survive. On a device that works, whatever the disk held before
`fat32_format`: in every run of calls and new mounts each mount succeeds and gives the
volume of the first, a write or a delete succeeds exactly as on the map that the run has
made, where only 16 names are the limit, and the calls that read show this map. -/
theorem fat32_survives_remount (hhigh : dev.sectorCount ≤ fatSizeLimit)
    (hworks : ∀ n, dev.fails n = false) (h : Formatted dev before fs d)
    (events : List VolumeEvent) :
    ∃ d', events.foldlM (VolumeEvent.next dev) (fs, d) = some (fs, d') ∧
      (∀ op, (runOp fs op d').1 = .ok () ↔
        (mapOp true (events.foldl VolumeEvent.map ∅) op).1 = true) ∧
      ShowsVolume fs d' (events.foldl VolumeEvent.map ∅) := by
  obtain ⟨-, rfl, -⟩ := h.spec hhigh
  obtain ⟨d', hrun, hd'⟩ := (h.mountsAs hhigh).run hworks
  obtain ⟨slots, hholds⟩ := hd'.holds
  exact ⟨d', hrun, fun op => (hd'.op hworks op).1, hholds.shows hd'.geometry hworks⟩

end Disk

/-- A file that is written on a disk of `0xFF` bytes and read after a new mount. -/
theorem fat32_survives_remount_exampleDev : ∃ d d',
    Formatted exampleDev ⟨fun _ _ => 0xFF, 0⟩ (formattedFs exampleDev 2) d ∧
      [VolumeEvent.call (.write (ascii "A") (ascii "x")), .mount].foldlM
        (VolumeEvent.next exampleDev) (formattedFs exampleDev 2, d)
        = some (formattedFs exampleDev 2, d') ∧
      (fat32ReadFile (formattedFs exampleDev 2) (ascii "a") 2 d').1
        = .ok (ascii "x" ++ [0], 1) := by
  obtain ⟨d, hformatted⟩ := exampleDev_formatted ⟨fun _ _ => 0xFF, 0⟩
  obtain ⟨d', hrun, -, hshows⟩ := fat32_survives_remount (by decide) (fun _ => rfl) hformatted
    [VolumeEvent.call (.write (ascii "A") (ascii "x")), .mount]
  exact ⟨d, d', hformatted, hrun, hshows.read_data _ (ascii "A          ") _ _ (by decide) rfl
    (by decide)⟩

end RoninOS.Fs
