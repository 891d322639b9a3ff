/-
RoninOS.Fs.Fat32Buffers — how much `fat32_read_file` copies between its sector
buffer and the caller's.

The number of bytes is the size field of the directory entry. It is compared
with the caller's capacity, after an addition that wraps, and not with the
sector buffer; so the copy is inside both exactly where the field of every entry
that gets as far is at most 512.
-/
import RoninOS.Fs.Fat32Mount

namespace RoninOS.Fs

open RoninOS.Lib

section Read

variable {fs : Fat32Fs} {name : List UInt8} {outCap : Nat} {d : Disk}

/-- `fat32_read_file` finds an entry with this size field, and none of its
checks and requests stops it before it copies. -/
structure CopiesEntry (fs : Fat32Fs) (name : List UInt8) (outCap : Nat) (d : Disk) (off len : Nat) :
    Prop where
  cap_pos : 0 < outCap
  search : fs.dev.Serves (rootLba fs) d.requests
  entry : fs.dev.Serves (rootLba fs) (d.requests + 1)
  found : ∃ name83, makeName83 name = some name83 ∧
    findEntryFrom (d.sectors (rootLba fs)) name83 rootEntries 0 = some off
  size : ld32 (d.sectors (rootLba fs)) (off + 28) = len
  cluster : 2 ≤ entryCluster (d.sectors (rootLba fs)) off
  fits : add32 len 1 ≤ outCap
  data : fs.dev.Serves (clusterToLba fs (entryCluster (d.sectors (rootLba fs)) off)) (d.requests + 2)

/-- The calls that copy. -/
theorem fat32ReadFile_copies {off len : Nat} (h : CopiesEntry fs name outCap d off len) :
    ∃ out d', fat32ReadFile fs name outCap d = (.ok (out, len), d') := by
  obtain ⟨name83, hname, hfind⟩ := h.found
  have hsearch := findRootEntry_found h.search hfind
  have hcluster := h.cluster
  have hfits := h.fits
  have hentry : fat32IoRead fs.dev (rootLba fs) (d.tick 1)
      = (some (d.sectors (rootLba fs)), d.tick 2) := BlockDev.read_ok h.entry
  have hdata : fat32IoRead fs.dev (clusterToLba fs (entryCluster (d.sectors (rootLba fs)) off))
      (d.tick 2) = (some (d.sectors _), d.tick 3) := BlockDev.read_ok h.data
  have hcopy : fat32ReadFile fs name outCap d
      = (.ok (bytesAt (d.sectors (clusterToLba fs (entryCluster (d.sectors (rootLba fs)) off))) 0 len
        ++ [0], len), d.tick 3) := by
    rw [fat32ReadFile, if_neg h.cap_pos.ne', hname]
    simp only [hsearch, orFail_some, hentry, h.size]
    rw [if_neg (by omega), if_neg (by omega), hdata, orFail_some]
  exact ⟨_, _, hcopy⟩

/-- A call that copies found such an entry. -/
theorem copiesEntry_of_ok {out : List UInt8} {len : Nat} {d' : Disk}
    (h : fat32ReadFile fs name outCap d = (.ok (out, len), d')) :
    ∃ off, CopiesEntry fs name outCap d off len := by
  unfold fat32ReadFile at h
  split at h
  · simp at h
  rename_i hcap
  split at h
  · simp at h
  rename_i name83 hname
  obtain ⟨⟨lba, off⟩, d₁, hsearch, h⟩ := orFail_ok h
  obtain ⟨hserves, rfl, hfind, rfl⟩ := findRootEntry_some hsearch
  obtain ⟨sec, d₂, hentry, h⟩ := orFail_ok h
  obtain ⟨hserves', rfl, rfl⟩ := fat32IoRead_some hentry
  dsimp only at h
  split at h
  · simp at h
  rename_i hcluster
  split at h
  · simp at h
  rename_i hfits
  obtain ⟨_, d₃, hdata, h⟩ := orFail_ok h
  obtain ⟨hserves'', -, -⟩ := fat32IoRead_some hdata
  simp only [Prod.mk.injEq, Except.ok.injEq] at h
  obtain ⟨⟨-, rfl⟩, -⟩ := h
  exact ⟨off, Nat.pos_of_ne_zero hcap, hserves, hserves', ⟨name83, hname, hfind⟩, rfl,
    Nat.not_lt.mp hcluster, Nat.not_lt.mp hfits, hserves''⟩

/-- The copy stays inside the sector buffer, leaves room for the NUL in the
caller's, and the NUL is inside it. -/
def CopyInside (fs : Fat32Fs) (name : List UInt8) (outCap : Nat) (d : Disk) : Prop :=
  ∀ out len d', fat32ReadFile fs name outCap d = (.ok (out, len), d') →
    len ≤ 512 ∧ len ≤ outCap - 1 ∧ len < outCap

end Read

/-- `fat32_read_file` stays inside both buffers exactly where an entry that it
copies has a size field of at most 512. -/
theorem read_inside_iff (fs : Fat32Fs) (name : List UInt8) (outCap : Nat) (d : Disk) :
    CopyInside fs name outCap d ↔ ∀ off len, CopiesEntry fs name outCap d off len → len ≤ 512 := by
  constructor
  · intro hinside off len hcopies
    obtain ⟨out, d', h⟩ := fat32ReadFile_copies hcopies
    exact (hinside out len d' h).1
  · intro hsize out len d' h
    obtain ⟨off, hcopies⟩ := copiesEntry_of_ok h
    have hlen := hsize off len hcopies
    have hfits := hcopies.fits
    rw [add32_of_lt (by omega)] at hfits
    exact ⟨hlen, by omega, by omega⟩

/-- A formatted disk on which "A" has the size field 2^32 - 1. -/
def hugeEntryDisk : Disk :=
  ⟨fun lba => if lba = 0 then bootSector 256 2
    else if lba = 36 then putEntry zeroSector 0 (ascii "A          ") 3 (2 ^ 32 - 1)
    else zeroSector, 0⟩

/-- `fat32_mount` accepts it, and the 513 bytes that the shell passes are not
enough for the file. -/
theorem read_overruns : ∃ fs d, fat32Mount exampleDev hugeEntryDisk = some (.ok fs, d) ∧
    ¬ CopyInside fs (ascii "A") 513 d := by
  have hmount : mountSector exampleDev (hugeEntryDisk.sectors 0)
      = some (.ok (formattedFs exampleDev 2)) := @mountSector_formatted exampleDev 2 (by decide)
  refine ⟨formattedFs exampleDev 2, hugeEntryDisk.tick 1, ?_, fun hinside => ?_⟩
  · rw [fat32Mount, if_neg (by decide), fat32IoRead_works (fun _ => rfl) (by decide)]
    simp only [hmount, Option.map_some]
  · obtain ⟨out, d', h⟩ := @fat32ReadFile_copies (formattedFs exampleDev 2) (ascii "A") 513
      (hugeEntryDisk.tick 1) 0 (2 ^ 32 - 1)
      ⟨by decide, by decide, by decide, ⟨ascii "A          ", by decide, by decide +kernel⟩,
        by decide +kernel, by decide +kernel, by decide, by decide +kernel⟩
    exact absurd (hinside out _ d' h).1 (by decide)

end RoninOS.Fs
