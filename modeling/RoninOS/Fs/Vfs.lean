/-
RoninOS.Fs.Vfs — paths and the mount table of `kernel/fs/vfs.c`:
`normalize_path`, `starts_with`, `find_mount`, `vfs_init` and `vfs_mount`.

A pointer into a path buffer is the list of the bytes from it on, so
`temp[i]` is the head of a list and running off the string is its end. The
file systems' operation tables, their contexts and their nodes are type
parameters: nothing here looks inside them.
-/
import RoninOS.Lib.CString

namespace RoninOS.Fs

open RoninOS.Lib

/-! ## Limits (`vfs.h`, `vfs.c`) -/

/-- `VFS_MAX_PATH`. -/
def vfsMaxPath : Nat := 128
/-- `VFS_MAX_NAME`. -/
def vfsMaxName : Nat := 24
/-- `VFS_MAX_MOUNTS`. -/
def vfsMaxMounts : Nat := 4
/-- `VFS_MAX_FD`. -/
def vfsMaxFd : Nat := 32
/-- The rows of `segs` in `normalize_path`. -/
def maxSegs : Nat := 16

/-- The byte `'/'`. -/
def slash : UInt8 := 47

theorem slash_noNul : 0 ∉ [slash] := by decide

/-- The path `/`. -/
def rootPath : CString := ⟨[slash], slash_noNul⟩

/-! ## State -/

/-- `vfs_mount_t` of a used slot. -/
structure VfsMount (Ops Ctx : Type) where
  mountpoint : List UInt8
  ops : Ops
  ctx : Ctx

/-- `vfs_fd_t` of a used slot. -/
structure VfsFd (Ops Ctx Node : Type) where
  flags : Nat
  ops : Ops
  ctx : Ctx
  node : Node
  pos : Nat

/-- The globals of `vfs.c`; a slot whose `used` is 0 is `none`. -/
structure Vfs (Ops Ctx Node : Type) where
  mounts : List (Option (VfsMount Ops Ctx))
  fds : List (Option (VfsFd Ops Ctx Node))
  cwd : List UInt8

variable {Ops Ctx Node : Type}

/-- `vfs_init`. -/
def vfsInit : Vfs Ops Ctx Node where
  mounts := List.replicate vfsMaxMounts none
  fds := List.replicate vfsMaxFd none
  cwd := [slash]

/-! ## `normalize_path` -/

/-- `s_len`. -/
def sLen (s : List UInt8) (max : Nat) : Nat := min s.length max

/-- `copy_str`: the copied string, or `none` where it returns -1. -/
def copyStr (src : List UInt8) (max : Nat) : Option (List UInt8) :=
  let n := sLen src (max - 1)
  -- `src[n] != 0`
  if n < src.length then none else some (src.take n)

/-- The contents of `temp` before the loop of `normalize_path`. -/
def absolutePath (cwd path : List UInt8) : Option (List UInt8) :=
  if path.head? = some slash then copyStr path vfsMaxPath
  else
    let cwdLen := sLen cwd vfsMaxPath
    if cwdLen + 1 ≥ vfsMaxPath then none
    else
      let temp := cwd.take cwdLen ++ (if cwdLen > 1 then [slash] else [])
      (copyStr path (vfsMaxPath - temp.length)).map (temp ++ ·)

/-- The two inner loops over one segment, shared by `normalize_path` and
`resolve_on_mount`: `seg` keeps at most `VFS_MAX_NAME - 1` bytes of it, the
rest of it is skipped. -/
def scanSegment (s : List UInt8) : List UInt8 × List UInt8 :=
  ((s.takeWhile (· ≠ slash)).take (vfsMaxName - 1), s.dropWhile (· ≠ slash))

/-- The `while (temp[i])` loop of `normalize_path` over the stack `segs`. Each
round consumes at least one byte, so `fuel` bounds the rounds. -/
def splitLoop : Nat → List UInt8 → List (List UInt8) → Option (List (List UInt8))
  | 0, _, segs => some segs
  | fuel + 1, temp, segs =>
      let s := temp.dropWhile (· = slash)
      if s = [] then some segs
      else
        let (seg, rest) := scanSegment s
        if strcmp seg (ascii ".") = 0 then splitLoop fuel rest segs
        else if strcmp seg (ascii "..") = 0 then splitLoop fuel rest segs.dropLast
        else if segs.length ≥ maxSegs then none
        else
          match copyStr seg vfsMaxName with
          | none => none
          | some copied => splitLoop fuel rest (segs ++ [copied])

/-- The loop of `normalize_path` that writes the segments to `out`. -/
def joinLoop : List UInt8 → List (List UInt8) → Option (List UInt8)
  | out, [] => some out
  | out, seg :: segs =>
      let n := sLen seg vfsMaxName
      if out.length + n + 1 ≥ vfsMaxPath then none
      else joinLoop (out ++ (if out.length > 1 then [slash] else []) ++ seg.take n) segs

/-- `normalize_path` with `g_cwd = cwd`; `none` where it returns -1. -/
def normalizePath (cwd path : List UInt8) : Option (List UInt8) :=
  match absolutePath cwd path with
  | none => none
  | some temp =>
      match splitLoop temp.length temp [] with
      | none => none
      | some segs => joinLoop [slash] segs

/-! ## `find_mount` -/

/-- `starts_with`. -/
def startsWith (a b : List UInt8) : Bool :=
  let n := strlen b
  if strncmp a b n ≠ 0 then false
  else (a.drop n).head? = none ∨ (a.drop n).head? = some slash

/-- The loop of `find_mount` from slot `i` on, with `best` and `best_len`. -/
def findMountLoop (path : List UInt8) :
    Nat → List (Option (VfsMount Ops Ctx)) → Option Nat → Nat → Option Nat × Nat
  | _, [], best, bestLen => (best, bestLen)
  | i, none :: ms, best, bestLen => findMountLoop path (i + 1) ms best bestLen
  | i, some m :: ms, best, bestLen =>
      if ¬ startsWith path m.mountpoint then findMountLoop path (i + 1) ms best bestLen
      else
        let mlen := strlen m.mountpoint
        if mlen ≥ bestLen then findMountLoop path (i + 1) ms (some i) mlen
        else findMountLoop path (i + 1) ms best bestLen

/-- `find_mount`: the slot of the mount and `subpath`. -/
def findMount (mounts : List (Option (VfsMount Ops Ctx))) (path : List UInt8) :
    Option (Nat × List UInt8) :=
  match findMountLoop path 0 mounts none 0 with
  | (none, _) => none
  | (some i, bestLen) =>
      let sub := path.drop bestLen
      some (i, if sub.head? = some slash then sub.tail else sub)

/-! ## `vfs_mount` -/

/-- `vfs_mount`; a null `ops` is `none`. -/
def vfsMount (v : Vfs Ops Ctx Node) (mountpoint : CString) (ops : Option Ops) (ctx : Ctx) :
    Int × Vfs Ops Ctx Node :=
  match ops with
  | none => (-1, v)
  | some ops =>
      match normalizePath v.cwd mountpoint.bytes with
      | none => (-1, v)
      | some norm =>
          match v.mounts.findIdx? Option.isNone with
          | none => (-1, v)
          | some i =>
              (0, { v with mounts := v.mounts.set i (some { mountpoint := norm, ops, ctx }) })

end RoninOS.Fs
