/-
RoninOS.Fs.VfsOps — the calls of `kernel/fs/vfs.c`: path resolution through a
mount, descriptors, directories and `g_cwd`.

The operations of a file system act on a state `σ` that all mounted file
systems share, and a null function pointer is `none`. `size_t` is `Nat`, and
`flags` is the bit pattern of an `int`.
-/
import RoninOS.Fs.Vfs

namespace RoninOS.Fs

open RoninOS.Lib

/-! ## File systems -/

/-- `vfs_fs_ops_t`. The VFS passes no `out_node` to `create`; `read` and
`write` give the return value with the bytes read or the state after. -/
structure VfsFsOps (σ Ctx Node : Type) where
  getRoot : Option (σ → Ctx → Node)
  lookup : Option (σ → Ctx → Node → List UInt8 → Option (Node × Bool))
  create : Option (σ → Ctx → Node → List UInt8 → Bool → Int × σ)
  read : Option (σ → Ctx → Node → Nat → Nat → Int × List UInt8)
  write : Option (σ → Ctx → Node → Nat → List UInt8 → Int × σ)
  readdir : Option (σ → Ctx → Node → Nat → Option (List UInt8 × Bool × Nat))
  size : Option (σ → Ctx → Node → Nat)

/-- `VFS_O_RDONLY`. -/
def vfsORdonly : Nat := 0x01
/-- `VFS_O_WRONLY`. -/
def vfsOWronly : Nat := 0x02
/-- `VFS_O_RDWR`. -/
def vfsORdwr : Nat := 0x03
/-- `VFS_O_CREATE`. -/
def vfsOCreate : Nat := 0x10

/-- `vfs_dirent_t`. -/
structure VfsDirent where
  name : List UInt8
  isDir : Bool
  size : Nat
deriving DecidableEq

/-- `vfs_stat_t`. -/
structure VfsStat where
  isDir : Bool
  size : Nat
deriving DecidableEq

section Calls

variable {σ Ctx Node : Type}

/-- A mount of a file system. -/
abbrev FsMount (σ Ctx Node : Type) := VfsMount (VfsFsOps σ Ctx Node) Ctx

/-- The VFS over file systems with state `σ`. -/
abbrev FsVfs (σ Ctx Node : Type) := Vfs (VfsFsOps σ Ctx Node) Ctx Node

/-! ## Path resolution -/

/-- The loop of `resolve_on_mount`. Each round consumes at least one byte, so
`fuel` bounds the rounds. -/
def resolveLoop (lookup : Node → List UInt8 → Option (Node × Bool)) :
    Nat → List UInt8 → Node → Bool → Option (Node × Bool)
  | 0, _, cur, isDir => some (cur, isDir)
  | fuel + 1, subpath, cur, isDir =>
      if subpath = [] then some (cur, isDir)
      else if isDir = false then none
      else
        let s := subpath.dropWhile (· = slash)
        if s = [] then some (cur, isDir)
        else
          let (seg, rest) := scanSegment s
          match lookup cur seg with
          | none => none
          | some (next, isDir) => resolveLoop lookup fuel rest next isDir

/-- `resolve_on_mount`: the node and `is_dir`. -/
def resolveOnMount (s : σ) (m : FsMount σ Ctx Node) (subpath : List UInt8) :
    Option (Node × Bool) :=
  match m.ops.getRoot, m.ops.lookup with
  | some getRoot, some lookup =>
      let root := getRoot s m.ctx
      if subpath = [] then some (root, true)
      else resolveLoop (lookup s m.ctx) subpath.length subpath root true
  | _, _ => none

/-- `resolve_path`: the mount, the node and `is_dir`. -/
def resolvePath (v : FsVfs σ Ctx Node) (s : σ) (path : List UInt8) :
    Option (FsMount σ Ctx Node × Node × Bool) :=
  match normalizePath v.cwd path with
  | none => none
  | some norm =>
      match findMount v.mounts norm with
      | none => none
      | some (i, subpath) =>
          match v.mounts[i]? with
          | some (some m) => (resolveOnMount s m subpath).map fun (node, isDir) => (m, node, isDir)
          | _ => none

/-- `while (cut > norm && *cut != '/') cut--` from index `cut` on. -/
def cutLoop (norm : List UInt8) : Nat → Nat
  | 0 => 0
  | cut + 1 => if norm.getD (cut + 1) 0 ≠ slash then cutLoop norm cut else cut + 1

/-- `resolve_parent`: the mount, the parent node and the last component. -/
def resolveParent (v : FsVfs σ Ctx Node) (s : σ) (path : List UInt8) :
    Option (FsMount σ Ctx Node × Node × List UInt8) :=
  match normalizePath v.cwd path with
  | none => none
  | some norm =>
      if strcmp norm [slash] = 0 then none
      else
        let cut := cutLoop norm (strlen norm)
        if norm.getD cut 0 ≠ slash then none
        else
          match copyStr (norm.drop (cut + 1)) vfsMaxName with
          | none => none
          | some leaf =>
              let parent := if cut = 0 then [slash] else norm.take cut
              if cut ≠ 0 ∧ cut + 1 ≥ vfsMaxPath then none
              else (resolvePath v s parent).map fun (m, node, _) => (m, node, leaf)

/-! ## Creating -/

/-- `vfs_create` and `vfs_mkdir`, which differ in the `is_dir` they pass on. -/
def vfsCreateNode (v : FsVfs σ Ctx Node) (s : σ) (path : List UInt8) (isDir : Bool) : Int × σ :=
  match resolveParent v s path with
  | none => (-1, s)
  | some (m, parent, leaf) =>
      match m.ops.create with
      | none => (-1, s)
      | some create => create s m.ctx parent leaf isDir

/-- `vfs_mkdir`. -/
def vfsMkdir (v : FsVfs σ Ctx Node) (s : σ) (path : List UInt8) : Int × σ :=
  vfsCreateNode v s path true

/-- `vfs_create`. -/
def vfsCreate (v : FsVfs σ Ctx Node) (s : σ) (path : List UInt8) : Int × σ :=
  vfsCreateNode v s path false

/-! ## Descriptors -/

/-- `resolve_path` where `vfs_open` accepts its result: not a directory. -/
def resolveFile (v : FsVfs σ Ctx Node) (s : σ) (path : List UInt8) :
    Option (FsMount σ Ctx Node × Node) :=
  match resolvePath v s path with
  | some (m, node, false) => some (m, node)
  | _ => none

/-- The loop of `vfs_open` over `g_fds`: the first free descriptor. -/
def allocFd (v : FsVfs σ Ctx Node) (m : FsMount σ Ctx Node) (node : Node) (flags : Nat) :
    Int × FsVfs σ Ctx Node :=
  match v.fds.findIdx? Option.isNone with
  | none => (-1, v)
  | some i =>
      (i, { v with fds := v.fds.set i (some { flags, ops := m.ops, ctx := m.ctx, node, pos := 0 }) })

/-- `vfs_open`. -/
def vfsOpen (v : FsVfs σ Ctx Node) (s : σ) (path : List UInt8) (flags : Nat) :
    Int × FsVfs σ Ctx Node × σ :=
  match resolveFile v s path with
  | some (m, node) =>
      let (fd, v) := allocFd v m node flags
      (fd, v, s)
  | none =>
      if flags &&& vfsOCreate = 0 then (-1, v, s)
      else
        let (rc, s) := vfsCreate v s path
        if rc < 0 then (-1, v, s)
        else
          match resolveFile v s path with
          | none => (-1, v, s)
          | some (m, node) =>
              let (fd, v) := allocFd v m node flags
              (fd, v, s)

/-- The descriptor `fd`, if it is in range and used. -/
def usedFd (v : FsVfs σ Ctx Node) (fd : Int) : Option (VfsFd (VfsFsOps σ Ctx Node) Ctx Node) :=
  if fd < 0 ∨ fd ≥ vfsMaxFd then none else (v.fds[fd.toNat]?).join

/-- `if (rc > 0) g_fds[fd].pos += (size_t)rc;`. -/
def advanceFd (v : FsVfs σ Ctx Node) (fd : Int) (f : VfsFd (VfsFsOps σ Ctx Node) Ctx Node)
    (rc : Int) : FsVfs σ Ctx Node :=
  if rc > 0 then { v with fds := v.fds.set fd.toNat (some { f with pos := f.pos + rc.toNat }) }
  else v

/-- `vfs_read`: the return value, the bytes read and the descriptors. -/
def vfsRead (v : FsVfs σ Ctx Node) (s : σ) (fd : Int) (n : Nat) :
    Int × List UInt8 × FsVfs σ Ctx Node :=
  match usedFd v fd with
  | none => (-1, [], v)
  | some f =>
      match f.ops.read with
      | none => (-1, [], v)
      | some read =>
          if f.flags &&& vfsOWronly = vfsOWronly then (-1, [], v)
          else
            let (rc, bytes) := read s f.ctx f.node f.pos n
            (rc, bytes, advanceFd v fd f rc)

/-- `vfs_write` of the bytes `buf`. -/
def vfsWrite (v : FsVfs σ Ctx Node) (s : σ) (fd : Int) (buf : List UInt8) :
    Int × FsVfs σ Ctx Node × σ :=
  match usedFd v fd with
  | none => (-1, v, s)
  | some f =>
      match f.ops.write with
      | none => (-1, v, s)
      | some write =>
          if f.flags &&& vfsOWronly = 0 ∧ f.flags &&& vfsORdwr ≠ vfsORdwr then (-1, v, s)
          else
            let (rc, s) := write s f.ctx f.node f.pos buf
            (rc, advanceFd v fd f rc, s)

/-- `vfs_close`. -/
def vfsClose (v : FsVfs σ Ctx Node) (fd : Int) : Int × FsVfs σ Ctx Node :=
  match usedFd v fd with
  | none => (-1, v)
  | some _ => (0, { v with fds := v.fds.set fd.toNat none })

/-! ## Directories -/

/-- The loop of `vfs_listdir` from `index` on: the entries the callback gets.
It ends where `readdir` fails or the callback returns something else than 0;
`none` where the rounds run out first. -/
def listdirLoop (readdir : Nat → Option (List UInt8 × Bool × Nat)) (callback : VfsDirent → Int) :
    Nat → Nat → Option (List VfsDirent)
  | 0, _ => none
  | rounds + 1, index =>
      match readdir index with
      | none => some []
      | some (name, isDir, size) =>
          let ent : VfsDirent := { name, isDir, size }
          if callback ent ≠ 0 then some [ent]
          else (listdirLoop readdir callback rounds (index + 1)).map (ent :: ·)

/-- `vfs_listdir`: the return value and the entries the callback gets, where
the listing ends within `rounds` rounds. -/
def vfsListdir (rounds : Nat) (v : FsVfs σ Ctx Node) (s : σ) (path : List UInt8)
    (callback : VfsDirent → Int) : Option (Int × List VfsDirent) :=
  match resolvePath v s path with
  | none => some (-1, [])
  | some (m, node, isDir) =>
      match isDir, m.ops.readdir with
      | true, some readdir =>
          (listdirLoop (readdir s m.ctx node) callback rounds 0).map fun ents => (0, ents)
      | _, _ => some (-1, [])

/-- `vfs_stat`; `none` where it returns -1. -/
def vfsStat (v : FsVfs σ Ctx Node) (s : σ) (path : List UInt8) : Option VfsStat :=
  match resolvePath v s path with
  | none => none
  | some (m, node, isDir) =>
      some {
        isDir
        size := if isDir then 0 else match m.ops.size with
          | none => 0
          | some size => size s m.ctx node }

/-- `vfs_chdir`. -/
def vfsChdir (v : FsVfs σ Ctx Node) (s : σ) (path : List UInt8) : Int × FsVfs σ Ctx Node :=
  match normalizePath v.cwd path with
  | none => (-1, v)
  | some norm =>
      match resolvePath v s norm with
      | some (_, _, true) => (0, { v with cwd := (copyStr norm vfsMaxPath).getD v.cwd })
      | _ => (-1, v)

end Calls

end RoninOS.Fs
