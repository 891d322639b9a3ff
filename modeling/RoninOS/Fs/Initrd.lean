/-
RoninOS.Fs.Initrd — `kernel/fs/initrd.c`: the boot modules as files.

`g_initrd` is filled from the module tags of the Multiboot2 block. Its nodes
are the address of `root_sentinel` and those of the entries of `files`; other
file systems of the boot sequence keep their own state and nodes, which the
type parameters stand for. `uint32_t` and `size_t` are 32 bits wide.
-/
import RoninOS.Fs.VfsOps
import RoninOS.Lib.Buffer
import RoninOS.Mem.Multiboot2

namespace RoninOS.Fs

open RoninOS.Lib RoninOS.Mem

/-! ## State -/

/-- `INITRD_MAX_FILES`. -/
def initrdMaxFiles : Nat := 32
/-- `INITRD_MAX_NAME`. -/
def initrdMaxName : Nat := 32

/-- `initrd_file_t`. -/
structure InitrdFile where
  used : Bool
  data : Nat
  size : Nat
  name : Buffer initrdMaxName

/-- A file after `memset`. -/
def zeroFile : InitrdFile where
  used := false
  data := 0
  size := 0
  name := .zero initrdMaxName

/-- `initrd_ctx_t`; entries of `files` from `INITRD_MAX_FILES` on are not used. -/
structure InitrdCtx where
  files : Nat → InitrdFile
  count : Nat

/-- `g_initrd` after `memset`. -/
def zeroCtx : InitrdCtx where
  files := fun _ => zeroFile
  count := 0

/-- What the file systems of the boot sequence act on. -/
structure BootState (Other : Type) where
  mem : Mem
  initrd : InitrdCtx
  other : Other

/-- The nodes they hand to the VFS. -/
inductive BootNode (Node : Type)
  | root
  | file (i : Nat)
  | other (node : Node)

/-- The node of another file system. -/
def BootNode.otherNode {Node : Type} : BootNode Node → Option Node
  | .other node => some node
  | _ => none

/-! ## Names -/

/-- The loop of `append_u32` that fills `rev`. -/
def revDigits : Nat → Nat → List UInt8
  | 0, _ => []
  | rounds + 1, n => if n = 0 then [] else UInt8.ofNat (48 + n % 10) :: revDigits rounds (n / 10)

/-- `append_u32(out + pos, n)`. -/
def appendU32 {k : Nat} (out : Buffer k) (pos n : Nat) : Buffer k :=
  if n = 0 then (out.write pos [48]).write (pos + 1) [0]
  else
    let digits := (revDigits 10 n).reverse
    (out.write pos digits).write (pos + digits.length) [0]

/-- `while (start < p)` with `k` bytes left before `p`: the bytes from `last` on. -/
def lastLoop : Nat → List UInt8 → List UInt8 → List UInt8
  | k + 1, c :: start, last => lastLoop k start (if c = slash then start else last)
  | _, _, last => last

/-- `basename_from_cmdline`. -/
def basenameFromCmdline {k : Nat} (cmdline : List UInt8) (out : Buffer k) (outSz idx : Nat) :
    Buffer k :=
  if cmdline = [] then appendU32 (out.write 0 (ascii "module")) 6 idx
  else
    let p := (cmdline.takeWhile (· ≠ 32)).length
    let last := lastLoop p cmdline cmdline
    let name := (last.takeWhile (· ≠ 32)).take (outSz - 1)
    if name = [] then appendU32 (out.write 0 (ascii "module")) 6 idx
    else (out.write 0 name).write name.length [0]

/-! ## The operations behind the VFS -/

section Operations

variable {Other Node : Type}

/-- The loop of `initrd_lookup` from entry `i` on, with `k` entries left. -/
def initrdLookupLoop (fs : InitrdCtx) (name : List UInt8) : Nat → Nat → Option Nat
  | 0, _ => none
  | k + 1, i =>
      if (fs.files i).used = true ∧ strcmp (fs.files i).name.str name = 0 then some i
      else initrdLookupLoop fs name k (i + 1)

/-- `initrd_lookup`. -/
def initrdLookup (s : BootState Other) (dir : BootNode Node) (name : List UInt8) :
    Option (BootNode Node × Bool) :=
  match dir with
  | .root => (initrdLookupLoop s.initrd name s.initrd.count 0).map fun i => (.file i, false)
  | _ => none

/-- `(int)can`. -/
def intOfU32 (n : Nat) : Int := if n < 2 ^ 31 then n else n - 2 ^ 32

/-- `initrd_read` of `n` bytes: the return value and what it puts in the buffer.
The VFS passes nodes that `initrd_lookup` found. -/
def initrdRead (s : BootState Other) (node : BootNode Node) (offset n : Nat) :
    Int × List UInt8 :=
  match node with
  | .file i =>
      let file := s.initrd.files i
      if offset ≥ file.size then (0, [])
      else
        let can := min (file.size - offset) n
        (intOfU32 can, (List.range can).map fun k => s.mem (add32 file.data (offset + k)))
  | _ => (-1, [])

/-- The loop of `initrd_readdir` from entry `i` on, with `k` entries left. -/
def initrdReaddirLoop (fs : InitrdCtx) (index : Nat) : Nat → Nat → Nat → Option Nat
  | 0, _, _ => none
  | k + 1, i, current =>
      if (fs.files i).used = false then initrdReaddirLoop fs index k (i + 1) current
      else if current = index then some i
      else initrdReaddirLoop fs index k (i + 1) (current + 1)

/-- `initrd_readdir`. -/
def initrdReaddir (s : BootState Other) (dir : BootNode Node) (index : Nat) :
    Option (List UInt8 × Bool × Nat) :=
  match dir with
  | .root => (initrdReaddirLoop s.initrd index s.initrd.count 0 0).map fun i =>
      ((s.initrd.files i).name.str, false, (s.initrd.files i).size)
  | _ => none

/-- `initrd_size`. -/
def initrdSize (s : BootState Other) (node : BootNode Node) : Nat :=
  match node with
  | .file i => (s.initrd.files i).size
  | _ => 0

/-- `g_initrd_ops`; `initrd_create` and `initrd_write` always fail. -/
def initrdOps : VfsFsOps (BootState Other) Unit (BootNode Node) where
  getRoot := some fun _ _ => .root
  lookup := some fun s _ dir name => initrdLookup s dir name
  create := some fun s _ _ _ _ => (-1, s)
  read := some fun s _ node offset n => initrdRead s node offset n
  write := some fun s _ _ _ _ => (-1, s)
  readdir := some fun s _ dir index => initrdReaddir s dir index
  size := some fun s _ node => initrdSize s node

/-! ## Mounting -/

/-- The string at `a`; `none` where no NUL ends it within `fuel` bytes. -/
def stringAt (mem : Mem) : Nat → Nat → Option (List UInt8)
  | 0, _ => none
  | fuel + 1, a =>
      if mem a = 0 then some [] else (stringAt mem fuel (add32 a 1)).map (mem a :: ·)

/-- A file for module number `modIdx`, as the loop fills it in. -/
def moduleFile (file : InitrdFile) (modStart modEnd modIdx : Nat) (string : List UInt8) :
    InitrdFile where
  used := true
  data := modStart
  size := sub32 modEnd modStart
  name := basenameFromCmdline string file.name initrdMaxName modIdx

/-- The body of the loop of `initrd_mount_from_multiboot`, on `g_initrd` and
`mod_idx`. -/
def initrdTag (fuel : Nat) (mem : Mem) (s : InitrdCtx × Nat) (tag : Nat) :
    Option (InitrdCtx × Nat) :=
  if ld32 mem tag = tagTypeModule then
    let (fs, modIdx) := s
    if fs.count < initrdMaxFiles then
      (stringAt mem fuel (tag + 16)).map fun string =>
        ({ files := Function.update fs.files fs.count
            (moduleFile (fs.files fs.count) (ld32 mem (tag + 8)) (ld32 mem (tag + 12)) modIdx string)
           count := fs.count + 1 }, add32 modIdx 1)
    else some (fs, add32 modIdx 1)
  else some s

/-- `"/initrd"`. -/
def initrdPath : CString := ⟨ascii "/initrd", by decide⟩

/-- `initrd_mount_from_multiboot`; `none` where a loop runs out of fuel. -/
def initrdMountFromMultiboot (fuel : Nat) (v : FsVfs (BootState Other) Unit (BootNode Node))
    (s : BootState Other) (mbMagic mbInfoAddr : Nat) :
    Option (FsVfs (BootState Other) Unit (BootNode Node) × BootState Other) :=
  let s := { s with initrd := zeroCtx }
  let (rc, v) := vfsMount v initrdPath (some initrdOps) ()
  if rc < 0 then some (v, s)
  else if mbMagic ≠ multiboot2BootloaderMagic ∨ mbInfoAddr = 0 then some (v, s)
  else
    let total := ld32 s.mem mbInfoAddr
    let tag := add32 mbInfoAddr 8
    let endTag := sub32 (add32 mbInfoAddr total) 8
    (tagLoop s.mem endTag (initrdTag fuel s.mem) fuel tag (s.initrd, 0)).map fun (fs, _) =>
      (v, { s with initrd := fs })

/-- A file system of the boot sequence other than the initrd. -/
def bootOps (ops : VfsFsOps Other Unit Node) : VfsFsOps (BootState Other) Unit (BootNode Node) where
  getRoot := ops.getRoot.map fun f s ctx => .other (f s.other ctx)
  lookup := ops.lookup.map fun f s ctx dir name => dir.otherNode.bind fun dir =>
    (f s.other ctx dir name).map fun (node, isDir) => (.other node, isDir)
  create := ops.create.map fun f s ctx dir name isDir => match dir with
    | .other dir =>
        let (rc, other) := f s.other ctx dir name isDir
        (rc, { s with other })
    | _ => (-1, s)
  read := ops.read.map fun f s ctx node offset n => match node with
    | .other node => f s.other ctx node offset n
    | _ => (-1, [])
  write := ops.write.map fun f s ctx node offset buf => match node with
    | .other node =>
        let (rc, other) := f s.other ctx node offset buf
        (rc, { s with other })
    | _ => (-1, s)
  readdir := ops.readdir.map fun f s ctx dir index => dir.otherNode.bind fun dir =>
    f s.other ctx dir index
  size := ops.size.map fun f s ctx node => (node.otherNode.map (f s.other ctx)).getD 0

/-- The VFS of `kmain` before the initrd: `vfs_init` and
`vfs_mount("/", rootOps, 0)`. -/
def kernelVfs (rootOps : VfsFsOps (BootState Other) Unit (BootNode Node)) :
    FsVfs (BootState Other) Unit (BootNode Node) :=
  (vfsMount vfsInit rootPath (some rootOps) ()).2

end Operations

end RoninOS.Fs
