/-
RoninOS.Fs.Ramfs — the node table of `kernel/fs/ramfs.c`: the file system
behind the VFS and the older calls on names of the root directory.

The table is a function from node numbers to nodes, and a node pointer is the
number of its node. A loop over `next_sibling` gets a bound on its rounds and
is `none` when they run out; the callers ask for more rounds than there are
nodes. `size_t` is `Nat`, except where `ramfs_write` subtracts.
-/
import RoninOS.Lib.Buffer
import RoninOS.Lib.CString
import Mathlib.Logic.Function.Basic

namespace RoninOS.Fs

open RoninOS.Lib

/-! ## Nodes -/

/-- `RAMFS_MAX_NODES`. -/
def ramfsMaxNodes : Nat := 96
/-- `RAMFS_MAX_NAME`. -/
def ramfsMaxName : Nat := 24
/-- `RAMFS_MAX_CONTENT`. -/
def ramfsMaxContent : Nat := 512

/-- `ramfs_node_t`. -/
structure RamfsNode where
  used : Bool
  isDir : Bool
  parent : Int
  firstChild : Int
  nextSibling : Int
  name : Buffer ramfsMaxName
  data : Buffer ramfsMaxContent
  size : Nat

/-- A node after `memset(&node, 0, sizeof(node))`. -/
def zeroNode : RamfsNode where
  used := false
  isDir := false
  parent := 0
  firstChild := 0
  nextSibling := 0
  name := Buffer.zero ramfsMaxName
  data := Buffer.zero ramfsMaxContent
  size := 0

/-- `g_nodes`. -/
abbrev RamfsTable := Nat → RamfsNode

/-- The name of a node as `strcmp` reads it. -/
def RamfsNode.nameStr (node : RamfsNode) : List UInt8 := node.name.str

/-- A round bound that no list of distinct nodes reaches. -/
def ramfsRounds : Nat := ramfsMaxNodes + 1

/-! ## Names, allocation and children -/

/-- `s_copy` into a buffer of `n` bytes: the return value and the buffer. -/
def sCopy {n : Nat} (dst : Buffer n) (src : List UInt8) : Int × Buffer n :=
  if src = [] then (-1, dst)
  else
    let k := min src.length (n - 1)
    let dst := dst.write 0 (src.take k)
    -- `src[n]` is not the terminator: the name did not fit
    if k < src.length then (-1, dst) else (0, dst.write k [0])

/-- `node_alloc`: the first unused node, cleared. -/
def nodeAlloc (t : RamfsTable) : Option (Nat × RamfsTable) :=
  ((List.range ramfsMaxNodes).find? fun i => !(t i).used).map fun i =>
    (i, Function.update t i
      { zeroNode with used := true, parent := -1, firstChild := -1, nextSibling := -1 })

/-- The loop of `node_find_child` from `child` on. -/
def findChildLoop (t : RamfsTable) (name : List UInt8) : Nat → Int → Option Int
  | 0, _ => none
  | rounds + 1, child =>
      if child < 0 then some (-1)
      else if strcmp (t child.toNat).nameStr name = 0 then some child
      else findChildLoop t name rounds (t child.toNat).nextSibling

/-- `node_find_child`. -/
def nodeFindChild (t : RamfsTable) (dir : Nat) (name : List UInt8) : Int :=
  (findChildLoop t name ramfsRounds (t dir).firstChild).getD (-1)

/-- `node_create_child`: the new node, or -1 or -2, and the table. -/
def nodeCreateChild (t : RamfsTable) (dir : Nat) (name : List UInt8) (isDir : Bool) :
    Int × RamfsTable :=
  if nodeFindChild t dir name ≥ 0 then (-1, t)
  else
    match nodeAlloc t with
    | none => (-2, t)
    | some (idx, t) =>
        let (ret, copied) := sCopy (t idx).name name
        let t := Function.update t idx { t idx with name := copied }
        if ret < 0 then (-1, Function.update t idx { t idx with used := false })
        else
          let t := Function.update t idx
            { t idx with isDir, parent := dir, nextSibling := (t dir).firstChild }
          (idx, Function.update t dir { t dir with firstChild := idx })

/-! ## The operations behind the VFS -/

/-- `fs_get_root`. -/
def fsGetRoot : Nat := 0

/-- The guard of the operations that take a directory. -/
def notDir (t : RamfsTable) (dir : Nat) : Prop := dir ≥ ramfsMaxNodes ∨ (t dir).isDir = false

instance (t : RamfsTable) (dir : Nat) : Decidable (notDir t dir) :=
  inferInstanceAs (Decidable (dir ≥ ramfsMaxNodes ∨ (t dir).isDir = false))

/-- `fs_lookup`: the child and its `is_dir`. -/
def fsLookup (t : RamfsTable) (dir : Nat) (name : List UInt8) : Option (Nat × Bool) :=
  if notDir t dir then none
  else
    let idx := nodeFindChild t dir name
    if idx < 0 then none else some (idx.toNat, (t idx.toNat).isDir)

/-- `fs_create`; the VFS passes no `out_node`. -/
def fsCreate (t : RamfsTable) (dir : Nat) (name : List UInt8) (isDir : Bool) :
    Int × RamfsTable :=
  if notDir t dir then (-1, t)
  else
    let (idx, t) := nodeCreateChild t dir name isDir
    (if idx < 0 then idx else 0, t)

/-- `fs_read` of `n` bytes: the return value and what it puts in the buffer. -/
def fsRead (t : RamfsTable) (node offset n : Nat) : Int × List UInt8 :=
  if (t node).isDir then (-1, [])
  else if offset ≥ (t node).size then (0, [])
  else
    let can := min ((t node).size - offset) n
    (can, ((t node).data.bytes.drop offset).take can)

/-- `fs_write` of the bytes `buf`. -/
def fsWrite (t : RamfsTable) (node offset : Nat) (buf : List UInt8) : Int × RamfsTable :=
  if (t node).isDir then (-1, t)
  else
    let offset := min offset (t node).size
    let can := min (ramfsMaxContent - offset) buf.length
    if can = 0 then (0, t)
    else
      (can, Function.update t node
        { t node with
          data := (t node).data.write offset (buf.take can)
          size := max (t node).size (offset + can) })

/-- The loop of `fs_readdir` from `child` on, `cur` children seen. -/
def readdirLoop (t : RamfsTable) (index : Nat) : Nat → Nat → Int → Option (Option Nat)
  | 0, _, _ => none
  | rounds + 1, cur, child =>
      if child < 0 then some none
      else if cur = index then some (some child.toNat)
      else readdirLoop t index rounds (cur + 1) (t child.toNat).nextSibling

/-- `fs_readdir`: the name, `is_dir` and size of child number `index`. -/
def fsReaddir (t : RamfsTable) (dir index : Nat) : Option (List UInt8 × Bool × Nat) :=
  if notDir t dir then none
  else
    ((readdirLoop t index ramfsRounds 0 (t dir).firstChild).getD none).map fun child =>
      ((t child).nameStr, (t child).isDir, (t child).size)

/-- `fs_size`. -/
def fsSize (t : RamfsTable) (node : Nat) : Nat := if (t node).isDir then 0 else (t node).size

/-! ## The calls on names of the root directory -/

/-- `ramfs_init`. -/
def ramfsInit : RamfsTable :=
  Function.update (fun _ => zeroNode) 0
    { zeroNode with used := true, isDir := true, firstChild := -1, nextSibling := -1 }

/-- `ramfs_touch`. -/
def ramfsTouch (t : RamfsTable) (name : List UInt8) : Int × RamfsTable :=
  if name = [] then (-1, t)
  else if nodeFindChild t 0 name ≥ 0 then (0, t)
  else
    let (idx, t) := nodeCreateChild t 0 name false
    (if idx = -2 then -2 else if idx < 0 then -1 else 0, t)

/-- `ramfs_write`; no `text` is a null pointer. `none` where
`RAMFS_MAX_CONTENT - 1 - off` is below zero: the copy of almost 4 GiB that
follows leaves the table and the kernel undefined. A string shares a 32-bit
address space with the table, so `off + len` does not wrap. -/
def ramfsWrite (t : RamfsTable) (name : List UInt8) (text : Option (List UInt8)) (append : Bool) :
    Option (Int × RamfsTable) :=
  let (ret, t) := ramfsTouch t name
  if ret < 0 then some (-1, t)
  else
    let idx := nodeFindChild t 0 name
    if idx < 0 then some (-1, t)
    else
      let node := t idx.toNat
      let text := text.getD []
      let off := if append then node.size else 0
      let len := strlen text
      if off + len ≥ ramfsMaxContent ∧ off > ramfsMaxContent - 1 then none
      else
        let len := if off + len ≥ ramfsMaxContent then ramfsMaxContent - 1 - off else len
        some (0, Function.update t idx.toNat
          { node with
            data := (node.data.write off (text.take len)).write (off + len) [0]
            size := off + len })

/-- `ramfs_read`: `data` and `*out_size`. -/
def ramfsRead (t : RamfsTable) (name : List UInt8) : Option (Buffer ramfsMaxContent × Nat) :=
  let idx := nodeFindChild t 0 name
  if idx < 0 then none
  else if (t idx.toNat).isDir then none
  else some ((t idx.toNat).data, (t idx.toNat).size)

/-- The loop of `ramfs_remove`; `prev` is -1 at the head of the list. -/
def removeLoop (t : RamfsTable) (name : List UInt8) : Nat → Int → Int → Option (Int × RamfsTable)
  | 0, _, _ => none
  | rounds + 1, prev, cur =>
      if cur < 0 then some (-1, t)
      else
        let node := t cur.toNat
        if strcmp node.nameStr name = 0 then
          let t :=
            if prev < 0 then Function.update t 0 { t 0 with firstChild := node.nextSibling }
            else Function.update t prev.toNat
              { t prev.toNat with nextSibling := node.nextSibling }
          some (0, Function.update t cur.toNat zeroNode)
        else removeLoop t name rounds cur node.nextSibling

/-- `ramfs_remove`. -/
def ramfsRemove (t : RamfsTable) (name : List UInt8) : Int × RamfsTable :=
  (removeLoop t name ramfsRounds (-1) (t 0).firstChild).getD (-1, t)

/-- The loop of `ramfs_count`. -/
def countLoop (t : RamfsTable) : Nat → Nat → Int → Option Nat
  | 0, _, _ => none
  | rounds + 1, n, cur =>
      if cur < 0 then some n
      else
        countLoop t rounds (if (t cur.toNat).isDir then n else n + 1) (t cur.toNat).nextSibling

/-- `ramfs_count`. -/
def ramfsCount (t : RamfsTable) : Nat := (countLoop t ramfsRounds 0 (t 0).firstChild).getD 0

/-- The loop of `ramfs_get_entry`, `curi` files seen. -/
def getEntryLoop (t : RamfsTable) (index : Nat) : Nat → Nat → Int → Option (Option Nat)
  | 0, _, _ => none
  | rounds + 1, curi, cur =>
      if cur < 0 then some none
      else if (t cur.toNat).isDir then getEntryLoop t index rounds curi (t cur.toNat).nextSibling
      else if curi = index then some (some cur.toNat)
      else getEntryLoop t index rounds (curi + 1) (t cur.toNat).nextSibling

/-- `ramfs_get_entry`: the name and size of file number `index`. -/
def ramfsGetEntry (t : RamfsTable) (index : Nat) : Option (List UInt8 × Nat) :=
  ((getEntryLoop t index ramfsRounds 0 (t 0).firstChild).getD none).map fun cur =>
    ((t cur).nameStr, (t cur).size)

end RoninOS.Fs
