/-
RoninOS.Fs.VfsFiles — descriptors on a mounted RAMFS.

A descriptor is an abstract one: the path of its file, the flags it was opened
with and a position. Opening, reading, writing and closing act on those and on
the bytes that the tree holds (`fileNext`). The code follows, with one
exception: `vfs_read` takes the write bit alone for the access mode, so it
refuses `VFS_O_RDWR` descriptors and serves those opened with neither bit.
`descriptor_semantics_iff` says that this is all that differs.
-/
import RoninOS.Fs.VfsTree

namespace RoninOS.Fs

open RoninOS.Lib

/-! ## Abstract descriptors -/

/-- A file, an access mode and a position. -/
structure FileFd where
  path : List (List UInt8)
  flags : Nat
  pos : Nat

/-- The tree, the working directory and the descriptors. -/
structure FileState extends TreeState where
  fds : List (Option FileFd)

/-- Opened `VFS_O_RDONLY` or `VFS_O_RDWR`. -/
def FileFd.reads (f : FileFd) : Prop := f.flags &&& 3 = vfsORdonly ∨ f.flags &&& 3 = vfsORdwr

/-- Opened `VFS_O_WRONLY` or `VFS_O_RDWR`. -/
def FileFd.writes (f : FileFd) : Prop := f.flags &&& 3 = vfsOWronly ∨ f.flags &&& 3 = vfsORdwr

instance (f : FileFd) : Decidable f.reads :=
  inferInstanceAs (Decidable (f.flags &&& 3 = vfsORdonly ∨ f.flags &&& 3 = vfsORdwr))

instance (f : FileFd) : Decidable f.writes :=
  inferInstanceAs (Decidable (f.flags &&& 3 = vfsOWronly ∨ f.flags &&& 3 = vfsORdwr))

/-- The open descriptor with a number. -/
def FileState.fd (a : FileState) (fd : Int) : Option FileFd :=
  if fd < 0 ∨ fd ≥ vfsMaxFd then none else (a.fds[fd.toNat]?).join

/-- The bytes of the file at a path. -/
def fileBytes (tree : Tree) (p : List (List UInt8)) : List UInt8 :=
  match tree.lookup p with
  | some (.file bytes) => bytes
  | _ => []

/-- Take the first free descriptor for a file. -/
def FileState.alloc (a : FileState) (p : List (List UInt8)) (flags : Nat) : Int × FileState :=
  match a.fds.findIdx? Option.isNone with
  | none => (-1, a)
  | some i => (i, { a with fds := a.fds.set i (some { path := p, flags, pos := 0 }) })

/-- Open the file at a path, creating it where the flags ask for that. -/
def fileOpen (a : FileState) (path : Option (List (List UInt8))) (flags : Nat) :
    Int × FileState :=
  match path with
  | none => (-1, a)
  | some p =>
      match a.tree.lookup p with
      | some (.file _) => a.alloc p flags
      | _ =>
          if flags &&& vfsOCreate = 0 then (-1, a)
          else if (treeCreate a.tree (some p) false).1 then
            FileState.alloc { a with tree := (treeCreate a.tree (some p) false).2 } p flags
          else (-1, a)

/-- Read at most `n` bytes from the position on. -/
def fileRead (a : FileState) (fd : Int) (n : Nat) : Int × List UInt8 × FileState :=
  match a.fd fd with
  | none => (-1, [], a)
  | some f =>
      if f.reads then
        let bytes := ((fileBytes a.tree f.path).drop f.pos).take n
        (bytes.length, bytes,
          { a with fds := a.fds.set fd.toNat (some { f with pos := f.pos + bytes.length }) })
      else (-1, [], a)

/-- Replace or extend the bytes at the position, up to the file limit. -/
def fileWrite (a : FileState) (fd : Int) (buf : List UInt8) : Int × FileState :=
  match a.fd fd with
  | none => (-1, a)
  | some f =>
      if f.writes then
        let old := fileBytes a.tree f.path
        let bytes := buf.take (ramfsMaxContent - f.pos)
        (bytes.length,
          { a with
            tree := a.tree.insert f.path
              (.file (old.take f.pos ++ bytes ++ old.drop (f.pos + bytes.length)))
            fds := a.fds.set fd.toNat (some { f with pos := f.pos + bytes.length }) })
      else (-1, a)

/-- Close an open descriptor. -/
def fileClose (a : FileState) (fd : Int) : Int × FileState :=
  match a.fd fd with
  | none => (-1, a)
  | some _ => (0, { a with fds := a.fds.set fd.toNat none })

/-! ## Runs -/

/-- A VFS call. -/
inductive FileOp
  | tree (op : TreeOp)
  | open (path : CString) (flags : Nat)
  | read (fd : Int) (n : Nat)
  | write (fd : Int) (buf : List UInt8)
  | close (fd : Int)

/-- The return value of a call on descriptors, the bytes read and the state. -/
def vfsFileNext (s : RamfsVfs × RamfsTable) : FileOp → (Int × List UInt8) × RamfsVfs × RamfsTable
  | .tree op => ((0, []), vfsNext s op)
  | .open path flags =>
      let (fd, v, t) := vfsOpen s.1 s.2 path.bytes flags
      ((fd, []), v, t)
  | .read fd n =>
      let (rc, bytes, v) := vfsRead s.1 s.2 fd n
      ((rc, bytes), v, s.2)
  | .write fd buf =>
      let (rc, v, t) := vfsWrite s.1 s.2 fd buf
      ((rc, []), v, t)
  | .close fd =>
      let (rc, v) := vfsClose s.1 fd
      ((rc, []), v, s.2)

/-- What the call means for abstract descriptors. -/
def fileNext (ms : List (List UInt8)) (a : FileState) : FileOp → (Int × List UInt8) × FileState
  | .tree op => ((0, []), { a with toTreeState := treeNext ms a.toTreeState op })
  | .open path flags =>
      let (fd, a) := fileOpen a (treePath a.cwd ms path.bytes) flags
      ((fd, []), a)
  | .read fd n =>
      let (rc, bytes, a) := fileRead a fd n
      ((rc, bytes), a)
  | .write fd buf =>
      let (rc, a) := fileWrite a fd buf
      ((rc, []), a)
  | .close fd =>
      let (rc, a) := fileClose a fd
      ((rc, []), a)

/-- A read is on a descriptor opened with exactly one of the access bits. -/
def ModeOk (a : FileState) : FileOp → Prop
  | .read fd _ => ∀ f, a.fd fd = some f →
      f.flags &&& 3 = vfsORdonly ∨ f.flags &&& 3 = vfsOWronly
  | _ => True

/-! ## Descriptors that hold -/

/-- A descriptor of `g_fds`. -/
abbrev RamfsFd := VfsFd (VfsFsOps RamfsTable Unit Nat) Unit Nat

/-- The abstract descriptor, with the paths of the nodes. -/
def absFd (path : Nat → List (List UInt8)) (f : RamfsFd) : FileFd where
  path := path f.node
  flags := f.flags
  pos := f.pos

/-- A descriptor of a file in use, with its position within the file. -/
structure GoodFd (t : RamfsTable) (f : RamfsFd) : Prop where
  ops : f.ops = ramfsOps
  used : (t f.node).used = true
  file : (t f.node).isDir = false
  pos_le : f.pos ≤ (t f.node).size

/-- The nodes hold the tree, and the descriptors are the abstract ones. -/
structure FilesHold (ms : List (List UInt8)) (s : RamfsVfs × RamfsTable) (a : FileState)
    (kids : Nat → List Nat) (path : Nat → List (List UInt8)) : Prop where
  only : OnlyRamfs s.1 ms
  cwd : s.1.cwd = a.cwd
  tree : HoldsTree s.2 kids path a.tree
  fds : a.fds = s.1.fds.map (Option.map (absFd path))
  good : ∀ f, some f ∈ s.1.fds → GoodFd s.2 f

section Holding

variable {ms : List (List UInt8)} {v : RamfsVfs} {t : RamfsTable} {a : FileState}
  {kids : Nat → List Nat} {path : Nat → List (List UInt8)}

/-- The used descriptor with a number is good and is the abstract one. -/
theorem FilesHold.fd_cases (h : FilesHold ms (v, t) a kids path) (fd : Int) :
    (usedFd v fd = none ∧ a.fd fd = none) ∨
    ∃ f, usedFd v fd = some f ∧ a.fd fd = some (absFd path f) ∧ GoodFd t f ∧
      v.fds[fd.toNat]? = some (some f) := by
  have hfds : a.fds = v.fds.map (Option.map (absFd path)) := h.fds
  unfold usedFd FileState.fd
  by_cases hrange : fd < 0 ∨ fd ≥ vfsMaxFd
  · rw [if_pos hrange, if_pos hrange]
    exact Or.inl ⟨rfl, rfl⟩
  · rw [if_neg hrange, if_neg hrange, hfds, List.getElem?_map]
    cases hslot : v.fds[fd.toNat]? with
    | none => exact Or.inl ⟨rfl, rfl⟩
    | some slot =>
        cases slot with
        | none => exact Or.inl ⟨rfl, rfl⟩
        | some f => exact Or.inr ⟨f, rfl, rfl, h.good f (List.mem_of_getElem? hslot), rfl⟩

/-- The bytes of a file are what the tree holds at its path. -/
theorem FilesHold.fileBytes_eq (h : FilesHold ms (v, t) a kids path) {i : Nat}
    (hi : (t i).used = true) (hfile : (t i).isDir = false) :
    fileBytes a.tree (path i) = contents (t i) := by
  rw [fileBytes, h.tree.lookup_path hi, entryOf, if_neg (by rw [hfile]; decide)]

/-- Storing a descriptor. -/
theorem FilesHold.setFd (h : FilesHold ms (v, t) a kids path) (i : Nat) (slot : Option RamfsFd)
    (hslot : ∀ f, slot = some f → GoodFd t f) :
    FilesHold ms ({ v with fds := v.fds.set i slot }, t)
      { a with fds := a.fds.set i (slot.map (absFd path)) } kids path := by
  have hfds : a.fds = v.fds.map (Option.map (absFd path)) := h.fds
  refine ⟨⟨h.only.comps, h.only.mounts, h.only.cwd_no_nul⟩, h.cwd, h.tree, ?_, fun f hf => ?_⟩
  · simp only [hfds, List.map_set]
  · rcases List.mem_or_eq_of_mem_set hf with hf | hf
    · exact h.good f hf
    · exact hslot f hf.symm

/-- New nodes keep the descriptors. -/
theorem FilesHold.grow (h : FilesHold ms (v, t) a kids path) {t' : RamfsTable} {tree' : Tree}
    {kids' : Nat → List Nat} {path' : Nat → List (List UInt8)}
    (hholds : HoldsTree t' kids' path' tree')
    (hkeep : ∀ j, (t j).used = true → path' j = path j ∧
      t' j = { t j with firstChild := (t' j).firstChild }) :
    FilesHold ms (v, t') { a with tree := tree' } kids' path' := by
  refine ⟨h.only, h.cwd, hholds, ?_, fun f hf => ?_⟩
  · have hfds : a.fds = v.fds.map (Option.map (absFd path)) := h.fds
    simp only [hfds]
    refine List.map_congr_left fun slot hslot => ?_
    cases slot with
    | none => rfl
    | some f =>
        have hpath := (hkeep f.node (h.good f hslot).used).1
        rw [Option.map_some, Option.map_some, absFd, absFd, hpath]
  · obtain ⟨hops, hused, hfile, hpos⟩ := h.good f hf
    have hnode := (hkeep f.node hused).2
    refine ⟨hops, ?_, ?_, ?_⟩ <;> simp only <;> rw [hnode]
    · exact hused
    · exact hfile
    · exact hpos

/-- A call that changes no used node keeps the descriptors. -/
theorem FilesHold.unchanged (h : FilesHold ms (v, t) a kids path) {t' : RamfsTable}
    (hsame : Unchanged t t') : FilesHold ms (v, t') a kids path := by
  refine ⟨h.only, h.cwd, h.tree.unchanged hsame, h.fds, fun f hf => ?_⟩
  obtain ⟨hops, hused, hfile, hpos⟩ := h.good f hf
  have hnode := hsame.eq_of_used hused
  refine ⟨hops, ?_, ?_, ?_⟩ <;> simp only <;> rw [hnode]
  · exact hused
  · exact hfile
  · exact hpos

/-! ## Opening -/

/-- `vfs_create` and `vfs_mkdir` keep the descriptors. -/
theorem FilesHold.create (h : FilesHold ms (v, t) a kids path) (p : CString) (isDir : Bool) :
    ((vfsCreateNode v t p.bytes isDir).1 < 0 ↔
      (treeCreate a.tree (treePath a.cwd ms p.bytes) isDir).1 = false) ∧
    ∃ kids' path', FilesHold ms (v, (vfsCreateNode v t p.bytes isDir).2)
      { a with tree := (treeCreate a.tree (treePath a.cwd ms p.bytes) isDir).2 } kids' path' := by
  obtain ⟨⟨cwd, tree⟩, fds⟩ := a
  obtain rfl : v.cwd = cwd := h.cwd
  rcases h.tree.vfsCreateNode h.only p isDir with
    ⟨hret, hok, kids', path', hholds, hkeep⟩ | ⟨hret, hfail, hsame⟩
  · exact ⟨iff_of_false (by simp only at hret; omega) (by simp [hok]), kids', path',
      h.grow hholds hkeep⟩
  · simp only at hfail
    rw [hfail]
    exact ⟨iff_of_true hret rfl, kids, path, h.unchanged hsame⟩

/-- `resolve_path` of a file, as `vfs_open` uses it. -/
theorem FilesHold.resolveFile_cases (h : FilesHold ms (v, t) a kids path) (p : CString) :
    (∃ rest j bytes, treePath a.cwd ms p.bytes = some rest ∧ (t j).used = true ∧
      (t j).isDir = false ∧ path j = rest ∧ a.tree.lookup rest = some (.file bytes) ∧
      resolveFile v t p.bytes = some (ramfsMount ms, j)) ∨
    (resolveFile v t p.bytes = none ∧
      ∀ rest bytes, treePath a.cwd ms p.bytes = some rest →
        a.tree.lookup rest ≠ some (.file bytes)) := by
  have hcwd : v.cwd = a.cwd := h.cwd
  rw [← hcwd]
  unfold resolveFile
  rcases h.tree.resolvePath h.only p with ⟨hres, hlookup⟩ | ⟨rest, j, htree, hj, hpath, hlookup, hres⟩
  · simp only at hres hlookup
    refine Or.inr ⟨by rw [hres], fun rest bytes htree => ?_⟩
    rw [htree, Option.bind_some] at hlookup
    rw [hlookup]
    simp
  · simp only at hres htree
    rw [hres]
    by_cases hdir : (t j).isDir = true
    · refine Or.inr ⟨by rw [hdir], fun rest' bytes htree' => ?_⟩
      rw [htree, Option.some.injEq] at htree'
      rw [← htree', hlookup, entryOf, if_pos hdir]
      simp
    · have hfile : (t j).isDir = false := by simpa using hdir
      refine Or.inl ⟨rest, j, contents (t j), htree, hj, hfile, hpath, ?_, by rw [hfile]⟩
      rw [hlookup, entryOf, if_neg hdir]

/-- The first free descriptor is the same in both. -/
theorem FilesHold.alloc (h : FilesHold ms (v, t) a kids path) {node : Nat}
    (hused : (t node).used = true) (hfile : (t node).isDir = false) (flags : Nat) :
    (allocFd v (ramfsMount ms) node flags).1 = (a.alloc (path node) flags).1 ∧
    FilesHold ms ((allocFd v (ramfsMount ms) node flags).2, t) (a.alloc (path node) flags).2
      kids path := by
  have hfree : a.fds.findIdx? Option.isNone = v.fds.findIdx? Option.isNone := by
    have hfds : a.fds = v.fds.map (Option.map (absFd path)) := h.fds
    rw [hfds, List.findIdx?_map]
    congr 1
    funext slot
    cases slot <;> rfl
  unfold allocFd FileState.alloc
  rw [hfree]
  cases v.fds.findIdx? Option.isNone with
  | none => exact ⟨rfl, h⟩
  | some i =>
      refine ⟨rfl, h.setFd i (some { flags, ops := (ramfsMount ms).ops, ctx := (), node, pos := 0 })
        fun f hf => ?_⟩
      rw [← Option.some.inj hf]
      exact ⟨rfl, hused, hfile, Nat.zero_le _⟩

/-- Opening where the tree has no file. -/
theorem fileOpen_absent {p : List (List UInt8)} (flags : Nat)
    (hno : ∀ bytes, a.tree.lookup p ≠ some (.file bytes)) :
    fileOpen a (some p) flags =
      if flags &&& vfsOCreate = 0 then (-1, a)
      else if (treeCreate a.tree (some p) false).1 then
        FileState.alloc { a with tree := (treeCreate a.tree (some p) false).2 } p flags
      else (-1, a) := by
  unfold fileOpen
  cases hlookup : a.tree.lookup p with
  | none => simp only [hlookup]
  | some e =>
      cases e with
      | dir => simp only [hlookup]
      | file bytes => exact absurd hlookup (hno bytes)

/-- `vfs_open` opens the file of the tree. -/
theorem FilesHold.open (h : FilesHold ms (v, t) a kids path) (p : CString) (flags : Nat) :
    (vfsOpen v t p.bytes flags).1 = (fileOpen a (treePath a.cwd ms p.bytes) flags).1 ∧
    ∃ kids' path', FilesHold ms (vfsOpen v t p.bytes flags).2
      (fileOpen a (treePath a.cwd ms p.bytes) flags).2 kids' path' := by
  unfold vfsOpen
  rcases h.resolveFile_cases p with
    ⟨rest, j, bytes, htree, hj, hfile, rfl, hlookup, hres⟩ | ⟨hres, hno⟩
  · obtain ⟨hret, hhold⟩ := h.alloc hj hfile flags
    rw [hres, htree, fileOpen, hlookup]
    exact ⟨hret, kids, path, hhold⟩
  · obtain ⟨hret, kids₁, path₁, h₁⟩ := h.create p false
    rw [hres]
    simp only
    cases htree : treePath a.cwd ms p.bytes with
    | none =>
        rw [htree] at hret h₁
        by_cases hcreate : flags &&& vfsOCreate = 0
        · rw [if_pos hcreate]
          exact ⟨rfl, kids, path, h⟩
        · rw [if_neg hcreate, vfsCreate, if_pos (hret.mpr rfl)]
          exact ⟨rfl, kids₁, path₁, h₁⟩
    | some rest =>
        rw [htree] at hret h₁
        rw [fileOpen_absent flags fun bytes => hno rest bytes htree]
        by_cases hcreate : flags &&& vfsOCreate = 0
        · rw [if_pos hcreate, if_pos hcreate]
          exact ⟨rfl, kids, path, h⟩
        · rw [if_neg hcreate, if_neg hcreate, vfsCreate]
          by_cases hcan : CanCreate a.tree rest
          · -- the new file is what the second `resolve_path` finds
            have htrue : treeCreate a.tree (some rest) false
                = (true, a.tree.insert rest (newEntry false)) := if_pos hcan
            rw [htrue] at hret h₁
            rw [htrue, if_neg (fun hneg => absurd (hret.mp hneg) (by simp)), if_pos rfl]
            rcases h₁.resolveFile_cases p with
              ⟨rest', j, bytes, htree', hj, hfile, rfl, -, hres'⟩ | ⟨-, hno'⟩
            · obtain rfl : rest = path₁ j := Option.some.inj (htree.symm.trans htree')
              obtain ⟨hret', hhold⟩ := h₁.alloc hj hfile flags
              rw [hres']
              exact ⟨hret', kids₁, path₁, hhold⟩
            · exact absurd (Finmap.lookup_insert _) (hno' rest [] htree)
          · have hfalse : treeCreate a.tree (some rest) false = (false, a.tree) := if_neg hcan
            rw [hfalse] at hret h₁
            rw [hfalse, if_pos (hret.mpr rfl), if_neg (by simp)]
            exact ⟨rfl, kids₁, path₁, h₁⟩

/-! ## Access modes -/

/-- The two access bits of the flags, and the write bit among them. -/
theorem access_cases (flags : Nat) :
    (flags &&& 3 = 0 ∧ flags &&& 2 = 0) ∨ (flags &&& 3 = 1 ∧ flags &&& 2 = 0) ∨
    (flags &&& 3 = 2 ∧ flags &&& 2 = 2) ∨ (flags &&& 3 = 3 ∧ flags &&& 2 = 2) := by
  have hlt : flags &&& 3 < 4 := Nat.lt_of_le_of_lt Nat.and_le_right (by decide)
  have hbit : flags &&& 2 = (flags &&& 3) &&& 2 := by
    rw [Nat.and_assoc]
    rfl
  rw [hbit]
  generalize flags &&& 3 = m at hlt
  have hcases : m = 0 ∨ m = 1 ∨ m = 2 ∨ m = 3 := by omega
  rcases hcases with rfl | rfl | rfl | rfl <;> decide

/-- `vfs_read` serves a descriptor as its mode says exactly where one of the
two access bits is set and the other is not. -/
theorem FileFd.served_iff (f : FileFd) :
    (¬ f.flags &&& vfsOWronly = vfsOWronly ↔ f.reads) ↔
      (f.flags &&& 3 = vfsORdonly ∨ f.flags &&& 3 = vfsOWronly) := by
  unfold FileFd.reads vfsORdonly vfsOWronly vfsORdwr
  rcases access_cases f.flags with ⟨h3, h2⟩ | ⟨h3, h2⟩ | ⟨h3, h2⟩ | ⟨h3, h2⟩ <;> rw [h3, h2] <;> decide

/-- `vfs_write` refuses exactly the descriptors without the write bit. -/
theorem FileFd.refused_iff (f : FileFd) :
    (f.flags &&& vfsOWronly = 0 ∧ f.flags &&& vfsORdwr ≠ vfsORdwr) ↔ ¬ f.writes := by
  unfold FileFd.writes vfsOWronly vfsORdwr
  rcases access_cases f.flags with ⟨h3, h2⟩ | ⟨h3, h2⟩ | ⟨h3, h2⟩ | ⟨h3, h2⟩ <;> rw [h3, h2] <;> decide

/-! ## Reading and writing -/

/-- A descriptor moves within its file. -/
theorem FilesHold.advance (h : FilesHold ms (v, t) a kids path) {fd : Int} {f : RamfsFd}
    (hslot : v.fds[fd.toNat]? = some (some f)) (hgood : GoodFd t f) {k : Nat}
    (hk : f.pos + k ≤ (t f.node).size) :
    FilesHold ms (advanceFd v fd f k, t)
      { a with fds := a.fds.set fd.toNat (some { absFd path f with pos := f.pos + k }) }
      kids path := by
  have hset := h.setFd fd.toNat (some { f with pos := f.pos + k }) fun g hg => by
    rw [← Option.some.inj hg]
    exact ⟨hgood.ops, hgood.used, hgood.file, hk⟩
  unfold advanceFd
  by_cases hpos : (k : Int) > 0
  · rw [if_pos hpos, Int.toNat_natCast]
    exact hset
  · obtain rfl : k = 0 := by omega
    have hsame : v.fds.set fd.toNat (some { f with pos := f.pos + 0 }) = v.fds := by
      obtain ⟨hlt, hget⟩ := List.getElem?_eq_some_iff.mp hslot
      rw [Nat.add_zero, ← hget]
      exact List.set_getElem_self hlt
    rw [if_neg hpos]
    rw [hsame] at hset
    exact hset

/-- `vfs_read` on a descriptor with one access bit. -/
theorem FilesHold.read (h : FilesHold ms (v, t) a kids path) {fd : Int} (n : Nat)
    (hmode : ModeOk a (.read fd n)) :
    (vfsRead v t fd n).1 = (fileRead a fd n).1 ∧
    (vfsRead v t fd n).2.1 = (fileRead a fd n).2.1 ∧
    FilesHold ms ((vfsRead v t fd n).2.2, t) (fileRead a fd n).2.2 kids path := by
  unfold vfsRead fileRead
  rcases h.fd_cases fd with ⟨hno, hnoAbs⟩ | ⟨f, hused, habs, hgood, hslot⟩
  · rw [hno, hnoAbs]
    exact ⟨rfl, rfl, h⟩
  · have hserved := (absFd path f).served_iff.mpr (hmode _ habs)
    have hflags : (absFd path f).flags = f.flags := rfl
    rw [hflags] at hserved
    rw [hused, habs]
    simp only [hgood.ops, ramfsOps]
    by_cases hreads : (absFd path f).reads
    · have hsize : (t f.node).size ≤ ramfsMaxContent := h.tree.size_le _ hgood.used
      have hbytes := h.fileBytes_eq hgood.used hgood.file
      have hlen := length_contents hsize
      rw [if_neg (hserved.mpr hreads), if_pos hreads, fsRead_eq hgood.file hsize]
      have hpath : (absFd path f).path = path f.node := rfl
      have hpos : (absFd path f).pos = f.pos := rfl
      rw [hpath, hpos, hbytes]
      refine ⟨rfl, rfl, h.advance hslot hgood ?_⟩
      rw [List.length_take, List.length_drop, hlen]
      have hle := hgood.pos_le
      omega
    · rw [if_pos (not_not.mp (mt hserved.mp hreads)), if_neg hreads]
      exact ⟨rfl, rfl, h⟩

/-- `vfs_write`. -/
theorem FilesHold.write (h : FilesHold ms (v, t) a kids path) (fd : Int) (buf : List UInt8) :
    (vfsWrite v t fd buf).1 = (fileWrite a fd buf).1 ∧
    FilesHold ms (vfsWrite v t fd buf).2 (fileWrite a fd buf).2 kids path := by
  unfold vfsWrite fileWrite
  rcases h.fd_cases fd with ⟨hno, hnoAbs⟩ | ⟨f, hused, habs, hgood, hslot⟩
  · rw [hno, hnoAbs]
    exact ⟨rfl, h⟩
  · have hrefused := (absFd path f).refused_iff
    have hflags : (absFd path f).flags = f.flags := rfl
    have hpath : (absFd path f).path = path f.node := rfl
    have hpos : (absFd path f).pos = f.pos := rfl
    rw [hflags] at hrefused
    rw [hused, habs]
    simp only [hgood.ops, ramfsOps]
    by_cases hwrites : (absFd path f).writes
    · have hsize : (t f.node).size ≤ ramfsMaxContent := h.tree.size_le _ hgood.used
      have hbytes := h.fileBytes_eq hgood.used hgood.file
      rw [if_neg (mt hrefused.mp (not_not.mpr hwrites)), if_pos hwrites,
        fsWrite_eq_update hgood.file, hpath, hpos, hbytes, Nat.min_eq_left hgood.pos_le]
      generalize hput : buf.take (ramfsMaxContent - f.pos) = bytes
      have hfit : f.pos + bytes.length ≤ ramfsMaxContent := by
        have hle := hgood.pos_le
        rw [← hput, List.length_take]
        omega
      rw [← contents_writeBytes hgood.pos_le hfit]
      refine ⟨rfl, ?_⟩
      have hnode := writeBytes_links (t f.node) f.pos bytes
      have hsame : ∀ g : RamfsFd, GoodFd t g →
          GoodFd (Function.update t f.node (writeBytes (t f.node) f.pos bytes)) g := by
        intro g hg
        by_cases hgf : g.node = f.node
        · have heq : Function.update t f.node (writeBytes (t f.node) f.pos bytes) g.node
              = writeBytes (t f.node) f.pos bytes := by rw [hgf, Function.update_self]
          refine ⟨hg.ops, ?_, ?_, ?_⟩ <;> rw [heq]
          · rw [hnode.used]
            exact hgood.used
          · rw [hnode.isDir]
            exact hgood.file
          · have hle := hg.pos_le
            rw [hgf] at hle
            exact Nat.le_trans hle (Nat.le_max_left ..)
        · have heq : Function.update t f.node (writeBytes (t f.node) f.pos bytes) g.node
              = t g.node := Function.update_of_ne hgf ..
          refine ⟨hg.ops, ?_, ?_, ?_⟩ <;> rw [heq]
          · exact hg.used
          · exact hg.file
          · exact hg.pos_le
      have hhold : FilesHold ms (v, Function.update t f.node (writeBytes (t f.node) f.pos bytes))
          { a with
            tree := a.tree.insert (path f.node)
              (.file (contents (writeBytes (t f.node) f.pos bytes))) } kids path :=
        ⟨h.only, h.cwd, h.tree.setFile hgood.used hgood.file hnode (size_writeBytes_le hsize hfit),
          h.fds, fun g hg => hsame g (h.good g hg)⟩
      refine hhold.advance hslot (hsame f hgood) ?_
      rw [Function.update_self]
      exact Nat.le_max_right ..
    · rw [if_pos (hrefused.mpr hwrites), if_neg hwrites]
      exact ⟨rfl, h⟩

/-- `vfs_close`. -/
theorem FilesHold.close (h : FilesHold ms (v, t) a kids path) (fd : Int) :
    (vfsClose v fd).1 = (fileClose a fd).1 ∧
    FilesHold ms ((vfsClose v fd).2, t) (fileClose a fd).2 kids path := by
  unfold vfsClose fileClose
  rcases h.fd_cases fd with ⟨hno, hnoAbs⟩ | ⟨f, hused, habs, -, -⟩
  · rw [hno, hnoAbs]
    exact ⟨rfl, h⟩
  · rw [hused, habs]
    exact ⟨rfl, h.setFd fd.toNat none fun g hg => by cases hg⟩

/-- `vfs_read` on any other used descriptor does not return what its mode says. -/
theorem FilesHold.read_differs (h : FilesHold ms (v, t) a kids path) {fd : Int} {n : Nat}
    (hmode : ¬ ModeOk a (.read fd n)) : (vfsRead v t fd n).1 ≠ (fileRead a fd n).1 := by
  unfold vfsRead fileRead
  rcases h.fd_cases fd with ⟨-, hnoAbs⟩ | ⟨f, hused, habs, hgood, -⟩
  · exact absurd (fun f hf => by rw [hnoAbs] at hf; cases hf) hmode
  · have hserved : ¬ (¬ f.flags &&& vfsOWronly = vfsOWronly ↔ (absFd path f).reads) :=
      fun hiff => hmode fun g hg => by
        rw [habs] at hg
        obtain rfl := Option.some.inj hg
        exact (absFd path f).served_iff.mp hiff
    rw [hused, habs]
    simp only [hgood.ops, ramfsOps]
    by_cases hreads : (absFd path f).reads
    · have hrefuse : f.flags &&& vfsOWronly = vfsOWronly :=
        not_not.mp fun hserve => hserved (iff_of_true hserve hreads)
      rw [if_pos hrefuse, if_pos hreads]
      simp only
      omega
    · have hserve : ¬ f.flags &&& vfsOWronly = vfsOWronly :=
        fun hrefuse => hserved (iff_of_false (not_not.mpr hrefuse) hreads)
      rw [if_neg hserve, if_neg hreads,
        fsRead_eq hgood.file (h.tree.size_le f.node hgood.used)]
      simp only
      omega

end Holding

/-! ## Following the descriptors -/

/-- The descriptors have the flags and positions of the abstract ones, and the
files of the tree are the files that can be opened, with the same bytes. -/
structure ShowsFiles (ms : List (List UInt8)) (s : RamfsVfs × RamfsTable) (a : FileState) :
    Prop where
  fds : ∀ fd, (usedFd s.1 fd).map (fun f => (f.flags, f.pos))
    = (a.fd fd).map fun f => (f.flags, f.pos)
  open_bytes : ∀ fd f g, usedFd s.1 fd = some f → a.fd fd = some g →
    a.tree.lookup g.path = some (.file (contents (s.2 f.node)))
  bytes : ∀ (p : CString) (bytes : List UInt8),
    (resolveFile s.1 s.2 p.bytes).map (fun f => contents (s.2 f.2)) = some bytes ↔
      (treePath a.cwd ms p.bytes).bind a.tree.lookup = some (.file bytes)

/-- The calls of a sequence return what they mean for abstract descriptors,
and every state shows those. -/
def FollowsFiles (ms : List (List UInt8)) :
    List FileOp → RamfsVfs × RamfsTable → FileState → Prop
  | [], s, a => ShowsFiles ms s a
  | op :: ops, s, a => ShowsFiles ms s a ∧ (vfsFileNext s op).1 = (fileNext ms a op).1 ∧
      FollowsFiles ms ops (vfsFileNext s op).2 (fileNext ms a op).2

/-- Every read of a sequence is on a descriptor opened with exactly one of the
access bits. -/
def AllModesOk (ms : List (List UInt8)) : List FileOp → FileState → Prop
  | [], _ => True
  | op :: ops, a => ModeOk a op ∧ AllModesOk ms ops (fileNext ms a op).2

section Runs

variable {ms : List (List UInt8)} {s : RamfsVfs × RamfsTable} {a : FileState}
  {kids : Nat → List Nat} {path : Nat → List (List UInt8)}

theorem vfsChdir_fds {σ Ctx Node : Type} (v : FsVfs σ Ctx Node) (t : σ) (p : List UInt8) :
    (vfsChdir v t p).2.fds = v.fds := by
  unfold vfsChdir
  cases normalizePath v.cwd p with
  | none => rfl
  | some norm =>
      simp only
      split <;> rfl

theorem treeNext_chdir_tree (a : TreeState) (p : CString) :
    (treeNext ms a (.chdir p)).tree = a.tree := by
  simp only [treeNext]
  cases treePath a.cwd ms p.bytes with
  | none => rfl
  | some rest =>
      by_cases hdir : a.tree.lookup rest = some .dir
      · simp only [if_pos hdir]
      · simp only [if_neg hdir]

/-- A call that keeps to the modes returns what it means and keeps the
descriptors. -/
theorem FilesHold.next (h : FilesHold ms s a kids path) (op : FileOp) (hmode : ModeOk a op) :
    (vfsFileNext s op).1 = (fileNext ms a op).1 ∧
    ∃ kids' path', FilesHold ms (vfsFileNext s op).2 (fileNext ms a op).2 kids' path' := by
  obtain ⟨v, t⟩ := s
  cases op with
  | tree op =>
      refine ⟨rfl, ?_⟩
      cases op with
      | create p => exact (h.create p false).2
      | mkdir p => exact (h.create p true).2
      | stat p => exact ⟨kids, path, h⟩
      | listdir p => exact ⟨kids, path, h⟩
      | chdir p =>
          have htree : VfsHolds ms (v, t) a.toTreeState := ⟨h.only, h.cwd, kids, path, h.tree⟩
          obtain ⟨honly, hcwd, -⟩ := (htree.chdir p).2
          have hfds := vfsChdir_fds v t p.bytes
          refine ⟨kids, path, honly, hcwd, ?_, ?_, fun f hf => h.good f ?_⟩
          · rw [fileNext, treeNext_chdir_tree]
            exact h.tree
          · exact h.fds.trans (by rw [vfsFileNext, vfsNext, hfds])
          · rw [vfsFileNext, vfsNext, hfds] at hf
            exact hf
  | «open» p flags =>
      obtain ⟨hret, hhold⟩ := h.open p flags
      exact ⟨Prod.ext hret rfl, hhold⟩
  | read fd n =>
      obtain ⟨hret, hbytes, hhold⟩ := h.read n hmode
      exact ⟨Prod.ext hret hbytes, kids, path, hhold⟩
  | write fd buf =>
      obtain ⟨hret, hhold⟩ := h.write fd buf
      exact ⟨Prod.ext hret rfl, kids, path, hhold⟩
  | close fd =>
      obtain ⟨hret, hhold⟩ := h.close fd
      exact ⟨Prod.ext hret rfl, kids, path, hhold⟩

/-- A call that does not keep to the modes returns something else. -/
theorem FilesHold.differs (h : FilesHold ms s a kids path) {op : FileOp} (hmode : ¬ ModeOk a op) :
    (vfsFileNext s op).1 ≠ (fileNext ms a op).1 := by
  cases op with
  | read fd n => exact fun heq => h.read_differs hmode (congrArg Prod.fst heq)
  | tree op => exact absurd trivial hmode
  | «open» p flags => exact absurd trivial hmode
  | write fd buf => exact absurd trivial hmode
  | close fd => exact absurd trivial hmode

theorem FilesHold.shows (h : FilesHold ms s a kids path) : ShowsFiles ms s a where
  fds fd := by
    rcases h.fd_cases fd with ⟨hno, hnoAbs⟩ | ⟨f, hused, habs, -, -⟩
    · rw [hno, hnoAbs]
      rfl
    · rw [hused, habs]
      rfl
  open_bytes fd f g hf hg := by
    rcases h.fd_cases fd with ⟨hno, -⟩ | ⟨f', hused, habs, hgood, -⟩
    · rw [hno] at hf
      cases hf
    · rw [hused, Option.some.injEq] at hf
      rw [habs, Option.some.injEq] at hg
      obtain rfl := hf
      obtain rfl := hg
      exact (h.tree.lookup_path hgood.used).trans (by rw [entryOf, if_neg (by simp [hgood.file])])
  bytes p bytes := by
    rcases h.resolveFile_cases p with
      ⟨rest, j, bytes', htree, hj, hfile, hpath, hlookup, hres⟩ | ⟨hres, hno⟩
    · have hentry := h.tree.lookup_path hj
      rw [hpath, hlookup, entryOf, if_neg (by simp [hfile]), Option.some.injEq] at hentry
      rw [hres, htree, Option.map_some, Option.bind_some, hlookup, Option.some.injEq,
        Option.some.injEq, hentry]
      exact ⟨congrArg TreeEntry.file, TreeEntry.file.inj⟩
    · rw [hres]
      refine iff_of_false (by simp) fun hlookup => ?_
      obtain ⟨rest, htree, hlookup⟩ := Option.bind_eq_some_iff.mp hlookup
      exact hno rest bytes htree hlookup

/-- The run follows the descriptors exactly where it keeps to the modes. -/
theorem FilesHold.follows_iff (ops : List FileOp) : ∀ {s : RamfsVfs × RamfsTable} {a : FileState}
    {kids : Nat → List Nat} {path : Nat → List (List UInt8)}, FilesHold ms s a kids path →
    (FollowsFiles ms ops s a ↔ AllModesOk ms ops a) := by
  induction ops with
  | nil => exact fun h => iff_of_true h.shows trivial
  | cons op ops ih =>
      intro s a kids path h
      rw [FollowsFiles, AllModesOk]
      by_cases hmode : ModeOk a op
      · obtain ⟨hret, kids', path', hnext⟩ := h.next op hmode
        rw [ih hnext]
        exact ⟨fun hrun => ⟨hmode, hrun.2.2⟩, fun hrun => ⟨h.shows, hret, hrun.2⟩⟩
      · exact iff_of_false (fun hrun => h.differs hmode hrun.2.1) fun hrun => hmode hrun.1

end Runs

/-- A call on one descriptor leaves the position and the flags of the others. -/
theorem usedFd_of_ne {σ Ctx Node : Type} (v : FsVfs σ Ctx Node) (t : σ) {fd fd' : Int}
    (hne : fd' ≠ fd) :
    (∀ n, usedFd (vfsRead v t fd n).2.2 fd' = usedFd v fd') ∧
    (∀ buf, usedFd (vfsWrite v t fd buf).2.1 fd' = usedFd v fd') ∧
    usedFd (vfsClose v fd).2 fd' = usedFd v fd' := by
  have hset : ∀ slot, usedFd v fd ≠ none →
      usedFd { v with fds := v.fds.set fd.toNat slot } fd' = usedFd v fd' := by
    intro slot hused
    unfold usedFd at hused ⊢
    by_cases hrange : fd < 0 ∨ fd ≥ vfsMaxFd
    · rw [if_pos hrange] at hused
      exact absurd rfl hused
    · by_cases hrange' : fd' < 0 ∨ fd' ≥ vfsMaxFd
      · rw [if_pos hrange', if_pos hrange']
      · rw [if_neg hrange', if_neg hrange', List.getElem?_set_ne (by omega)]
  have hadvance : ∀ f rc, usedFd v fd ≠ none → usedFd (advanceFd v fd f rc) fd' = usedFd v fd' := by
    intro f rc hused
    unfold advanceFd
    by_cases hpos : rc > 0
    · rw [if_pos hpos]
      exact hset _ hused
    · rw [if_neg hpos]
  refine ⟨fun n => ?_, fun buf => ?_, ?_⟩
  · unfold vfsRead
    cases hused : usedFd v fd with
    | none => rfl
    | some f =>
        cases hread : f.ops.read with
        | none => simp only [hread]
        | some read =>
            simp only [hread]
            split
            · rfl
            · exact hadvance f _ (by rw [hused]; simp)
  · unfold vfsWrite
    cases hused : usedFd v fd with
    | none => rfl
    | some f =>
        cases hwrite : f.ops.write with
        | none => simp only [hwrite]
        | some write =>
            simp only [hwrite]
            split
            · rfl
            · exact hadvance f _ (by rw [hused]; simp)
  · unfold vfsClose
    cases hused : usedFd v fd with
    | none => rfl
    | some f => exact hset none (by rw [hused]; simp)

/-- With RAMFS as only mount, at a canonical path other than `/`, a sequence of
calls follows the abstract descriptors exactly where each `vfs_read` is on a
descriptor opened `VFS_O_RDONLY` or `VFS_O_WRONLY`, and a call on one
descriptor leaves the others. -/
theorem descriptor_semantics_iff {mp : CString} (hcanon : CanonicalPath mp.bytes)
    (hroot : mp.bytes ≠ [slash]) (ops : List FileOp) :
    let start : FileState :=
      { cwd := [slash], tree := emptyTree, fds := List.replicate vfsMaxFd none }
    (FollowsFiles (components mp.bytes) ops (ramfsMounted mp, ramfsInit) start ↔
      AllModesOk (components mp.bytes) ops start) ∧
    ∀ (v : RamfsVfs) (t : RamfsTable) (fd fd' : Int), fd' ≠ fd →
      (∀ n, usedFd (vfsRead v t fd n).2.2 fd' = usedFd v fd') ∧
      (∀ buf, usedFd (vfsWrite v t fd buf).2.1 fd' = usedFd v fd') ∧
      usedFd (vfsClose v fd).2 fd' = usedFd v fd' := by
  intro start
  obtain ⟨honly, hcwd, hfds⟩ := ramfsMounted_only hcanon hroot
  have hstart : FilesHold (components mp.bytes) (ramfsMounted mp, ramfsInit) start
      (fun _ => []) (fun _ => []) := by
    refine ⟨honly, hcwd, ramfsInit_holds, ?_, fun f hf => ?_⟩
    · rw [hfds, List.map_replicate]
      rfl
    · rw [hfds] at hf
      exact absurd (List.eq_of_mem_replicate hf) (by simp)
  exact ⟨hstart.follows_iff ops, fun v t fd fd' hne => usedFd_of_ne v t hne⟩

/-- The file `/r/f`. -/
def fileF : CString := ⟨ascii "/r/f", by decide⟩

theorem descriptor_semantics_writer :
    let ops : List FileOp := [.open fileF (vfsOCreate + vfsOWronly), .write 0 (ascii "hi"), .read 0 2]
    FollowsFiles (components mountR.bytes) ops (ramfsMounted mountR, ramfsInit)
      { cwd := [slash], tree := emptyTree, fds := List.replicate vfsMaxFd none } ↔
    AllModesOk (components mountR.bytes) ops
      { cwd := [slash], tree := emptyTree, fds := List.replicate vfsMaxFd none } :=
  (descriptor_semantics_iff mountR_canonical (by decide) _).1

/-- `vfs_read` refuses a descriptor opened `VFS_O_RDWR`, whose empty file has 0
bytes to read. -/
theorem vfsRead_refuses_rdwr :
    let start : FileState :=
      { cwd := [slash], tree := emptyTree, fds := List.replicate vfsMaxFd none }
    let ops : List FileOp := [.open fileF (vfsOCreate + vfsORdwr), .read 0 1]
    ¬ FollowsFiles (components mountR.bytes) ops (ramfsMounted mountR, ramfsInit) start := by
  intro start ops hrun
  have hread := congrArg Prod.fst hrun.2.2.2.1
  exact absurd hread (by decide +kernel)

end RoninOS.Fs
