/-
RoninOS.Fs.VfsTree — the VFS calls on a mounted RAMFS against its tree.

Each call resolves its string to the components below the mountpoint and acts
on the tree there: `vfs_create` and `vfs_mkdir` insert an empty entry when its
parent is a directory, the path is free and a node is left, `vfs_stat` looks
the entry up, `vfs_listdir` lists the names one component below a directory
and `vfs_chdir` needs one. `vfs_refines_tree` has them all, after every
sequence of calls.
-/
import RoninOS.Fs.RamfsTree

namespace RoninOS.Fs

open RoninOS.Lib

/-! ## Loops over a directory -/

/-- `fs_readdir` finds the children of a list by their position. -/
theorem readdirLoop_chain {t : RamfsTable} : ∀ {l : List Nat} {rounds cur index : Nat}
    {start : Int}, Chain (fun i => (t i).nextSibling) start l → l.length < rounds → cur ≤ index →
    readdirLoop t index rounds cur start = some l[index - cur]?
  | _, 0, _, _, _, _, hlen, _ => absurd hlen (Nat.not_lt_zero _)
  | [], rounds + 1, cur, index, start, hchain, _, _ => by
      rw [hchain.start_nil, readdirLoop]
      rfl
  | i :: l, rounds + 1, cur, index, start, hchain, hlen, hle => by
      obtain ⟨rfl, htail⟩ := hchain.start_cons
      rw [readdirLoop, if_neg (by omega), Int.toNat_natCast]
      by_cases heq : cur = index
      · rw [if_pos heq, heq, Nat.sub_self]
        rfl
      · rw [if_neg heq, readdirLoop_chain htail (Nat.lt_of_succ_lt_succ hlen) (by omega),
          show index - cur = index - (cur + 1) + 1 by omega, List.getElem?_cons_succ]

section Calls

variable {v : RamfsVfs} {ms : List (List UInt8)} {t : RamfsTable} {kids : Nat → List Nat}
  {path : Nat → List (List UInt8)} {tree : Tree}

/-- `vfs_create` and `vfs_mkdir` create in the tree, and otherwise change no node. -/
theorem HoldsTree.vfsCreateNode (h : HoldsTree t kids path tree) (hv : OnlyRamfs v ms)
    (p : CString) (isDir : Bool) :
    ((vfsCreateNode v t p.bytes isDir).1 = 0 ∧
      (treeCreate tree (treePath v.cwd ms p.bytes) isDir).1 = true ∧
      ∃ kids' path', HoldsTree (vfsCreateNode v t p.bytes isDir).2 kids' path'
          (treeCreate tree (treePath v.cwd ms p.bytes) isDir).2 ∧
        ∀ j, (t j).used = true → path' j = path j ∧ (vfsCreateNode v t p.bytes isDir).2 j
          = { t j with firstChild := ((vfsCreateNode v t p.bytes isDir).2 j).firstChild }) ∨
    ((vfsCreateNode v t p.bytes isDir).1 < 0 ∧
      treeCreate tree (treePath v.cwd ms p.bytes) isDir = (false, tree) ∧
      Unchanged t (vfsCreateNode v t p.bytes isDir).2) := by
  unfold Fs.vfsCreateNode treeCreate
  rw [hv.resolveParent_eq t p]
  cases htree : treePath v.cwd ms p.bytes with
  | none => exact Or.inr ⟨by simp, rfl, .refl t⟩
  | some rest =>
      have hvalid := treePath_valid hv.cwd_no_nul htree
      rcases List.eq_nil_or_concat' rest with rfl | ⟨ps, leaf, rfl⟩
      · exact Or.inr ⟨by simp, if_neg fun hcan => hcan.1 rfl, .refl t⟩
      · simp only [Option.bind_some, List.getLast?_concat, List.dropLast_concat]
        rcases h.descend_root fun c hc => hvalid c (List.mem_append_left _ hc) with
          ⟨hdesc, hlookup⟩ | ⟨j, hj, hpath, -, hdesc⟩
        · rw [hdesc]
          refine Or.inr ⟨by simp, if_neg fun hcan => ?_, .refl t⟩
          have hparent := hcan.2.1
          rw [List.dropLast_concat, hlookup] at hparent
          cases hparent
        · rw [hdesc]
          have hcreate := h.fsCreate hj
            (hvalid leaf (List.mem_append_right _ (List.mem_singleton_self leaf))) isDir
          rw [hpath] at hcreate
          rcases hcreate with ⟨hret, hcan, hholds⟩ | ⟨hret, hcan, hsame⟩
          · rw [if_pos hcan]
            exact Or.inl ⟨hret, rfl, hholds⟩
          · rw [if_neg hcan]
            exact Or.inr ⟨hret, rfl, hsame⟩

/-- What `resolve_path` finds is what the tree holds. -/
theorem HoldsTree.resolvePath (h : HoldsTree t kids path tree) (hv : OnlyRamfs v ms)
    (p : CString) :
    (resolvePath v t p.bytes = none ∧ (treePath v.cwd ms p.bytes).bind tree.lookup = none) ∨
    ∃ rest j, treePath v.cwd ms p.bytes = some rest ∧ (t j).used = true ∧ path j = rest ∧
      tree.lookup rest = some (entryOf (t j)) ∧
      Fs.resolvePath v t p.bytes = some (ramfsMount ms, j, (t j).isDir) := by
  rw [hv.resolvePath_eq t p]
  cases htree : treePath v.cwd ms p.bytes with
  | none => exact Or.inl ⟨rfl, rfl⟩
  | some rest =>
      rw [Option.bind_some, Option.bind_some]
      rcases h.descend_root (treePath_valid hv.cwd_no_nul htree) with
        ⟨hdesc, hlookup⟩ | ⟨j, hj, hpath, hlookup, hdesc⟩
      · rw [hdesc]
        exact Or.inl ⟨rfl, hlookup⟩
      · rw [hdesc]
        exact Or.inr ⟨rest, j, rfl, hj, hpath, hlookup, rfl⟩

theorem HoldsTree.size_entryOf (h : HoldsTree t kids path tree) {j : Nat}
    (hj : (t j).used = true) : (entryOf (t j)).size = (t j).size := by
  unfold entryOf
  by_cases hdir : (t j).isDir = true
  · rw [if_pos hdir, h.dir_size j hj hdir]
    rfl
  · rw [if_neg hdir]
    exact length_contents (h.size_le j hj)

/-- `vfs_stat` reports the entry of the tree. -/
theorem HoldsTree.vfsStat_eq (h : HoldsTree t kids path tree) (hv : OnlyRamfs v ms)
    (p : CString) : vfsStat v t p.bytes = ((treePath v.cwd ms p.bytes).bind tree.lookup).map
      fun e => { isDir := e.isDir, size := e.size } := by
  unfold vfsStat
  rcases h.resolvePath hv p with ⟨hres, hlookup⟩ | ⟨rest, j, htree, hj, -, hlookup, hres⟩
  · rw [hres, hlookup]
    rfl
  · rw [hres, htree, Option.bind_some, hlookup, Option.map_some, isDir_entryOf, h.size_entryOf hj]
    simp only [ramfsMount, ramfsOps, fsSize]
    cases hdir : (t j).isDir with
    | true =>
        rw [h.dir_size j hj hdir]
        rfl
    | false => rfl

/-- The entries of a directory. -/
def direntsOf (t : RamfsTable) (l : List Nat) : List VfsDirent :=
  l.map fun c => { name := (t c).nameStr, isDir := (t c).isDir, size := (t c).size }

/-- `fs_readdir` of a directory. -/
theorem NodesOk.fsReaddir_eq (h : NodesOk t kids) {d : Nat} (hd : IsDir t d) (index : Nat) :
    fsReaddir t d index
      = (direntsOf t (kids d))[index]?.map fun ent => (ent.name, ent.isDir, ent.size) := by
  rw [fsReaddir, if_neg (h.notDir_iff hd), readdirLoop_chain (h.chain d hd) (h.length_lt d) (Nat.zero_le _),
    Nat.sub_zero, Option.getD_some, direntsOf, List.getElem?_map, Option.map_map]
  rfl

/-- `vfs_listdir` of a directory gives its children's entries, within as many
rounds as there are nodes. -/
theorem HoldsTree.vfsListdir_eq (h : HoldsTree t kids path tree) (hv : OnlyRamfs v ms)
    (p : CString) {rounds : Nat} (hrounds : ramfsRounds ≤ rounds) :
    (∃ rest j, treePath v.cwd ms p.bytes = some rest ∧ path j = rest ∧
      tree.lookup rest = some .dir ∧ IsDir t j ∧
      vfsListdir rounds v t p.bytes (fun _ => 0) = some (0, direntsOf t (kids j))) ∨
    ((treePath v.cwd ms p.bytes).bind tree.lookup ≠ some .dir ∧
      vfsListdir rounds v t p.bytes (fun _ => 0) = some (-1, [])) := by
  unfold vfsListdir
  rcases h.resolvePath hv p with ⟨hres, hlookup⟩ | ⟨rest, j, htree, hj, hpath, hlookup, hres⟩
  · rw [hres, hlookup]
    exact Or.inr ⟨by simp, rfl⟩
  · rw [hres]
    simp only [ramfsMount, ramfsOps]
    by_cases hdir : (t j).isDir = true
    · refine Or.inl ⟨rest, j, htree, hpath, ?_, ⟨hj, hdir⟩, ?_⟩
      · rw [hlookup, entryOf, if_pos hdir]
      · have hlen := h.nodes.length_lt j
        simp only [hdir]
        rw [listdirLoop_all (h.nodes.fsReaddir_eq ⟨hj, hdir⟩) (Nat.zero_le _)]
        · rfl
        · rw [direntsOf, List.length_map]
          omega
    · have hfile : (t j).isDir = false := by simpa using hdir
      refine Or.inr ⟨?_, by rw [hfile]⟩
      rw [htree, Option.bind_some, hlookup, entryOf, if_neg hdir]
      simp

/-- The entries of a directory are the paths one component below it, each once. -/
theorem HoldsTree.dirents (h : HoldsTree t kids path tree) {j : Nat} (hj : IsDir t j) :
    ((direntsOf t (kids j)).map (·.name)).Nodup ∧
    ∀ ent, ent ∈ direntsOf t (kids j) ↔ ∃ e, tree.lookup (path j ++ [ent.name]) = some e ∧
      ent.isDir = e.isDir ∧ ent.size = e.size := by
  refine ⟨?_, fun ent => ⟨fun hent => ?_, fun ⟨e, hlookup, hdir, hsize⟩ => ?_⟩⟩
  · rw [direntsOf, List.map_map]
    exact List.Nodup.map_on (fun c hc c' hc' hname => h.nodes.names j c hc c' hc' hname)
      (h.nodes.nodup j)
  · obtain ⟨c, hc, rfl⟩ := List.mem_map.mp hent
    have hcused := (h.nodes.child j c hc).1
    refine ⟨entryOf (t c), ?_, (isDir_entryOf _).symm, (h.size_entryOf hcused).symm⟩
    rw [← h.path_kid j c hc]
    exact h.lookup_path hcused
  · obtain ⟨k, hk, hpath, rfl⟩ := (h.map.lookup_iff _ _).mp hlookup
    obtain ⟨d, c, hc, hd, hname⟩ := @HoldsTree.kid_of_path _ _ _ _ h _ [] _ _ (h.mem_used.mp hk) hpath
    obtain rfl := h.path_inj (h.nodes.isDir_of_mem hc).1 hj.1 hd
    have hck : c = k := by
      refine h.path_inj (h.nodes.child d c hc).1 (h.mem_used.mp hk) ?_
      rw [h.path_kid d c hc, hname, hpath]
    subst hck
    rw [isDir_entryOf] at hdir
    rw [h.size_entryOf (h.mem_used.mp hk)] at hsize
    refine List.mem_map.mpr ⟨c, hc, ?_⟩
    cases ent with
    | mk name isDir size =>
        simp only at hname hdir hsize
        rw [hname, hdir, hsize]

/-- `vfs_chdir` moves to the directories of the tree. -/
theorem HoldsTree.vfsChdir_eq (h : HoldsTree t kids path tree) (hv : OnlyRamfs v ms)
    (p : CString) :
    vfsChdir v t p.bytes = match treePath v.cwd ms p.bytes with
      | none => (-1, v)
      | some rest => if tree.lookup rest = some .dir then
          (0, { v with cwd := render (ms ++ rest) }) else (-1, v) := by
  unfold vfsChdir
  cases htree : treePath v.cwd ms p.bytes with
  | none =>
      rcases treePath_eq_none hv.cwd_no_nul htree with hnorm | ⟨comps, hnorm, hvalid, hpre, hfits, hsegs⟩
      · rw [hnorm]
      · simp only [hnorm]
        rw [hv.resolve_render t hvalid (normalizePath_render hv.cwd_no_nul hvalid hsegs hfits),
          if_neg hpre]
  | some rest =>
      obtain ⟨hnorm, hvalid, hsegs, hfits⟩ := treePath_eq_some hv.cwd_no_nul htree
      simp only [hnorm]
      rw [hv.resolve_render t hvalid (normalizePath_render hv.cwd_no_nul hvalid hsegs hfits),
        if_pos (List.prefix_append ..), List.drop_left]
      have hcopy := copyStr_canonicalPath ⟨ms ++ rest, hvalid, hsegs, rfl, hfits⟩
      rcases h.descend_root fun c hc => hvalid c (List.mem_append_right _ hc) with
        ⟨hdesc, hlookup⟩ | ⟨j, hj, -, hlookup, hdesc⟩
      · rw [hdesc, hlookup]
        rfl
      · rw [hdesc, hlookup, Option.map_some]
        unfold entryOf
        cases (t j).isDir with
        | true => simp only [hcopy, Option.getD_some, if_true]
        | false => simp

end Calls

/-! ## Runs -/

/-- A call on a path. -/
inductive TreeOp
  | create (path : CString)
  | mkdir (path : CString)
  | stat (path : CString)
  | listdir (path : CString)
  | chdir (path : CString)

/-- The VFS and the nodes after a call; `vfs_stat` and `vfs_listdir` only read. -/
def vfsNext (s : RamfsVfs × RamfsTable) : TreeOp → RamfsVfs × RamfsTable
  | .create path => (s.1, (vfsCreate s.1 s.2 path.bytes).2)
  | .mkdir path => (s.1, (vfsMkdir s.1 s.2 path.bytes).2)
  | .stat _ => s
  | .listdir _ => s
  | .chdir path => ((vfsChdir s.1 s.2 path.bytes).2, s.2)

/-- A tree and the working directory. -/
structure TreeState where
  cwd : List UInt8
  tree : Tree

/-- What a call means for the tree at the mountpoint `ms`. -/
def treeNext (ms : List (List UInt8)) (a : TreeState) : TreeOp → TreeState
  | .create path => { a with tree := (treeCreate a.tree (treePath a.cwd ms path.bytes) false).2 }
  | .mkdir path => { a with tree := (treeCreate a.tree (treePath a.cwd ms path.bytes) true).2 }
  | .stat _ => a
  | .listdir _ => a
  | .chdir path =>
      match treePath a.cwd ms path.bytes with
      | none => a
      | some rest => if a.tree.lookup rest = some .dir then { a with cwd := render (ms ++ rest) }
        else a

/-- Every call returns what the tree says, for every path. -/
structure ShowsTree (ms : List (List UInt8)) (v : RamfsVfs) (t : RamfsTable) (a : TreeState) :
    Prop where
  cwd : v.cwd = a.cwd
  create : ∀ p : CString, (vfsCreate v t p.bytes).1 = 0 ↔
    (treeCreate a.tree (treePath a.cwd ms p.bytes) false).1 = true
  mkdir : ∀ p : CString, (vfsMkdir v t p.bytes).1 = 0 ↔
    (treeCreate a.tree (treePath a.cwd ms p.bytes) true).1 = true
  stat : ∀ p : CString, vfsStat v t p.bytes = ((treePath a.cwd ms p.bytes).bind a.tree.lookup).map
    fun e => { isDir := e.isDir, size := e.size }
  /-- A directory lists the names one component below it, each once. -/
  listdir : ∀ (p : CString) (rounds : Nat), ramfsRounds ≤ rounds →
    (∃ rest ents, treePath a.cwd ms p.bytes = some rest ∧ a.tree.lookup rest = some .dir ∧
      vfsListdir rounds v t p.bytes (fun _ => 0) = some (0, ents) ∧ (ents.map (·.name)).Nodup ∧
      ∀ ent, ent ∈ ents ↔ ∃ e, a.tree.lookup (rest ++ [ent.name]) = some e ∧
        ent.isDir = e.isDir ∧ ent.size = e.size) ∨
    ((treePath a.cwd ms p.bytes).bind a.tree.lookup ≠ some .dir ∧
      vfsListdir rounds v t p.bytes (fun _ => 0) = some (-1, []))
  chdir : ∀ p : CString, (vfsChdir v t p.bytes).1 = 0 ↔
    (treePath a.cwd ms p.bytes).bind a.tree.lookup = some .dir

/-- A VFS and nodes that hold a tree. -/
structure VfsHolds (ms : List (List UInt8)) (s : RamfsVfs × RamfsTable) (a : TreeState) : Prop where
  only : OnlyRamfs s.1 ms
  cwd : s.1.cwd = a.cwd
  holds : ∃ kids path, HoldsTree s.2 kids path a.tree

section Runs

variable {ms : List (List UInt8)} {s : RamfsVfs × RamfsTable} {a : TreeState}

/-- Creating keeps the tree held. -/
theorem VfsHolds.create (h : VfsHolds ms s a) (p : CString) (isDir : Bool) :
    ((vfsCreateNode s.1 s.2 p.bytes isDir).1 = 0 ↔
      (treeCreate a.tree (treePath a.cwd ms p.bytes) isDir).1 = true) ∧
    VfsHolds ms (s.1, (vfsCreateNode s.1 s.2 p.bytes isDir).2)
      { a with tree := (treeCreate a.tree (treePath a.cwd ms p.bytes) isDir).2 } := by
  obtain ⟨kids, path, hholds⟩ := h.holds
  obtain ⟨cwd, tree⟩ := a
  obtain rfl : s.1.cwd = cwd := h.cwd
  rcases hholds.vfsCreateNode h.only p isDir with
    ⟨hret, hok, kids', path', hholds', -⟩ | ⟨hret, hfail, hsame⟩
  · exact ⟨iff_of_true hret hok, h.only, rfl, kids', path', hholds'⟩
  · simp only [hfail]
    exact ⟨iff_of_false (by omega) (by simp), h.only, rfl, kids, path, hholds.unchanged hsame⟩

theorem VfsHolds.chdir (h : VfsHolds ms s a) (p : CString) :
    ((vfsChdir s.1 s.2 p.bytes).1 = 0 ↔
      (treePath a.cwd ms p.bytes).bind a.tree.lookup = some .dir) ∧
    VfsHolds ms ((vfsChdir s.1 s.2 p.bytes).2, s.2) (treeNext ms a (.chdir p)) := by
  obtain ⟨kids, path, hholds⟩ := h.holds
  rw [hholds.vfsChdir_eq h.only p, treeNext, ← h.cwd]
  cases htree : treePath s.1.cwd ms p.bytes with
  | none => exact ⟨iff_of_false (by simp) (by simp), h⟩
  | some rest =>
      simp only [Option.bind_some]
      by_cases hdir : a.tree.lookup rest = some .dir
      · rw [if_pos hdir, if_pos hdir]
        obtain ⟨-, hvalid, -, -⟩ := treePath_eq_some h.only.cwd_no_nul htree
        exact ⟨iff_of_true rfl hdir,
          ⟨h.only.comps, h.only.mounts, no_nul_render hvalid⟩, rfl, kids, path, hholds⟩
      · rw [if_neg hdir, if_neg hdir]
        exact ⟨iff_of_false (by simp) hdir, h⟩

/-- A call keeps the tree held. -/
theorem VfsHolds.next (h : VfsHolds ms s a) (op : TreeOp) :
    VfsHolds ms (vfsNext s op) (treeNext ms a op) := by
  cases op with
  | create p => exact (h.create p false).2
  | mkdir p => exact (h.create p true).2
  | stat p => exact h
  | listdir p => exact h
  | chdir p => exact (h.chdir p).2

theorem VfsHolds.run (ops : List TreeOp) : ∀ {s : RamfsVfs × RamfsTable} {a : TreeState},
    VfsHolds ms s a → VfsHolds ms (ops.foldl vfsNext s) (ops.foldl (treeNext ms) a) := by
  induction ops with
  | nil => exact fun h => h
  | cons op ops ih => exact fun h => ih (h.next op)

/-- A VFS and nodes that hold a tree show it. -/
theorem VfsHolds.shows (h : VfsHolds ms s a) : ShowsTree ms s.1 s.2 a where
  cwd := h.cwd
  create p := (h.create p false).1
  mkdir p := (h.create p true).1
  stat p := by
    obtain ⟨kids, path, hholds⟩ := h.holds
    rw [← h.cwd]
    exact hholds.vfsStat_eq h.only p
  listdir p rounds hrounds := by
    obtain ⟨kids, path, hholds⟩ := h.holds
    rw [← h.cwd]
    rcases hholds.vfsListdir_eq h.only p hrounds with
      ⟨rest, j, htree, hpath, hlookup, hj, hlist⟩ | ⟨hno, hlist⟩
    · obtain ⟨hnodup, hents⟩ := hholds.dirents hj
      rw [hpath] at hents
      exact Or.inl ⟨rest, _, htree, hlookup, hlist, hnodup, hents⟩
    · exact Or.inr ⟨hno, hlist⟩
  chdir p := (h.chdir p).1

end Runs

/-- Creating at a path leaves the tree at every other path. -/
theorem treeCreate_lookup_of_ne (tree : Tree) {p q : List (List UInt8)} (isDir : Bool)
    (hne : q ≠ p) : (treeCreate tree (some p) isDir).2.lookup q = tree.lookup q := by
  simp only [treeCreate]
  by_cases hcan : CanCreate tree p
  · rw [if_pos hcan]
    exact Finmap.lookup_insert_of_ne _ hne
  · rw [if_neg hcan]

/-- With RAMFS as only mount, at a canonical path other than `/`, the calls of
every sequence return what the tree that the sequence builds says, and a
created entry is the only change of the tree. -/
theorem vfs_refines_tree {mp : CString} (hcanon : CanonicalPath mp.bytes)
    (hroot : mp.bytes ≠ [slash]) (ops : List TreeOp) :
    let s := ops.foldl vfsNext (ramfsMounted mp, ramfsInit)
    let a := ops.foldl (treeNext (components mp.bytes)) { cwd := [slash], tree := emptyTree }
    ShowsTree (components mp.bytes) s.1 s.2 a ∧
    ∀ (p q : List (List UInt8)) (isDir : Bool), q ≠ p →
      (treeCreate a.tree (some p) isDir).2.lookup q = a.tree.lookup q := by
  intro s a
  obtain ⟨honly, hcwd, -⟩ := ramfsMounted_only hcanon hroot
  have hstart : VfsHolds (components mp.bytes) (ramfsMounted mp, ramfsInit)
      { cwd := [slash], tree := emptyTree } := ⟨honly, hcwd, _, _, ramfsInit_holds⟩
  exact ⟨(hstart.run ops).shows, fun p q isDir hne => treeCreate_lookup_of_ne a.tree isDir hne⟩

/-- The mountpoint `/r`. -/
def mountR : CString := ⟨ascii "/r", by decide⟩

theorem mountR_canonical : CanonicalPath mountR.bytes := by
  refine ⟨[ascii "r"], fun c hc => ?_, by decide, by decide, by decide⟩
  rw [List.mem_singleton.mp hc]
  exact ⟨by decide, by decide, by decide, by decide, by decide, by decide⟩

/-- A directory, a change to the mountpoint, and a file in the directory. -/
def exampleTreeOps : List TreeOp := [.mkdir ⟨ascii "/r/docs", by decide⟩,
  .chdir ⟨ascii "/r", by decide⟩, .create ⟨ascii "docs/f", by decide⟩]

/-- The tree that they build. -/
def exampleTree : TreeState where
  cwd := ascii "/r"
  tree := (emptyTree.insert [ascii "docs"] .dir).insert [ascii "docs", ascii "f"] (.file [])

/-- The calls return what this tree says: the file is there and empty, and `docs` is taken. -/
theorem vfs_refines_tree_r :
    let s := exampleTreeOps.foldl vfsNext (ramfsMounted mountR, ramfsInit)
    ShowsTree (components mountR.bytes) s.1 s.2 exampleTree ∧
      vfsStat s.1 s.2 (ascii "/r/docs/f") = some { isDir := false, size := 0 } ∧
      (vfsMkdir s.1 s.2 (ascii "docs")).1 ≠ 0 := by
  intro s
  have hshows : ShowsTree (components mountR.bytes) s.1 s.2 exampleTree :=
    (vfs_refines_tree mountR_canonical (by decide) exampleTreeOps).1
  refine ⟨hshows, (hshows.stat ⟨ascii "/r/docs/f", by decide⟩).trans (by decide), ?_⟩
  rw [ne_eq, show vfsMkdir s.1 s.2 (ascii "docs") = vfsMkdir s.1 s.2
    (⟨ascii "docs", by decide⟩ : CString).bytes from rfl, hshows.mkdir]
  decide

end RoninOS.Fs
