/-
RoninOS.Fs.RamfsShared — both interfaces on one node table.

The VFS and the calls on names of the root directory work on the same nodes,
and a descriptor keeps the number of its node whatever happens to it.
`TableChange` says once what any call does to the table: it makes a node,
writes a text, unlinks a node of the root directory, or puts bytes through a
descriptor. `SharedOk` is what every call keeps.
-/
import RoninOS.Fs.VfsFiles
import RoninOS.Fs.RamfsMap
import RoninOS.Fs.RamfsRuns

namespace RoninOS.Fs

open RoninOS.Lib

/-! ## Calls -/

/-- A call of the VFS or on a name of the root directory. -/
inductive SharedOp
  | vfs (op : FileOp)
  | legacy (op : LegacyOp)

/-- The VFS and the nodes after a call; `none` where `ramfs_write` leaves them
undefined. -/
def sharedNext (s : RamfsVfs × RamfsTable) : SharedOp → Option (RamfsVfs × RamfsTable)
  | .vfs op => some (vfsFileNext s op).2
  | .legacy op => (legacyStep s.2 op).map fun r => (s.1, r.2)

/-- The names a call can give a node: the VFS splits its paths, the other
calls take any string. -/
def SharedOp.MayName : SharedOp → List UInt8 → Bool → Prop
  | .legacy (.touch name), made, isDir => made = name.bytes ∧ isDir = false
  | .legacy (.write name _ _), made, isDir => made = name.bytes ∧ isDir = false
  | .legacy (.remove _), _, _ => False
  | .vfs _, made, _ => ValidSegment made

/-! ## What a call does to the table -/

/-- What a call can do to a good table. -/
inductive TableChange (v : RamfsVfs) (t : RamfsTable) (kids : Nat → List Nat) :
    SharedOp → RamfsTable → (Nat → List Nat) → Prop
  | makes {op : SharedOp} {t' : RamfsTable} {kids' : Nat → List Nat} :
      MakesNode t kids op.MayName t' kids' → TableChange v t kids op t' kids'
  /-- `ramfs_write` puts a text into a node of the root directory, which may be new. -/
  | wrote {name : CString} {text : Option CString} {append : Bool} {t₁ : RamfsTable}
      {kids₁ : Nat → List Nat} {c : Nat} {node : RamfsNode} :
      MakesNode t kids (SharedOp.legacy (.write name text append)).MayName t₁ kids₁ →
      c ∈ kids₁ 0 → (t₁ c).nameStr = name.bytes →
      writeText (t₁ c) ((text.map (·.bytes)).getD []) (if append then (t₁ c).size else 0)
        = some node →
      TableChange v t kids (.legacy (.write name text append)) (Function.update t₁ c node) kids₁
  | removed {name : CString} {x : Nat} {t' : RamfsTable} : x ∈ kids 0 →
      (t x).nameStr = name.bytes → t' x = zeroNode →
      (∀ i, i ≠ x → t' i = { t i with
        firstChild := (t' i).firstChild
        nextSibling := (t' i).nextSibling }) →
      NodesOk t' (removeKids kids x) →
      TableChange v t kids (.legacy (.remove name)) t' (removeKids kids x)
  /-- `vfs_write` puts bytes into the node of a descriptor, whatever that node is now. -/
  | put {fd : Int} {buf bytes : List UInt8} {f : RamfsFd} {off : Nat} : usedFd v fd = some f →
      ¬ (f.flags &&& vfsOWronly = 0 ∧ f.flags &&& vfsORdwr ≠ vfsORdwr) →
      (t f.node).isDir = false → off = min f.pos (t f.node).size →
      bytes = buf.take (ramfsMaxContent - off) →
      TableChange v t kids (.vfs (.write fd buf))
        (Function.update t f.node (writeBytes (t f.node) off bytes)) kids

section Tables

variable {t t' : RamfsTable} {kids kids' : Nat → List Nat} {mayName : List UInt8 → Bool → Prop}

theorem TableChange.nodesOk {v : RamfsVfs} {op : SharedOp}
    (hchange : TableChange v t kids op t' kids') (h : NodesOk t kids) : NodesOk t' kids' := by
  cases hchange with
  | makes hmakes => exact hmakes.nodesOk h
  | wrote hmakes _ _ hwrite => exact (hmakes.nodesOk h).update (writeText_links hwrite)
  | removed _ _ _ _ hok => exact hok
  | put _ _ _ _ _ => exact h.update (writeBytes_links ..)

theorem used_update {i : Nat} {node : RamfsNode} (hlinks : SameLinks node (t i)) (j : Nat) :
    (Function.update t i node j).used = (t j).used := by
  by_cases hji : j = i
  · rw [hji, Function.update_self]
    exact hlinks.used
  · rw [Function.update_of_ne hji]

/-- Used nodes keep to the file limit. -/
theorem TableChange.size_le {v : RamfsVfs} {op : SharedOp}
    (hchange : TableChange v t kids op t' kids') (h : ∀ i, (t i).used = true → (t i).size ≤ ramfsMaxContent) :
    ∀ i, (t' i).used = true → (t' i).size ≤ ramfsMaxContent := by
  cases hchange with
  | makes hmakes => exact hmakes.size_le h
  | @wrote _ _ _ t₁ _ c node hmakes _ _ hwrite =>
      intro i hi
      by_cases hic : i = c
      · rw [hic, Function.update_self]
        exact Nat.le_of_lt (writeText_size_lt hwrite)
      · rw [Function.update_of_ne hic] at hi ⊢
        exact hmakes.size_le h i hi
  | @removed _ x _ _ _ hzero hkeep _ =>
      intro i hi
      by_cases hix : i = x
      · rw [hix, hzero]
        exact Nat.zero_le _
      · rw [hkeep i hix] at hi ⊢
        exact h i hi
  | @put _ _ bytes f off _ _ _ hoff hbytes =>
      intro i hi
      by_cases hif : i = f.node
      · have hi' := hi
        rw [used_update (writeBytes_links ..)] at hi'
        have hsize := h i hi'
        rw [hif] at hsize
        rw [hif, Function.update_self]
        refine size_writeBytes_le hsize ?_
        rw [hbytes, List.length_take, hoff]
        omega
      · rw [Function.update_of_ne hif] at hi ⊢
        exact h i hi

/-- Walking down components from a used node ends in a used node. -/
theorem NodesOk.descend_used (h : NodesOk t kids) : ∀ {comps : List (List UInt8)} {i j : Nat}
    {isDir : Bool}, (t i).used = true → (∀ c ∈ comps, 0 ∉ c) →
    descend (fsLookup t) comps i (t i).isDir = some (j, isDir) →
    (t j).used = true ∧ isDir = (t j).isDir
  | [], i, j, isDir, hi, _, hdesc => by
      obtain ⟨rfl, rfl⟩ := Prod.mk.inj (Option.some.inj hdesc)
      exact ⟨hi, rfl⟩
  | c :: comps, i, j, isDir, hi, hnul, hdesc => by
      rw [descend] at hdesc
      by_cases hdir : (t i).isDir = false
      · rw [if_pos hdir] at hdesc
        cases hdesc
      · rw [if_neg hdir] at hdesc
        have hi' : IsDir t i := ⟨hi, by simpa using hdir⟩
        rcases h.lookup_cases hi' (hnul c (List.mem_cons_self ..)) with
          ⟨hlookup, -⟩ | ⟨k, hk, -, hlookup⟩
        · rw [hlookup] at hdesc
          cases hdesc
        · rw [hlookup, Option.bind_some] at hdesc
          exact h.descend_used (h.child i k hk).1 (fun c hc => hnul c (List.mem_cons_of_mem _ hc))
            hdesc

end Tables

/-- What a call can do to the descriptors, with the table after it. -/
inductive FdsChange (v : RamfsVfs) (t' : RamfsTable) :
    SharedOp → Int → List (Option RamfsFd) → Prop
  | kept {op : SharedOp} {ret : Int} : (∀ p flags, op = .vfs (.open p flags) → ret < 0) →
      FdsChange v t' op ret v.fds
  | moved {op : SharedOp} {ret fd : Int} {f : RamfsFd} {pos : Nat} : usedFd v fd = some f →
      (∀ p flags, op ≠ .vfs (.open p flags)) →
      FdsChange v t' op ret (v.fds.set fd.toNat (some { f with pos }))
  | closed {fd ret : Int} :
      FdsChange v t' (.vfs (.close fd)) ret (v.fds.set fd.toNat none)
  | opened {p : CString} {flags i node : Nat} : (t' node).used = true → (t' node).isDir = false →
      FdsChange v t' (.vfs (.open p flags)) i
        (v.fds.set i (some { flags, ops := ramfsOps, ctx := (), node, pos := 0 }))

/-- The return value of a VFS call. -/
def sharedRet (s : RamfsVfs × RamfsTable) : SharedOp → Int
  | .vfs op => (vfsFileNext s op).1.1
  | .legacy _ => 0

/-! ## What every call keeps -/

/-- RAMFS is the only mount, its nodes are good and the descriptors are its. -/
structure SharedOk (ms : List (List UInt8)) (s : RamfsVfs × RamfsTable) (kids : Nat → List Nat) :
    Prop where
  only : OnlyRamfs s.1 ms
  nodes : NodesOk s.2 kids
  fds : ∀ f, some f ∈ s.1.fds → f.ops = ramfsOps

section Shared

variable {ms : List (List UInt8)} {v : RamfsVfs} {t : RamfsTable} {kids : Nat → List Nat}

/-- `resolve_path` gives used nodes. -/
theorem NodesOk.resolvePath_used (h : NodesOk t kids) (hv : OnlyRamfs v ms) {p : CString}
    {m : FsMount RamfsTable Unit Nat} {j : Nat} {isDir : Bool}
    (hres : resolvePath v t p.bytes = some (m, j, isDir)) :
    m = ramfsMount ms ∧ (t j).used = true ∧ isDir = (t j).isDir := by
  rw [hv.resolvePath_eq t p] at hres
  obtain ⟨rest, htree, hres⟩ := Option.bind_eq_some_iff.mp hres
  obtain ⟨⟨j', isDir'⟩, hdesc, heq⟩ := Option.map_eq_some_iff.mp hres
  simp only [Prod.mk.injEq] at heq
  obtain ⟨rfl, rfl, rfl⟩ := heq
  have hvalid := treePath_valid hv.cwd_no_nul htree
  rw [← h.root.2] at hdesc
  exact ⟨rfl, h.descend_used h.root.1 (fun c hc => (hvalid c hc).no_nul) hdesc⟩

/-- `vfs_create` and `vfs_mkdir` make a node with a valid name, or change nothing. -/
theorem NodesOk.vfsCreateNode_makes (h : NodesOk t kids) (hv : OnlyRamfs v ms) (p : CString)
    (isDir : Bool) : ∃ kids', MakesNode t kids (fun name _ => ValidSegment name)
      (vfsCreateNode v t p.bytes isDir).2 kids' := by
  unfold vfsCreateNode
  rw [hv.resolveParent_eq t p]
  cases htree : treePath v.cwd ms p.bytes with
  | none => exact ⟨kids, .unchanged (.refl t)⟩
  | some rest =>
      have hvalid := treePath_valid hv.cwd_no_nul htree
      rcases List.eq_nil_or_concat' rest with rfl | ⟨ps, leaf, rfl⟩
      · exact ⟨kids, .unchanged (.refl t)⟩
      · simp only [Option.bind_some, List.getLast?_concat, List.dropLast_concat]
        have hleaf := hvalid leaf (List.mem_append_right _ (List.mem_singleton_self leaf))
        cases hdesc : descend (fsLookup t) ps fsGetRoot true with
        | none => exact ⟨kids, .unchanged (.refl t)⟩
        | some found =>
            obtain ⟨j, d⟩ := found
            have hroot := h.root
            rw [← hroot.2] at hdesc
            obtain ⟨hj, -⟩ := h.descend_used hroot.1
              (fun c hc => (hvalid c (List.mem_append_left _ hc)).no_nul) hdesc
            exact h.fsCreate_makes hj hleaf.no_nul hleaf

/-- `vfs_chdir` keeps the mounts and the descriptors. -/
theorem OnlyRamfs.chdir (h : OnlyRamfs v ms) (t : RamfsTable) (p : CString) :
    OnlyRamfs (vfsChdir v t p.bytes).2 ms ∧ (vfsChdir v t p.bytes).2.fds = v.fds := by
  refine ⟨?_, vfsChdir_fds v t p.bytes⟩
  unfold vfsChdir
  cases hnorm : normalizePath v.cwd p.bytes with
  | none => exact h
  | some norm =>
      have hcanon := normalizePath_canonical h.cwd_no_nul p.noNul hnorm
      simp only [copyStr_canonicalPath hcanon, Option.getD_some]
      split
      · exact ⟨h.comps, h.mounts, hcanon.no_nul⟩
      · exact h

/-- `vfs_open` takes a descriptor for a used file, or none. -/
theorem OnlyRamfs.allocFd_change (node flags : Nat) (p : CString) {t' : RamfsTable}
    (hused : (t' node).used = true) (hfile : (t' node).isDir = false) :
    FdsChange v t' (.vfs (.open p flags)) (allocFd v (ramfsMount ms) node flags).1
      (allocFd v (ramfsMount ms) node flags).2.fds ∧
    (allocFd v (ramfsMount ms) node flags).2.mounts = v.mounts ∧
    (allocFd v (ramfsMount ms) node flags).2.cwd = v.cwd := by
  unfold allocFd
  cases v.fds.findIdx? Option.isNone with
  | none => exact ⟨.kept fun _ _ _ => by simp, rfl, rfl⟩
  | some i => exact ⟨.opened hused hfile, rfl, rfl⟩

/-- What `vfs_open` does. -/
theorem NodesOk.vfsOpen_change (h : NodesOk t kids) (hv : OnlyRamfs v ms) (p : CString)
    (flags : Nat) :
    (∃ kids', MakesNode t kids (fun name _ => ValidSegment name)
      (vfsOpen v t p.bytes flags).2.2 kids') ∧
    FdsChange v (vfsOpen v t p.bytes flags).2.2 (.vfs (.open p flags))
      (vfsOpen v t p.bytes flags).1 (vfsOpen v t p.bytes flags).2.1.fds ∧
    (vfsOpen v t p.bytes flags).2.1.mounts = v.mounts ∧
    (vfsOpen v t p.bytes flags).2.1.cwd = v.cwd := by
  have hfile : ∀ {t₁ : RamfsTable} {kids₁ : Nat → List Nat}, NodesOk t₁ kids₁ →
      resolveFile v t₁ p.bytes = none ∨ ∃ j, (t₁ j).used = true ∧ (t₁ j).isDir = false ∧
        resolveFile v t₁ p.bytes = some (ramfsMount ms, j) := by
    intro t₁ kids₁ h₁
    unfold resolveFile
    cases hres : resolvePath v t₁ p.bytes with
    | none => exact Or.inl rfl
    | some found =>
        obtain ⟨m, j, isDir⟩ := found
        obtain ⟨rfl, hj, rfl⟩ := h₁.resolvePath_used hv hres
        cases hdir : (t₁ j).isDir with
        | true => exact Or.inl rfl
        | false => exact Or.inr ⟨j, hj, hdir, rfl⟩
  unfold vfsOpen
  rcases hfile h with hres | ⟨j, hj, hdir, hres⟩
  · rw [hres]
    by_cases hcreate : flags &&& vfsOCreate = 0
    · rw [if_pos hcreate]
      exact ⟨⟨kids, .unchanged (.refl t)⟩, .kept fun _ _ _ => by simp, rfl, rfl⟩
    · obtain ⟨kids₁, hmakes⟩ : ∃ kids₁, MakesNode t kids (fun name _ => ValidSegment name)
        (vfsCreate v t p.bytes).2 kids₁ := h.vfsCreateNode_makes hv p false
      rw [if_neg hcreate]
      by_cases hfail : (vfsCreate v t p.bytes).1 < 0
      · simp only [if_pos hfail]
        exact ⟨⟨kids₁, hmakes⟩, .kept fun _ _ _ => by simp, trivial, trivial⟩
      · simp only [if_neg hfail]
        rcases hfile (hmakes.nodesOk h) with hres' | ⟨j, hj, hdir, hres'⟩
        · rw [hres']
          exact ⟨⟨kids₁, hmakes⟩, .kept fun _ _ _ => by simp, rfl, rfl⟩
        · rw [hres']
          exact ⟨⟨kids₁, hmakes⟩, OnlyRamfs.allocFd_change j flags p hj hdir⟩
  · rw [hres]
    exact ⟨⟨kids, .unchanged (.refl t)⟩, OnlyRamfs.allocFd_change j flags p hj hdir⟩

/-- `rc > 0` moves a used descriptor. -/
theorem advanceFd_change {op : SharedOp} {ret : Int} {fd : Int} {f : RamfsFd} {t' : RamfsTable}
    (hused : usedFd v fd = some f) (hopen : ∀ p flags, op ≠ .vfs (.open p flags)) (rc : Int) :
    FdsChange v t' op ret (advanceFd v fd f rc).fds ∧
    (advanceFd v fd f rc).mounts = v.mounts ∧ (advanceFd v fd f rc).cwd = v.cwd := by
  unfold advanceFd
  by_cases hpos : rc > 0
  · rw [if_pos hpos]
    exact ⟨.moved hused hopen, rfl, rfl⟩
  · rw [if_neg hpos]
    exact ⟨.kept fun p flags heq => absurd heq (hopen p flags), rfl, rfl⟩

theorem usedFd_mem {σ Ctx Node : Type} {v : FsVfs σ Ctx Node} {fd : Int}
    {f : VfsFd (VfsFsOps σ Ctx Node) Ctx Node} (hused : usedFd v fd = some f) : some f ∈ v.fds := by
  unfold usedFd at hused
  split at hused
  · cases hused
  · exact List.mem_of_getElem? (Option.join_eq_some_iff.mp hused)

/-- `vfs_read` moves a descriptor at most. -/
theorem vfsRead_change (fd : Int) (n : Nat) {ret : Int} :
    FdsChange v t (.vfs (.read fd n)) ret (vfsRead v t fd n).2.2.fds ∧
    (vfsRead v t fd n).2.2.mounts = v.mounts ∧ (vfsRead v t fd n).2.2.cwd = v.cwd := by
  have hkept : FdsChange v t (.vfs (.read fd n)) ret v.fds := .kept fun p flags heq => by cases heq
  unfold vfsRead
  cases hused : usedFd v fd with
  | none => exact ⟨hkept, rfl, rfl⟩
  | some f =>
      cases hread : f.ops.read with
      | none =>
          simp only [hread]
          exact ⟨hkept, trivial, trivial⟩
      | some read =>
          simp only [hread]
          split
          · exact ⟨hkept, rfl, rfl⟩
          · exact advanceFd_change hused (fun p flags heq => by cases heq) _

/-- The bytes `vfs_read` returns. -/
theorem vfsRead_bytes {fd : Int} {f : RamfsFd} (hused : usedFd v fd = some f)
    (hops : f.ops = ramfsOps) (hsize : (t f.node).size ≤ ramfsMaxContent) (n : Nat) :
    (vfsRead v t fd n).2.1 =
      if (t f.node).isDir = true ∨ f.flags &&& vfsOWronly = vfsOWronly then []
      else ((contents (t f.node)).drop f.pos).take n := by
  unfold vfsRead
  rw [hused]
  simp only [hops, ramfsOps]
  by_cases hwronly : f.flags &&& vfsOWronly = vfsOWronly
  · rw [if_pos hwronly, if_pos (Or.inr hwronly)]
  · rw [if_neg hwronly]
    by_cases hdir : (t f.node).isDir = true
    · rw [if_pos (Or.inl hdir), fsRead, if_pos hdir]
    · rw [if_neg (not_or.mpr ⟨hdir, hwronly⟩), fsRead_eq (by simpa using hdir) hsize]

/-- The table `vfs_write` leaves. -/
theorem vfsWrite_table {fd : Int} {f : RamfsFd} (hused : usedFd v fd = some f)
    (hops : f.ops = ramfsOps) (buf : List UInt8) :
    let off := min f.pos (t f.node).size
    (vfsWrite v t fd buf).2.2 =
      if (t f.node).isDir = true ∨
        (f.flags &&& vfsOWronly = 0 ∧ f.flags &&& vfsORdwr ≠ vfsORdwr) then t
      else Function.update t f.node
        (writeBytes (t f.node) off (buf.take (ramfsMaxContent - off))) := by
  unfold vfsWrite
  rw [hused]
  simp only [hops, ramfsOps]
  by_cases hrefuse : f.flags &&& vfsOWronly = 0 ∧ f.flags &&& vfsORdwr ≠ vfsORdwr
  · rw [if_pos hrefuse, if_pos (Or.inr hrefuse)]
  · rw [if_neg hrefuse]
    by_cases hdir : (t f.node).isDir = true
    · rw [if_pos (Or.inl hdir), fsWrite, if_pos hdir]
    · rw [if_neg (not_or.mpr ⟨hdir, hrefuse⟩), fsWrite_eq_update (by simpa using hdir)]

/-- `vfs_write` puts bytes through a descriptor, or changes nothing. -/
theorem SharedOk.vfsWrite_change (h : SharedOk ms (v, t) kids) (fd : Int) (buf : List UInt8)
    {ret : Int} :
    TableChange v t kids (.vfs (.write fd buf)) (vfsWrite v t fd buf).2.2 kids ∧
    FdsChange v (vfsWrite v t fd buf).2.2 (.vfs (.write fd buf)) ret
      (vfsWrite v t fd buf).2.1.fds ∧
    (vfsWrite v t fd buf).2.1.mounts = v.mounts ∧ (vfsWrite v t fd buf).2.1.cwd = v.cwd := by
  have hkept : ∀ t', FdsChange v t' (.vfs (.write fd buf)) ret v.fds :=
    fun t' => .kept fun p flags heq => by cases heq
  have hsame : TableChange v t kids (.vfs (.write fd buf)) t kids := .makes (.unchanged (.refl t))
  cases hused : usedFd v fd with
  | none =>
      unfold vfsWrite
      rw [hused]
      exact ⟨hsame, hkept t, rfl, rfl⟩
  | some f =>
      have hops := h.fds f (usedFd_mem hused)
      refine ⟨?_, ?_⟩
      · rw [vfsWrite_table hused hops]
        by_cases hno : (t f.node).isDir = true ∨
            (f.flags &&& vfsOWronly = 0 ∧ f.flags &&& vfsORdwr ≠ vfsORdwr)
        · rw [if_pos hno]
          exact hsame
        · rw [if_neg hno]
          rw [not_or] at hno
          exact .put hused hno.2 (by simpa using hno.1) rfl rfl
      · unfold vfsWrite
        rw [hused]
        simp only [hops, ramfsOps]
        split
        · exact ⟨hkept t, rfl, rfl⟩
        · exact advanceFd_change hused (fun p flags heq => by cases heq) _

/-- What a call on a name of the root directory does. -/
theorem NodesOk.legacy_change (h : NodesOk t kids) {op : LegacyOp} {done : Bool}
    (hstep : legacyStep t op = some (done, t')) :
    ∃ kids', TableChange v t kids (.legacy op) t' kids' := by
  cases op with
  | touch name =>
      obtain ⟨-, rfl⟩ := Prod.mk.inj (Option.some.inj hstep)
      obtain ⟨kids', hmakes, -⟩ := @NodesOk.touch_makes _ _
        (SharedOp.legacy (.touch name)).MayName h _ name.noNul ⟨rfl, rfl⟩
      exact ⟨kids', .makes hmakes⟩
  | write name text append =>
      obtain ⟨⟨ret, t₂⟩, hwrite, heq⟩ := Option.map_eq_some_iff.mp hstep
      obtain ⟨-, rfl⟩ := Prod.mk.inj heq
      obtain ⟨kids', hmakes | ⟨t₁, c, node, hmakes, hc, hname, hnode, rfl⟩⟩ :=
        @NodesOk.write_makes _ _ _ (SharedOp.legacy (.write name text append)).MayName h _
          name.noNul ⟨rfl, rfl⟩ _ _ _ hwrite
      · exact ⟨kids', .makes hmakes⟩
      · exact ⟨kids', .wrote hmakes hc hname hnode⟩
  | remove name =>
      have houtcome := h.remove_outcome name.noNul
      simp only [legacyStep, Option.some.injEq, Prod.mk.injEq] at hstep
      obtain ⟨-, rfl⟩ := hstep
      generalize ramfsRemove t name.bytes = r at houtcome
      cases houtcome with
      | absent _ => exact ⟨kids, .makes (.unchanged (.refl t))⟩
      | removed hx hname hzero hkeep hok => exact ⟨_, .removed hx hname hzero hkeep hok⟩

/-- What a call does, to the table and to the descriptors. -/
theorem SharedOk.change (h : SharedOk ms (v, t) kids) {op : SharedOp} {v' : RamfsVfs}
    {t' : RamfsTable} (hnext : sharedNext (v, t) op = some (v', t')) :
    (∃ kids', TableChange v t kids op t' kids') ∧
    FdsChange v t' op (sharedRet (v, t) op) v'.fds ∧ OnlyRamfs v' ms := by
  have honly : ∀ {w : RamfsVfs}, w.mounts = v.mounts → w.cwd = v.cwd → OnlyRamfs w ms :=
    fun hm hc => ⟨h.only.comps, hm.trans h.only.mounts, by rw [hc]; exact h.only.cwd_no_nul⟩
  cases op with
  | vfs op =>
      obtain ⟨rfl, rfl⟩ := Prod.mk.inj (Option.some.inj hnext)
      cases op with
      | tree op =>
          have hkept : FdsChange v t (.vfs (.tree op)) 0 v.fds := .kept fun p flags heq => by cases heq
          have hsame : ∃ kids', TableChange v t kids (.vfs (.tree op)) t kids' :=
            ⟨kids, .makes (.unchanged (.refl t))⟩
          cases op with
          | create p =>
              obtain ⟨kids', hmakes⟩ := h.nodes.vfsCreateNode_makes h.only p false
              exact ⟨⟨kids', .makes hmakes⟩, .kept (fun p flags heq => by cases heq), h.only⟩
          | mkdir p =>
              obtain ⟨kids', hmakes⟩ := h.nodes.vfsCreateNode_makes h.only p true
              exact ⟨⟨kids', .makes hmakes⟩, .kept (fun p flags heq => by cases heq), h.only⟩
          | stat p => exact ⟨hsame, hkept, h.only⟩
          | listdir p => exact ⟨hsame, hkept, h.only⟩
          | chdir p =>
              obtain ⟨honly', hfds⟩ := h.only.chdir t p
              refine ⟨hsame, ?_, honly'⟩
              have hkept' := hkept
              rw [← hfds] at hkept'
              exact hkept'
      | «open» p flags =>
          obtain ⟨⟨kids', hmakes⟩, hfds, hm, hc⟩ := h.nodes.vfsOpen_change h.only p flags
          exact ⟨⟨kids', .makes hmakes⟩, hfds, honly hm hc⟩
      | read fd n =>
          obtain ⟨hfds, hm, hc⟩ := vfsRead_change (v := v) (t := t) fd n
          exact ⟨⟨kids, .makes (.unchanged (.refl t))⟩, hfds, honly hm hc⟩
      | write fd buf =>
          obtain ⟨htable, hfds, hm, hc⟩ := h.vfsWrite_change fd buf
          exact ⟨⟨kids, htable⟩, hfds, honly hm hc⟩
      | close fd =>
          refine ⟨⟨kids, .makes (.unchanged (.refl t))⟩, ?_, ?_⟩
          · simp only [vfsFileNext, vfsClose]
            cases usedFd v fd with
            | none => exact .kept fun p flags heq => by cases heq
            | some f => exact .closed
          · simp only [vfsFileNext, vfsClose]
            cases usedFd v fd with
            | none => exact h.only
            | some f => exact honly rfl rfl
  | legacy op =>
      obtain ⟨⟨done, t₁⟩, hstep, heq⟩ := Option.map_eq_some_iff.mp hnext
      obtain ⟨rfl, rfl⟩ := Prod.mk.inj heq
      exact ⟨h.nodes.legacy_change hstep, .kept (fun p flags heq => by cases heq), h.only⟩

/-- A call keeps RAMFS the only mount with good nodes. -/
theorem SharedOk.next (h : SharedOk ms (v, t) kids) {op : SharedOp} {v' : RamfsVfs}
    {t' : RamfsTable} {kids' : Nat → List Nat} (hnext : sharedNext (v, t) op = some (v', t'))
    (htable : TableChange v t kids op t' kids') : SharedOk ms (v', t') kids' := by
  obtain ⟨-, hfds, honly⟩ := h.change hnext
  refine ⟨honly, htable.nodesOk h.nodes, fun f hf => ?_⟩
  simp only at hf
  generalize v'.fds = fds at hfds hf
  generalize sharedRet (v, t) op = ret at hfds
  cases hfds with
  | kept _ => exact h.fds f hf
  | @moved _ _ _ g _ hused _ =>
      rcases List.mem_or_eq_of_mem_set hf with hf | hf
      · exact h.fds f hf
      · rw [Option.some.inj hf]
        exact h.fds g (usedFd_mem hused)
  | closed =>
      rcases List.mem_or_eq_of_mem_set hf with hf | hf
      · exact h.fds f hf
      · cases hf
  | opened _ _ =>
      rcases List.mem_or_eq_of_mem_set hf with hf | hf
      · exact h.fds f hf
      · rw [Option.some.inj hf]

theorem ramfsMounted_sharedOk {mp : CString} (hcanon : CanonicalPath mp.bytes)
    (hroot : mp.bytes ≠ [slash]) :
    SharedOk (components mp.bytes) (ramfsMounted mp, ramfsInit) fun _ => [] := by
  obtain ⟨honly, -, hfds⟩ := ramfsMounted_only hcanon hroot
  refine ⟨honly, ramfsInit_ok, fun f hf => ?_⟩
  simp only [hfds] at hf
  exact absurd (List.eq_of_mem_replicate hf) (by simp)

end Shared

/-- The name `f`, as the legacy calls take it. -/
def nameF : CString := ⟨ascii "f", by decide⟩

end RoninOS.Fs
