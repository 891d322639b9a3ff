/-
RoninOS.Fs.VfsOpen — what a failed `vfs_open` leaves behind.

With `VFS_O_CREATE` the call creates the file first and only then looks for it
and for a free descriptor, and nothing takes the file back when one of the two
fails. The file is looked for along the whole path, the directory it goes to
along the parent; where the two get different mounts the new file is not found
(`resolveFile_hidden`). So a failed call keeps everything exactly where it
does not create first (`vfsOpen_keeps_iff`), in every state of every run.
-/
import RoninOS.Fs.InitrdFiles
import RoninOS.Fs.RamfsShared
import RoninOS.Fs.VfsMounts

namespace RoninOS.Fs

open RoninOS.Lib RoninOS.Mem

/-! ## Runs -/

/-- The file systems of the kernel. -/
abbrev BootFsOps := VfsFsOps (BootState RamfsTable) Unit (BootNode Nat)

/-- The VFS over them. -/
abbrev BootVfs := FsVfs (BootState RamfsTable) Unit (BootNode Nat)

/-- `g_initrd_ops` and `g_ops`. -/
def IsBootFs (ops : BootFsOps) : Prop := ops = initrdOps ∨ ops = bootOps ramfsOps

/-- The states of the runs from `vfs_init` and `ramfs_init`, with any calls of
the VFS, the initrd and RAMFS in any order; calls that only read change no state. -/
inductive BootReach : BootVfs → BootState RamfsTable → Prop
  | init (mem : Mem) : BootReach vfsInit { mem, initrd := zeroCtx, other := ramfsInit }
  | mount {v : BootVfs} {s : BootState RamfsTable} (mountpoint : CString) {ops : Option BootFsOps} :
      BootReach v s → (∀ fs, ops = some fs → IsBootFs fs) →
      BootReach (vfsMount v mountpoint ops ()).2 s
  | initrd {v v' : BootVfs} {s s' : BootState RamfsTable} {fuel magic addr : Nat} :
      BootReach v s → initrdMountFromMultiboot fuel v s magic addr = some (v', s') →
      BootReach v' s'
  | create {v : BootVfs} {s : BootState RamfsTable} (path : CString) (isDir : Bool) :
      BootReach v s → BootReach v (vfsCreateNode v s path.bytes isDir).2
  | open {v : BootVfs} {s : BootState RamfsTable} (path : CString) (flags : Nat) :
      BootReach v s →
      BootReach (vfsOpen v s path.bytes flags).2.1 (vfsOpen v s path.bytes flags).2.2
  | read {v : BootVfs} {s : BootState RamfsTable} (fd : Int) (n : Nat) :
      BootReach v s → BootReach (vfsRead v s fd n).2.2 s
  | write {v : BootVfs} {s : BootState RamfsTable} (fd : Int) (buf : List UInt8) :
      BootReach v s → BootReach (vfsWrite v s fd buf).2.1 (vfsWrite v s fd buf).2.2
  | close {v : BootVfs} {s : BootState RamfsTable} (fd : Int) :
      BootReach v s → BootReach (vfsClose v fd).2 s
  | chdir {v : BootVfs} {s : BootState RamfsTable} (path : CString) :
      BootReach v s → BootReach (vfsChdir v s path.bytes).2 s
  | legacy {v : BootVfs} {s : BootState RamfsTable} {op : LegacyOp} {done : Bool}
      {t : RamfsTable} : BootReach v s → legacyStep s.other op = some (done, t) →
      BootReach v { s with other := t }

/-- What every call keeps of the VFS. -/
structure VfsOk (v : BootVfs) : Prop where
  table : TableOk v.mounts
  mounts : ∀ m, some m ∈ v.mounts → IsBootFs m.ops
  fds : ∀ f, some f ∈ v.fds → IsBootFs f.ops
  cwd_no_nul : 0 ∉ v.cwd

/-! ## What a file system finds -/

section Walks

variable {Node : Type} {lookup : Node → List UInt8 → Option (Node × Bool)}

theorem descend_append {cs ds : List (List UInt8)} : ∀ {cur : Node} {isDir : Bool},
    descend lookup (cs ++ ds) cur isDir = (descend lookup cs cur isDir).bind fun (next, isDir) =>
      descend lookup ds next isDir := by
  induction cs with
  | nil =>
      intro cur isDir
      rfl
  | cons c cs ih =>
      intro cur isDir
      rw [List.cons_append, descend, descend]
      cases isDir with
      | false => rfl
      | true =>
          rw [if_neg (by decide), if_neg (by decide)]
          cases lookup cur c with
          | none => rfl
          | some r => exact ih

/-- The last step of a walk that comes to a directory. -/
theorem descend_concat {cs : List (List UInt8)} {c : List UInt8} {cur dir : Node} {isDir : Bool}
    (h : descend lookup cs cur isDir = some (dir, true)) :
    descend lookup (cs ++ [c]) cur isDir = lookup dir c := by
  rw [descend_append, h, Option.bind_some]
  simp only [descend, Bool.true_eq_false, if_false, Prod.mk.eta]
  exact Option.bind_fun_some _

/-- The nodes of another file system are walked as that file system walks them. -/
theorem descend_other {cs : List (List UInt8)} : ∀ {cur : Node} {isDir : Bool},
    descend (fun (dir : BootNode Node) name => dir.otherNode.bind fun dir =>
      (lookup dir name).map fun (node, isDir) => (BootNode.other node, isDir)) cs (.other cur) isDir
      = (descend lookup cs cur isDir).map fun (node, isDir) => (.other node, isDir) := by
  induction cs with
  | nil =>
      intro cur isDir
      rfl
  | cons c cs ih =>
      intro cur isDir
      rw [descend, descend]
      cases isDir with
      | false => rfl
      | true =>
          rw [if_neg (by decide), if_neg (by decide)]
          change ((lookup cur c).map _).bind _ = _
          cases lookup cur c with
          | none => rfl
          | some r => exact ih

end Walks

section Ramfs

variable {t t' : RamfsTable} {kids kids' : Nat → List Nat} {mayName : List UInt8 → Bool → Prop}

theorem NodesOk.lookup_eq (h : NodesOk t kids) {d c : Nat} (hc : c ∈ kids d) :
    fsLookup t d (t c).nameStr = some (c, (t c).isDir) := by
  unfold fsLookup
  rw [if_neg (h.notDir_iff (h.isDir_of_mem hc)), h.find_eq hc]
  exact if_neg (by omega)

/-- A used node keeps its name and its children when a node is made. -/
theorem MakesNode.keeps (hmakes : MakesNode t kids mayName t' kids') {i : Nat}
    (hi : (t i).used = true) :
    (t' i).isDir = (t i).isDir ∧ (t' i).nameStr = (t i).nameStr ∧ ∀ c ∈ kids i, c ∈ kids' i := by
  cases hmakes with
  | unchanged hsame => rw [hsame.eq_of_used hi]; exact ⟨rfl, rfl, fun c hc => hc⟩
  | @created dir idx copied isDir _ _ _ _ hfree _ _ =>
      have hne : i ≠ idx := ne_of_free hi hfree
      refine ⟨?_, ?_, fun c hc => mem_linkedKids.mpr (Or.inr hc)⟩
      · rcases @linkNew_keeps t _ dir copied isDir _ hne with heq | heq
        · rw [heq]
        · rw [heq]
      · rcases @linkNew_keeps t _ dir copied isDir _ hne with heq | heq
        · rw [heq]
        · rw [heq]
          rfl

/-- What a walk found it finds again after a node was made. -/
theorem MakesNode.descend_keeps (hmakes : MakesNode t kids mayName t' kids') (h : NodesOk t kids)
    {comps : List (List UInt8)} {i j : Nat} {isDir : Bool} (hi : (t i).used = true)
    (hnul : ∀ c ∈ comps, 0 ∉ c) (hdesc : descend (fsLookup t) comps i (t i).isDir = some (j, isDir)) :
    descend (fsLookup t') comps i (t' i).isDir = some (j, isDir) := by
  induction comps generalizing i with
  | nil =>
      rw [descend, (hmakes.keeps hi).1]
      exact hdesc
  | cons c comps ih =>
      rw [descend] at hdesc ⊢
      rw [(hmakes.keeps hi).1]
      by_cases hdir : (t i).isDir = false
      · rw [if_pos hdir] at hdesc
        cases hdesc
      · rw [if_neg hdir] at hdesc ⊢
        rcases h.lookup_cases ⟨hi, by simpa using hdir⟩ (hnul c (List.mem_cons_self ..)) with
          ⟨hlookup, -⟩ | ⟨k, hk, hname, hlookup⟩
        · rw [hlookup] at hdesc
          cases hdesc
        · obtain ⟨-, hname', -⟩ := hmakes.keeps (h.child i k hk).1
          have hlookup' := (hmakes.nodesOk h).lookup_eq ((hmakes.keeps hi).2.2 k hk)
          rw [hname', hname] at hlookup'
          rw [hlookup, Option.bind_some] at hdesc
          rw [hlookup', Option.bind_some]
          exact ih (h.child i k hk).1 (fun c hc => hnul c (List.mem_cons_of_mem _ hc)) hdesc

end Ramfs

/-! ## `vfs_create` -/

/-- `vfs_create` and `vfs_mkdir` succeed on the path: its parent is a directory
of RAMFS without an entry of its last component, and a node is free. -/
structure MakesEntry (v : BootVfs) (s : BootState RamfsTable) (path : List UInt8) : Prop where
  parent : ∃ m dir leaf, resolveParent v s path = some (m, .other dir, leaf) ∧
    m.ops = bootOps ramfsOps ∧ (s.other dir).isDir = true ∧ nodeFindChild s.other dir leaf < 0
  room : ∃ i < ramfsMaxNodes, (s.other i).used = false

/-- How `resolve_parent` gets to the directory `dir` of RAMFS: over the components
`ps` on the mount `m`. -/
structure ParentWalk (v : BootVfs) (s : BootState RamfsTable) (path : List UInt8)
    (m : FsMount (BootState RamfsTable) Unit (BootNode Nat)) (ps : List (List UInt8)) (dir : Nat)
    (leaf : List UInt8) : Prop where
  valid : ∀ c ∈ ps ++ [leaf], ValidSegment c
  norm : normalizePath v.cwd path = some (render (ps ++ [leaf]))
  mount : mountFor v ps = some m
  ops : m.ops = bootOps ramfsOps
  used : (s.other dir).used = true
  walk : descend (fsLookup s.other) (ps.drop (components m.mountpoint).length) fsGetRoot true
    = some (dir, (s.other dir).isDir)

/-- What `vfs_create` and `vfs_mkdir` can do. -/
inductive VfsCreateOutcome (v : BootVfs) (s : BootState RamfsTable) (kids : Nat → List Nat)
    (path : List UInt8) (isDir : Bool) : Int × BootState RamfsTable → Prop
  | refused {rc : Int} : ¬ MakesEntry v s path → rc < 0 →
      VfsCreateOutcome v s kids path isDir (rc, s)
  | made {m : FsMount (BootState RamfsTable) Unit (BootNode Nat)} {ps : List (List UInt8)}
      {dir idx : Nat} {leaf : List UInt8} {copied : Buffer ramfsMaxName} : MakesEntry v s path →
      ParentWalk v s path m ps dir leaf → IsDir s.other dir →
      (∀ c ∈ kids dir, (s.other c).nameStr ≠ leaf) → copied.str = leaf →
      (s.other idx).used = false →
      MakesNode s.other kids (fun _ _ => True) (linkNew s.other idx copied isDir dir)
        (Function.update kids dir (idx :: kids dir)) →
      VfsCreateOutcome v s kids path isDir (0, { s with other := linkNew s.other idx copied isDir dir })

section Steps

variable {v : BootVfs} {s : BootState RamfsTable} {kids : Nat → List Nat}
  {m : FsMount (BootState RamfsTable) Unit (BootNode Nat)}

theorem resolveComps_ramfs (hm : m.ops = bootOps ramfsOps) (comps : List (List UInt8)) :
    resolveComps s m comps = (descend (fsLookup s.other) comps fsGetRoot true).map
      fun (node, isDir) => (.other node, isDir) := by
  unfold resolveComps
  rw [hm]
  exact descend_other

/-- Paths lead to used nodes of RAMFS. -/
theorem NodesOk.resolveComps_used (h : NodesOk s.other kids) (hm : m.ops = bootOps ramfsOps)
    {comps : List (List UInt8)} (hcomps : ∀ c ∈ comps, ValidSegment c) {node : BootNode Nat}
    {isDir : Bool} (hres : resolveComps s m comps = some (node, isDir)) :
    ∃ j, node = .other j ∧ (s.other j).used = true ∧ isDir = (s.other j).isDir ∧
      descend (fsLookup s.other) comps fsGetRoot true = some (j, isDir) := by
  rw [resolveComps_ramfs hm] at hres
  obtain ⟨⟨j, d⟩, hdesc, heq⟩ := Option.map_eq_some_iff.mp hres
  obtain ⟨rfl, rfl⟩ := Prod.mk.inj heq
  have hroot := h.root
  obtain ⟨hj, hd⟩ := h.descend_used hroot.1 (fun c hc => (hcomps c hc).no_nul)
    (by rw [hroot.2]; exact hdesc)
  exact ⟨j, rfl, hj, hd, hdesc⟩

/-- The parent of a path is on the initrd, or is a node of RAMFS. -/
theorem VfsOk.resolveParent_cases (hv : VfsOk v) (h : NodesOk s.other kids) {path : CString}
    {node : BootNode Nat} {leaf : List UInt8}
    (hparent : resolveParent v s path.bytes = some (m, node, leaf)) :
    m.ops = initrdOps ∨
    ∃ ps dir, node = .other dir ∧ ParentWalk v s path.bytes m ps dir leaf := by
  rcases resolveParent_mountFor hv.table hv.cwd_no_nul path with
    hnone | ⟨ps, leaf', hvalid, hnorm, hres⟩
  · rw [hnone] at hparent
    cases hparent
  · rw [hres] at hparent
    obtain ⟨m', hm', hwalk⟩ := Option.bind_eq_some_iff.mp hparent
    obtain ⟨⟨node', isDir⟩, hcomps, heq⟩ := Option.map_eq_some_iff.mp hwalk
    simp only [Prod.mk.injEq] at heq
    obtain ⟨rfl, rfl, rfl⟩ := heq
    have hps : ∀ c ∈ ps, ValidSegment c := fun c hc => hvalid c (List.mem_append_left _ hc)
    refine (hv.mounts _ (mountFor_below hv.table hps hm').1).imp_right fun hram => ?_
    obtain ⟨dir, rfl, hused, rfl, hdesc⟩ := h.resolveComps_used hram
      (fun c hc => hps c (List.mem_of_mem_drop hc)) hcomps
    exact ⟨ps, dir, rfl, hvalid, hnorm, hm', hram, hused, hdesc⟩

theorem initrdOps_ne (s : BootState RamfsTable) : (initrdOps : BootFsOps) ≠ bootOps ramfsOps := by
  intro heq
  have hroot := congrFun (congrFun (Option.some.inj (congrArg VfsFsOps.getRoot heq)) s) ()
  cases hroot

theorem makesEntry_iff {path leaf : List UInt8} {dir : Nat}
    (hparent : resolveParent v s path = some (m, .other dir, leaf))
    (hops : m.ops = bootOps ramfsOps) :
    MakesEntry v s path ↔ (s.other dir).isDir = true ∧ nodeFindChild s.other dir leaf < 0 ∧
      ∃ i < ramfsMaxNodes, (s.other i).used = false := by
  constructor
  · rintro ⟨⟨m', dir', leaf', hparent', -, hdir, hfind⟩, hroom⟩
    obtain ⟨rfl, rfl, rfl⟩ := by simpa using hparent.symm.trans hparent'
    exact ⟨hdir, hfind, hroom⟩
  · rintro ⟨hdir, hfind, hroom⟩
    exact ⟨⟨m, dir, leaf, hparent, hops, hdir, hfind⟩, hroom⟩

/-- `vfs_create` and `vfs_mkdir` make the entry where they can, else they change nothing. -/
theorem VfsOk.create_outcome (hv : VfsOk v) (h : NodesOk s.other kids) (path : CString)
    (isDir : Bool) :
    VfsCreateOutcome v s kids path.bytes isDir (vfsCreateNode v s path.bytes isDir) := by
  unfold vfsCreateNode
  cases hparent : resolveParent v s path.bytes with
  | none =>
      refine .refused (fun hmakes => ?_) (by decide)
      obtain ⟨m, dir, leaf, hsome, -⟩ := hmakes.parent
      rw [hparent] at hsome
      cases hsome
  | some r =>
      obtain ⟨m, node, leaf⟩ := r
      rcases hv.resolveParent_cases h hparent with hinit | ⟨ps, dir, rfl, hwalk⟩
      · simp only [hinit, initrdOps]
        refine .refused (fun hmakes => ?_) (by decide)
        obtain ⟨m', dir, leaf', hsome, hops, -⟩ := hmakes.parent
        obtain ⟨rfl, -⟩ := by simpa using hparent.symm.trans hsome
        exact initrdOps_ne s (hinit.symm.trans hops)
      · have hiff := makesEntry_iff hparent hwalk.ops
        have hused := hwalk.used
        have hleaf := hwalk.valid leaf (List.mem_append_right _ (List.mem_singleton_self leaf))
        simp only [hwalk.ops, bootOps, ramfsOps, Option.map_some, fsCreate]
        by_cases hdir : (s.other dir).isDir = true
        · have houtcome := h.create_outcome ⟨hused, hdir⟩ hleaf.no_nul isDir
          rw [if_neg (h.notDir_iff ⟨hused, hdir⟩)]
          generalize nodeCreateChild s.other dir leaf isDir = r at houtcome
          cases houtcome with
          | @present c hc hname =>
              refine .refused (fun hmakes => ?_) (show (-1 : Int) < 0 by decide)
              have hfind := (hiff.mp hmakes).2.1
              rw [← hname, h.find_eq hc] at hfind
              omega
          | full _ hfull =>
              refine .refused (fun hmakes => ?_) (show (-2 : Int) < 0 by decide)
              obtain ⟨-, -, i, hi, hfree⟩ := hiff.mp hmakes
              rw [hfull i hi] at hfree
              cases hfree
          | badName _ hbad _ _ _ => exact absurd ⟨hleaf.ne_nil, hleaf.length_lt⟩ hbad
          | @created idx copied hall hgood hidx hfree hstr hmem =>
              have hfind : nodeFindChild s.other dir leaf < 0 := by
                rcases h.find_cases ⟨hused, hdir⟩ hleaf.no_nul with ⟨hnone, -⟩ | ⟨c, hc, hname, -⟩
                · rw [hnone]
                  decide
                · exact absurd hname (hall c hc)
              simp only [if_neg (show ¬ (idx : Int) < 0 by omega)]
              subst hstr
              exact .made (hiff.mpr ⟨hdir, hfind, idx, hidx, hfree⟩) hwalk ⟨hused, hdir⟩ hall rfl hfree
                (.created ⟨hused, hdir⟩ hall hgood hidx hfree hmem trivial)
        · rw [if_pos (show notDir s.other dir from Or.inr (by simpa using hdir))]
          exact .refused (fun hmakes => hdir (hiff.mp hmakes).1) (show (-1 : Int) < 0 by decide)

/-! ## What every call keeps -/

theorem VfsOk.setFd (hv : VfsOk v) {i : Nat}
    {slot : Option (VfsFd BootFsOps Unit (BootNode Nat))}
    (hslot : ∀ f, slot = some f → IsBootFs f.ops) :
    VfsOk { v with fds := v.fds.set i slot } := by
  refine ⟨hv.table, hv.mounts, fun f hf => ?_, hv.cwd_no_nul⟩
  rcases List.mem_or_eq_of_mem_set hf with hf | hf
  · exact hv.fds f hf
  · exact hslot f hf.symm

theorem VfsOk.allocFd (hv : VfsOk v) (hm : some m ∈ v.mounts) (node : BootNode Nat) (flags : Nat) :
    VfsOk (allocFd v m node flags).2 := by
  unfold Fs.allocFd
  cases v.fds.findIdx? Option.isNone with
  | none => exact hv
  | some i => exact hv.setFd fun f hf => Option.some.inj hf ▸ hv.mounts m hm

theorem VfsOk.advanceFd (hv : VfsOk v) {fd : Int} {f : VfsFd BootFsOps Unit (BootNode Nat)}
    (hused : usedFd v fd = some f) (rc : Int) : VfsOk (advanceFd v fd f rc) := by
  unfold Fs.advanceFd
  by_cases hrc : rc > 0
  · rw [if_pos hrc]
    exact hv.setFd fun g hg => Option.some.inj hg ▸ hv.fds f (usedFd_mem hused)
  · rw [if_neg hrc]
    exact hv

theorem VfsOk.vfsMount (hv : VfsOk v) (mountpoint : CString) {ops : Option BootFsOps}
    (hops : ∀ fs, ops = some fs → IsBootFs fs) : VfsOk (vfsMount v mountpoint ops ()).2 := by
  have htable := vfsMount_tableOk hv.table hv.cwd_no_nul mountpoint ops ()
  unfold Fs.vfsMount at htable ⊢
  cases ops with
  | none => exact hv
  | some fs =>
      cases hnorm : normalizePath v.cwd mountpoint.bytes with
      | none => exact hv
      | some norm =>
          cases hfree : v.mounts.findIdx? Option.isNone with
          | none => exact hv
          | some i =>
              simp only [hnorm, hfree] at htable
              refine ⟨htable, fun m hm => ?_, hv.fds, hv.cwd_no_nul⟩
              rcases List.mem_or_eq_of_mem_set hm with hm | hm
              · exact hv.mounts m hm
              · exact Option.some.inj hm ▸ hops fs rfl

theorem VfsOk.vfsChdir (hv : VfsOk v) (s : BootState RamfsTable) (path : CString) :
    VfsOk (vfsChdir v s path.bytes).2 := by
  unfold Fs.vfsChdir
  cases hnorm : normalizePath v.cwd path.bytes with
  | none => exact hv
  | some norm =>
      have hcanon := normalizePath_canonical hv.cwd_no_nul path.noNul hnorm
      simp only [copyStr_canonicalPath hcanon, Option.getD_some]
      split
      · exact ⟨hv.table, hv.mounts, hv.fds, hcanon.no_nul⟩
      · exact hv

theorem resolveFile_mem {path : List UInt8} {node : BootNode Nat}
    (h : resolveFile v s path = some (m, node)) : some m ∈ v.mounts := by
  unfold resolveFile resolvePath at h
  cases hnorm : normalizePath v.cwd path with
  | none => simp [hnorm] at h
  | some norm =>
      cases hfind : findMount v.mounts norm with
      | none => simp [hnorm, hfind] at h
      | some r =>
          obtain ⟨m', hm', -⟩ := @findMount_eq_some _ _ _ _ r.2 r.1 hfind
          simp only [hnorm, hfind, hm'.1] at h
          cases hres : resolveOnMount s m' r.2 with
          | none => simp [hres] at h
          | some found =>
              obtain ⟨node', isDir⟩ := found
              cases isDir with
              | true => simp [hres] at h
              | false =>
                  simp only [hres, Option.map_some, Option.some.injEq, Prod.mk.injEq] at h
                  exact h.1 ▸ List.mem_of_getElem? hm'.1

/-- A call of `vfs_create` or `vfs_mkdir` leaves a good table. -/
theorem VfsOk.create_nodesOk (hv : VfsOk v) (h : NodesOk s.other kids) (path : CString)
    (isDir : Bool) : ∃ kids', NodesOk (vfsCreateNode v s path.bytes isDir).2.other kids' := by
  have houtcome := hv.create_outcome h path isDir
  generalize vfsCreateNode v s path.bytes isDir = r at houtcome
  cases houtcome with
  | refused _ _ => exact ⟨kids, h⟩
  | made _ _ _ _ _ _ hmakes => exact ⟨_, hmakes.nodesOk h⟩

theorem VfsOk.vfsOpen (hv : VfsOk v) (h : NodesOk s.other kids) (path : CString) (flags : Nat) :
    VfsOk (vfsOpen v s path.bytes flags).2.1 ∧
    ∃ kids', NodesOk (vfsOpen v s path.bytes flags).2.2.other kids' := by
  have hcreate : ∃ kids', NodesOk (vfsCreate v s path.bytes).2.other kids' :=
    hv.create_nodesOk h path false
  unfold Fs.vfsOpen
  cases hres : resolveFile v s path.bytes with
  | some found => exact ⟨hv.allocFd (resolveFile_mem hres) found.2 flags, kids, h⟩
  | none =>
      simp only
      split
      · exact ⟨hv, kids, h⟩
      · split
        · exact ⟨hv, hcreate⟩
        · cases hres' : resolveFile v (vfsCreate v s path.bytes).2 path.bytes with
          | none => exact ⟨hv, hcreate⟩
          | some found => exact ⟨hv.allocFd (resolveFile_mem hres') found.2 flags, hcreate⟩

/-- Bytes written through a descriptor keep the table good, whatever its node is now. -/
theorem NodesOk.fsWrite {t : RamfsTable} (h : NodesOk t kids) (node offset : Nat)
    (buf : List UInt8) : NodesOk (fsWrite t node offset buf).2 kids := by
  by_cases hdir : (t node).isDir = true
  · rw [Fs.fsWrite, if_pos hdir]
    exact h
  · rw [fsWrite_eq_update (by simpa using hdir)]
    exact h.update (writeBytes_links ..)

theorem VfsOk.vfsWrite (hv : VfsOk v) (h : NodesOk s.other kids) (fd : Int) (buf : List UInt8) :
    VfsOk (vfsWrite v s fd buf).2.1 ∧ NodesOk (vfsWrite v s fd buf).2.2.other kids := by
  unfold Fs.vfsWrite
  cases hused : usedFd v fd with
  | none => exact ⟨hv, h⟩
  | some f =>
      rcases hv.fds f (usedFd_mem hused) with hops | hops
      · simp only [hops, initrdOps]
        split
        · exact ⟨hv, h⟩
        · exact ⟨hv.advanceFd hused (-1), h⟩
      · simp only [hops, bootOps, ramfsOps, Option.map_some]
        split
        · exact ⟨hv, h⟩
        · refine ⟨hv.advanceFd hused _, ?_⟩
          cases f.node with
          | other node => exact h.fsWrite node f.pos buf
          | root => exact h
          | file i => exact h

theorem VfsOk.vfsRead (hv : VfsOk v) (s : BootState RamfsTable) (fd : Int) (n : Nat) :
    VfsOk (vfsRead v s fd n).2.2 := by
  unfold Fs.vfsRead
  cases hused : usedFd v fd with
  | none => exact hv
  | some f =>
      cases hread : f.ops.read with
      | none =>
          simp only [hread]
          exact hv
      | some read =>
          simp only [hread]
          split
          · exact hv
          · exact hv.advanceFd hused _

theorem VfsOk.vfsClose (hv : VfsOk v) (fd : Int) : VfsOk (vfsClose v fd).2 := by
  unfold Fs.vfsClose
  cases usedFd v fd with
  | none => exact hv
  | some f => exact hv.setFd fun g hg => by cases hg

/-- `initrd_mount_from_multiboot` mounts the initrd and fills `g_initrd`. -/
theorem initrdMount_cases {fuel magic addr : Nat} {v' : BootVfs} {s' : BootState RamfsTable}
    (h : initrdMountFromMultiboot fuel v s magic addr = some (v', s')) :
    v' = (vfsMount v initrdPath (some initrdOps) ()).2 ∧ s'.other = s.other := by
  simp only [initrdMountFromMultiboot] at h
  split at h
  · obtain ⟨rfl, rfl⟩ := Prod.mk.inj (Option.some.inj h)
    exact ⟨rfl, rfl⟩
  · split at h
    · obtain ⟨rfl, rfl⟩ := Prod.mk.inj (Option.some.inj h)
      exact ⟨rfl, rfl⟩
    · obtain ⟨fs, -, heq⟩ := Option.map_eq_some_iff.mp h
      obtain ⟨rfl, rfl⟩ := Prod.mk.inj heq
      exact ⟨rfl, rfl⟩

/-- A call on a name of the root directory leaves a good table. -/
theorem NodesOk.legacyStep {t t' : RamfsTable} (h : NodesOk t kids) {op : LegacyOp} {done : Bool}
    (hstep : legacyStep t op = some (done, t')) : ∃ kids', NodesOk t' kids' := by
  cases op with
  | touch name =>
      obtain ⟨-, rfl⟩ := Prod.mk.inj (Option.some.inj hstep)
      exact (RamfsStep.touch name).nodesOk h
  | write name text append =>
      obtain ⟨⟨ret, t₁⟩, hwrite, heq⟩ := Option.map_eq_some_iff.mp hstep
      obtain ⟨-, rfl⟩ := Prod.mk.inj heq
      exact (RamfsStep.write hwrite).nodesOk h
  | remove name =>
      obtain ⟨-, rfl⟩ := Prod.mk.inj (Option.some.inj hstep)
      exact (RamfsStep.remove name).nodesOk h

/-- Every reachable VFS and every reachable table is good. -/
theorem BootReach.ok (h : BootReach v s) : VfsOk v ∧ ∃ kids, NodesOk s.other kids := by
  induction h with
  | init mem =>
      refine ⟨⟨fun m hm => ?_, fun m hm => ?_, fun f hf => ?_, by decide⟩, _, ramfsInit_ok⟩
      · exact absurd (List.eq_of_mem_replicate hm) (by simp)
      · exact absurd (List.eq_of_mem_replicate hm) (by simp)
      · exact absurd (List.eq_of_mem_replicate hf) (by simp)
  | mount mountpoint _ hops ih => exact ⟨ih.1.vfsMount mountpoint hops, ih.2⟩
  | initrd _ hinitrd ih =>
      obtain ⟨rfl, hother⟩ := initrdMount_cases hinitrd
      rw [hother]
      exact ⟨ih.1.vfsMount initrdPath fun fs hfs => Or.inl (Option.some.inj hfs).symm, ih.2⟩
  | create path isDir _ ih =>
      obtain ⟨kids, hok⟩ := ih.2
      exact ⟨ih.1, ih.1.create_nodesOk hok path isDir⟩
  | «open» path flags _ ih =>
      obtain ⟨kids, hok⟩ := ih.2
      exact ih.1.vfsOpen hok path flags
  | read fd n _ ih => exact ⟨ih.1.vfsRead _ fd n, ih.2⟩
  | write fd buf _ ih =>
      obtain ⟨kids, hok⟩ := ih.2
      exact (ih.1.vfsWrite hok fd buf).imp_right fun hok' => ⟨kids, hok'⟩
  | close fd _ ih => exact ⟨ih.1.vfsClose fd, ih.2⟩
  | chdir path _ ih => exact ⟨ih.1.vfsChdir _ path, ih.2⟩
  | legacy _ hstep ih =>
      obtain ⟨kids, hok⟩ := ih.2
      exact ⟨ih.1, hok.legacyStep hstep⟩

/-! ## Looking for the new file -/

/-- A path with the mount of its parent is walked from there. -/
theorem ParentWalk.resolvePath_eq {path leaf : List UInt8} {ps : List (List UInt8)} {dir : Nat}
    (hwalk : ParentWalk v s path m ps dir leaf) (hv : VfsOk v)
    (hseen : ¬ HiddenPath v (render (ps ++ [leaf]))) (s' : BootState RamfsTable) :
    resolvePath v s' path = (descend (fsLookup s'.other)
        (ps.drop (components m.mountpoint).length ++ [leaf]) fsGetRoot true).map
      fun (node, isDir) => (m, .other node, isDir) := by
  have hpre := (mountFor_below hv.table
    (fun c hc => hwalk.valid c (List.mem_append_left _ hc)) hwalk.mount).2.1
  rw [resolvePath_mountFor hv.table s' hwalk.norm hwalk.valid,
    mountFor_parent hv.table hwalk.valid hseen, hwalk.mount, Option.bind_some,
    List.drop_append_of_le_length hpre.length_le, resolveComps_ramfs hwalk.ops, Option.map_map]
  rfl

/-- A file that the directory does not list is not found. -/
theorem ParentWalk.resolveFile_absent {path leaf : List UInt8} {ps : List (List UInt8)} {dir : Nat}
    (hwalk : ParentWalk v s path m ps dir leaf) (hv : VfsOk v) (h : NodesOk s.other kids)
    (hdir : IsDir s.other dir) (hall : ∀ c ∈ kids dir, (s.other c).nameStr ≠ leaf) :
    resolveFile v s path = none := by
  by_cases hhidden : HiddenPath v (render (ps ++ [leaf]))
  · exact resolveFile_hidden hv.table hwalk.valid hwalk.norm hhidden s
  · have hdesc := hwalk.walk
    rw [hdir.2] at hdesc
    have hleaf := hwalk.valid leaf (List.mem_append_right _ (List.mem_singleton_self leaf))
    unfold resolveFile
    rw [hwalk.resolvePath_eq hv hhidden, descend_concat hdesc]
    rcases h.lookup_cases hdir hleaf.no_nul with ⟨hlookup, -⟩ | ⟨c, hc, hname, -⟩
    · rw [hlookup]
      rfl
    · exact absurd hname (hall c hc)

/-- The file that `vfs_create` makes is found on the mount of its parent. -/
theorem ParentWalk.resolveFile_created {path leaf : List UInt8} {ps : List (List UInt8)}
    {dir idx : Nat} {copied : Buffer ramfsMaxName} (hwalk : ParentWalk v s path m ps dir leaf)
    (hv : VfsOk v) (h : NodesOk s.other kids) (hdir : IsDir s.other dir) (hstr : copied.str = leaf)
    (hfree : (s.other idx).used = false)
    (hmakes : MakesNode s.other kids (fun _ _ => True) (linkNew s.other idx copied false dir)
      (Function.update kids dir (idx :: kids dir)))
    (hseen : ¬ HiddenPath v (render (ps ++ [leaf]))) :
    resolveFile v { s with other := linkNew s.other idx copied false dir } path
      = some (m, .other idx) := by
  have hroot := h.root
  have hne : idx ≠ dir := (ne_of_free hdir.1 hfree).symm
  have hdesc := hwalk.walk
  rw [hdir.2] at hdesc
  have hdesc' : descend (fsLookup (linkNew s.other idx copied false dir))
      (ps.drop (components m.mountpoint).length) fsGetRoot true = some (dir, true) := by
    have hkeeps := hmakes.descend_keeps h hroot.1
      (fun c hc => (hwalk.valid c (List.mem_append_left _ (List.mem_of_mem_drop hc))).no_nul)
      (by rw [hroot.2]; exact hdesc)
    rwa [(hmakes.keeps hroot.1).1, hroot.2] at hkeeps
  have hlookup : fsLookup (linkNew s.other idx copied false dir) dir leaf = some (idx, false) := by
    have heq := (hmakes.nodesOk h).lookup_eq (mem_linkedKids.mpr (Or.inl ⟨rfl, rfl⟩))
    rw [linkNew_self hne] at heq
    exact hstr ▸ heq
  unfold resolveFile
  rw [hwalk.resolvePath_eq hv hseen]
  simp only [descend_concat hdesc', hlookup, Option.map_some]

/-! ## Failed calls -/

/-- Where `vfs_open` fails, the mounts, the descriptors, `g_cwd` and the nodes
are as before. -/
def FailedOpenKeeps (v : BootVfs) (s : BootState RamfsTable) (path : List UInt8)
    (flags : Nat) : Prop :=
  ∀ v' s', vfsOpen v s path flags = (-1, v', s') → v' = v ∧ s' = s

/-- `vfs_open` creates a file that it cannot open: no descriptor is free, or the
path gets another mount than its parent. -/
structure CreatesInVain (v : BootVfs) (s : BootState RamfsTable) (path : List UInt8)
    (flags : Nat) : Prop where
  create : flags &&& vfsOCreate ≠ 0
  makes : MakesEntry v s path
  fails : v.fds.findIdx? Option.isNone = none ∨
    ∃ norm, normalizePath v.cwd path = some norm ∧ HiddenPath v norm

/-- A descriptor that is taken has a number; where none is free nothing changes. -/
theorem allocFd_cases (v : BootVfs) (m : FsMount (BootState RamfsTable) Unit (BootNode Nat))
    (node : BootNode Nat) (flags : Nat) :
    (v.fds.findIdx? Option.isNone = none ∧ allocFd v m node flags = (-1, v)) ∨
    (v.fds.findIdx? Option.isNone ≠ none ∧ (allocFd v m node flags).1 ≠ -1) := by
  unfold allocFd
  cases v.fds.findIdx? Option.isNone with
  | none => exact Or.inl ⟨rfl, rfl⟩
  | some i => exact Or.inr ⟨by simp, fun heq => by simp only at heq; omega⟩

/-- **Failed opens**: `vfs_open` leaves everything as it was when it fails,
exactly where it does not create a file in vain. -/
theorem vfsOpen_keeps_iff (h : BootReach v s) (path : CString) (flags : Nat) :
    FailedOpenKeeps v s path.bytes flags ↔ ¬ CreatesInVain v s path.bytes flags := by
  obtain ⟨hv, kids, hok⟩ := h.ok
  have houtcome : VfsCreateOutcome v s kids path.bytes false (vfsCreate v s path.bytes) :=
    hv.create_outcome hok path false
  have halloc : ∀ {m node v'} {s' t : BootState RamfsTable},
      ((allocFd v m node flags).1, (allocFd v m node flags).2, s') = (-1, v', t) →
      v.fds.findIdx? Option.isNone = none ∧ v' = v ∧ t = s' := by
    intro m node v' s' t heq
    simp only [Prod.mk.injEq] at heq
    obtain ⟨hret, rfl, rfl⟩ := heq
    rcases allocFd_cases v m node flags with ⟨hfull, hsame⟩ | ⟨-, hfd⟩
    · rw [hsame]
      exact ⟨hfull, rfl, rfl⟩
    · exact absurd hret hfd
  unfold FailedOpenKeeps vfsOpen
  generalize vfsCreate v s path.bytes = r at houtcome
  cases houtcome with
  | refused hno hrc =>
      refine iff_of_true (fun v' s' heq => ?_) fun hvain => hno hvain.makes
      cases hres : resolveFile v s path.bytes with
      | some found =>
          rw [hres] at heq
          exact (halloc heq).2
      | none =>
          simp only [hres, if_pos hrc, ite_self, Prod.mk.injEq] at heq
          exact ⟨heq.2.1.symm, heq.2.2.symm⟩
  | @made m ps dir idx leaf copied hmakes hwalk hdir hall hstr hfree hnode =>
      have hchanged : { s with other := linkNew s.other idx copied false dir } ≠ s := by
        intro heq
        have hused := congrArg (fun s : BootState RamfsTable => (s.other idx).used) heq
        have hne : idx ≠ dir := (ne_of_free hdir.1 hfree).symm
        simp only [linkNew_self hne, hfree] at hused
        cases hused
      rw [hwalk.resolveFile_absent hv hok hdir hall]
      by_cases hcreate : flags &&& vfsOCreate = 0
      · simp only [if_pos hcreate, Prod.mk.injEq]
        exact iff_of_true (fun v' s' heq => ⟨heq.2.1.symm, heq.2.2.symm⟩)
          fun hvain => hvain.create hcreate
      · simp only [if_neg hcreate]
        rw [if_neg (by decide)]
        by_cases hhidden : HiddenPath v (render (ps ++ [leaf]))
        · rw [resolveFile_hidden hv.table hwalk.valid hwalk.norm hhidden]
          exact iff_of_false (fun hkeeps => hchanged (hkeeps _ _ rfl).2)
            (not_not.mpr ⟨hcreate, hmakes, Or.inr ⟨_, hwalk.norm, hhidden⟩⟩)
        · rw [hwalk.resolveFile_created hv hok hdir hstr hfree hnode hhidden]
          rcases allocFd_cases v m (.other idx) flags with ⟨hfull, hsame⟩ | ⟨hroom, hfd⟩
          · refine iff_of_false (fun hkeeps => hchanged (hkeeps v _ ?_).2)
              (not_not.mpr ⟨hcreate, hmakes, Or.inl hfull⟩)
            simp only [hsame]
          · refine iff_of_true (fun v' s' heq => absurd (congrArg Prod.fst heq) hfd) fun hvain => ?_
            rcases hvain.fails with hfull | ⟨norm, hnorm, hpath⟩
            · exact hroom hfull
            · exact hhidden (Option.some.inj (hwalk.norm.symm.trans hnorm) ▸ hpath)

end Steps

/-- The state after `ramfs_init`. -/
def bootState : BootState RamfsTable where
  mem := fun _ => 0
  initrd := zeroCtx
  other := ramfsInit

/-- `kmain` mounts RAMFS on `/`. -/
theorem kernelVfs_reach : BootReach (kernelVfs (bootOps ramfsOps)) bootState :=
  .mount rootPath (.init _) fun _ hfs => Or.inr (Option.some.inj hfs).symm

/-- A file in a directory that does not exist is not created. -/
theorem vfsOpen_keeps_orphan : FailedOpenKeeps (kernelVfs (bootOps ramfsOps)) bootState
    (ascii "/a/b") (vfsOCreate ||| vfsORdwr) := by
  refine (vfsOpen_keeps_iff kernelVfs_reach ⟨ascii "/a/b", by decide⟩ _).mpr fun hvain => ?_
  obtain ⟨m, dir, leaf, hparent, -⟩ := hvain.makes.parent
  have hnone : resolveParent (kernelVfs (bootOps ramfsOps)) bootState (ascii "/a/b") = none := rfl
  rw [hnone] at hparent
  cases hparent

/-- The kernel's RAMFS on `/`: opening `/x` with `VFS_O_CREATE` fails and leaves
a file `x` in the root directory. -/
theorem vfsOpen_leaves_file : BootReach (kernelVfs (bootOps ramfsOps)) bootState ∧
    ¬ FailedOpenKeeps (kernelVfs (bootOps ramfsOps)) bootState (ascii "/x")
      (vfsOCreate ||| vfsORdwr) := by
  refine ⟨kernelVfs_reach, fun hkeeps => ?_⟩
  have hsame := hkeeps _ (vfsOpen (kernelVfs (bootOps ramfsOps)) bootState (ascii "/x")
    (vfsOCreate ||| vfsORdwr)).2.2 rfl
  have hused := congrArg (fun s : BootState RamfsTable => (s.other 1).used) hsame.2
  cases hused

end RoninOS.Fs
