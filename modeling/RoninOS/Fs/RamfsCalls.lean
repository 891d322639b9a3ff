/-
RoninOS.Fs.RamfsCalls — every table RAMFS can get into.

A run is any sequence of `fs_create`, `fs_write` and the calls on names of the
root directory, with any node numbers and offsets: a descriptor may keep the
number of a node that is free by now. `CallsOk` is what every call keeps, and
the table of every kernel run is the table of such a run (`BootReach.calls`).
-/
import RoninOS.Fs.VfsOpen
import RoninOS.Lib.Runs

namespace RoninOS.Fs

open RoninOS.Lib RoninOS.Mem

/-! ## Calls -/

/-- A call that can change the table; `put` is `fs_write`. -/
inductive RamfsCall
  | create (dir : Nat) (name : CString) (isDir : Bool)
  | put (node offset : Nat) (buf : List UInt8)
  | legacy (op : LegacyOp)

/-- The table after a call; `none` where `ramfs_write` leaves it undefined. -/
def ramfsNext (t : RamfsTable) : RamfsCall → Option RamfsTable
  | .create dir name isDir => some (fsCreate t dir name.bytes isDir).2
  | .put node offset buf => some (fsWrite t node offset buf).2
  | .legacy op => (legacyStep t op).map (·.2)

/-- The tables of the runs from `ramfs_init`. -/
def RamfsState (t : RamfsTable) : Prop :=
  ∃ calls : List RamfsCall, calls.foldlM ramfsNext ramfsInit = some t

theorem RamfsState.init : RamfsState ramfsInit := ⟨[], rfl⟩

theorem RamfsState.next {t t' : RamfsTable} (h : RamfsState t) (call : RamfsCall)
    (hnext : ramfsNext t call = some t') : RamfsState t' := by
  obtain ⟨calls, hrun⟩ := h
  refine ⟨calls ++ [call], ?_⟩
  rw [List.foldlM_append, hrun]
  simp [hnext]

/-! ## What every call keeps -/

/-- The lists are good, free nodes are no directories, and files keep to the limit. -/
structure CallsOk (t : RamfsTable) (kids : Nat → List Nat) : Prop where
  nodes : NodesOk t kids
  free_file : ∀ i, (t i).used = false → (t i).isDir = false
  size_le : ∀ i, (t i).used = true → (t i).size ≤ ramfsMaxContent

section Calls

variable {t t' : RamfsTable} {kids kids' : Nat → List Nat} {mayName : List UInt8 → Bool → Prop}

theorem ramfsInit_callsOk : CallsOk ramfsInit fun _ => [] := by
  refine ⟨ramfsInit_ok, fun i hi => ?_, fun i _ => ?_⟩
  · by_cases h0 : i = 0
    · subst h0
      cases hi
    · rw [ramfsInit, Function.update_of_ne h0]
      rfl
  · by_cases h0 : i = 0
    · subst h0
      exact Nat.zero_le _
    · rw [ramfsInit, Function.update_of_ne h0]
      exact Nat.zero_le _

/-- Setting a node that is used, or is a file, adds no free directory. -/
theorem free_file_update (h : ∀ i, (t i).used = false → (t i).isDir = false) {j : Nat}
    {node : RamfsNode} (hnode : node.used = false → node.isDir = false) :
    ∀ i, (Function.update t j node i).used = false → (Function.update t j node i).isDir = false := by
  intro i hi
  by_cases hij : i = j
  · rw [hij, Function.update_self] at hi ⊢
    exact hnode hi
  · rw [Function.update_of_ne hij] at hi ⊢
    exact h i hi

/-- `node_create_child` leaves no free directory. -/
theorem nodeCreateChild_free (h : ∀ i, (t i).used = false → (t i).isDir = false) (dir : Nat)
    (name : List UInt8) (isDir : Bool) :
    ∀ i, ((nodeCreateChild t dir name isDir).2 i).used = false →
      ((nodeCreateChild t dir name isDir).2 i).isDir = false := by
  unfold nodeCreateChild
  by_cases hfound : nodeFindChild t dir name ≥ 0
  · rw [if_pos hfound]
    exact h
  · rw [if_neg hfound]
    rcases nodeAlloc_cases t with ⟨halloc, -⟩ | ⟨idx, -, -, halloc⟩
    · rw [halloc]
      exact h
    · rw [halloc]
      simp only [Function.update_self, Function.update_idem]
      split
      · exact free_file_update h fun _ => rfl
      · have hnew := @free_file_update t h idx
        refine free_file_update (hnew fun hused => by cases hused) ?_
        exact hnew (fun hused => by cases hused) dir

/-- `ramfs_touch` leaves no free directory. -/
theorem ramfsTouch_free (h : ∀ i, (t i).used = false → (t i).isDir = false) (name : List UInt8) :
    ∀ i, ((ramfsTouch t name).2 i).used = false → ((ramfsTouch t name).2 i).isDir = false := by
  unfold ramfsTouch
  split
  · exact h
  · split
    · exact h
    · exact nodeCreateChild_free h 0 name false

/-- `ramfs_write` leaves no free directory: it keeps the kind of the node it fills. -/
theorem ramfsWrite_free (h : ∀ i, (t i).used = false → (t i).isDir = false) {name : List UInt8}
    {text : Option (List UInt8)} {append : Bool} {ret : Int}
    (hwrite : ramfsWrite t name text append = some (ret, t')) :
    ∀ i, (t' i).used = false → (t' i).isDir = false := by
  have htouch := ramfsTouch_free h name
  unfold ramfsWrite at hwrite
  generalize ramfsTouch t name = r at htouch hwrite
  obtain ⟨_, t₁⟩ := r
  simp only at htouch hwrite
  split at hwrite
  · obtain ⟨-, rfl⟩ := Prod.mk.inj (Option.some.inj hwrite)
    exact htouch
  · split at hwrite
    · obtain ⟨-, rfl⟩ := Prod.mk.inj (Option.some.inj hwrite)
      exact htouch
    · generalize (if append then _ else 0) = off at hwrite
      split at hwrite
      · cases hwrite
      · obtain ⟨-, rfl⟩ := Prod.mk.inj (Option.some.inj hwrite)
        exact free_file_update htouch (htouch _)

/-- A call on a name of the root directory leaves no free directory. -/
theorem NodesOk.legacyStep_free (hok : NodesOk t kids)
    (h : ∀ i, (t i).used = false → (t i).isDir = false) {op : LegacyOp} {done : Bool}
    (hstep : Fs.legacyStep t op = some (done, t')) :
    ∀ i, (t' i).used = false → (t' i).isDir = false := by
  cases op with
  | touch name =>
      obtain ⟨-, rfl⟩ := Prod.mk.inj (Option.some.inj hstep)
      exact ramfsTouch_free h name.bytes
  | write name text append =>
      obtain ⟨⟨ret, t₂⟩, hwrite, heq⟩ := Option.map_eq_some_iff.mp hstep
      obtain ⟨-, rfl⟩ := Prod.mk.inj heq
      exact ramfsWrite_free h hwrite
  | remove name =>
      have houtcome := hok.remove_outcome name.noNul
      simp only [Fs.legacyStep, Option.some.injEq, Prod.mk.injEq] at hstep
      obtain ⟨-, rfl⟩ := hstep
      generalize ramfsRemove t name.bytes = r at houtcome
      cases houtcome with
      | absent _ => exact h
      | @removed x t' hx _ hzero hkeep _ =>
          intro i hi
          simp only at hi ⊢
          by_cases hix : i = x
          · rw [hix, hzero]
            rfl
          · rw [hkeep i hix] at hi ⊢
            exact h i hi

/-- `fs_create` in any node makes a node at most: a free node is no directory. -/
theorem CallsOk.fsCreate_makes (h : CallsOk t kids) (dir : Nat) (name : CString) (isDir : Bool) :
    ∃ kids', MakesNode t kids (fun _ _ => True) (fsCreate t dir name.bytes isDir).2 kids' := by
  cases hused : (t dir).used with
  | true => exact h.nodes.fsCreate_makes hused name.noNul trivial
  | false =>
      rw [fsCreate, if_pos (show notDir t dir from Or.inr (h.free_file dir hused))]
      exact ⟨kids, .unchanged (.refl t)⟩

/-- `fs_write` in any node keeps the table good. -/
theorem CallsOk.fsWrite (h : CallsOk t kids) (node offset : Nat) (buf : List UInt8) :
    CallsOk (fsWrite t node offset buf).2 kids := by
  by_cases hdir : (t node).isDir = true
  · rw [Fs.fsWrite, if_pos hdir]
    exact h
  · have hfile : (t node).isDir = false := by simpa using hdir
    have htable := congrArg Prod.snd (fsWrite_eq_update hfile offset buf)
    refine ⟨h.nodes.fsWrite node offset buf, ?_, fun i hi => ?_⟩
    · rw [htable]
      exact free_file_update h.free_file fun _ => hfile
    · rw [htable] at hi ⊢
      simp only at hi ⊢
      by_cases hin : i = node
      · subst hin
        rw [Function.update_self] at hi ⊢
        have hsize := h.size_le i hi
        refine size_writeBytes_le hsize ?_
        rw [List.length_take]
        omega
      · rw [Function.update_of_ne hin] at hi ⊢
        exact h.size_le i hi

/-- What a call does to a good table. -/
inductive CallChange (t : RamfsTable) (kids : Nat → List Nat) :
    RamfsCall → RamfsTable → (Nat → List Nat) → Prop
  | create {dir : Nat} {name : CString} {isDir : Bool} {t' : RamfsTable}
      {kids' : Nat → List Nat} : MakesNode t kids (fun _ _ => True) t' kids' →
      CallChange t kids (.create dir name isDir) t' kids'
  | put {node offset : Nat} {buf : List UInt8} :
      CallChange t kids (.put node offset buf) (Fs.fsWrite t node offset buf).2 kids
  | legacy {v : RamfsVfs} {op : LegacyOp} {t' : RamfsTable} {kids' : Nat → List Nat} :
      TableChange v t kids (.legacy op) t' kids' → CallChange t kids (.legacy op) t' kids'

/-- A call leaves a good table. -/
theorem CallsOk.next (h : CallsOk t kids) {call : RamfsCall} (hnext : ramfsNext t call = some t') :
    ∃ kids', CallsOk t' kids' ∧ CallChange t kids call t' kids' := by
  cases call with
  | create dir name isDir =>
      obtain rfl := Option.some.inj hnext
      obtain ⟨kids', hmakes⟩ := h.fsCreate_makes dir name isDir
      refine ⟨kids', ⟨hmakes.nodesOk h.nodes, ?_, hmakes.size_le h.size_le⟩, .create hmakes⟩
      unfold fsCreate
      split
      · exact h.free_file
      · exact nodeCreateChild_free h.free_file dir name.bytes isDir
  | put node offset buf =>
      obtain rfl := Option.some.inj hnext
      exact ⟨kids, h.fsWrite node offset buf, .put⟩
  | legacy op =>
      obtain ⟨⟨done, t₁⟩, hstep, rfl⟩ := Option.map_eq_some_iff.mp hnext
      obtain ⟨kids', hchange⟩ := @NodesOk.legacy_change vfsInit _ _ _ h.nodes _ _ hstep
      exact ⟨kids', ⟨hchange.nodesOk h.nodes, h.nodes.legacyStep_free h.free_file hstep,
        hchange.size_le h.size_le⟩, .legacy hchange⟩

end Calls

/-- Every table of a run is good. -/
theorem RamfsState.callsOk {t : RamfsTable} (h : RamfsState t) : ∃ kids, CallsOk t kids := by
  obtain ⟨calls, hrun⟩ := h
  refine run_invariant (fun t => ∃ kids, CallsOk t kids) ?_ ⟨_, ramfsInit_callsOk⟩ hrun
  rintro t call t' ⟨kids, hok⟩ hnext
  obtain ⟨kids', hok', -⟩ := hok.next hnext
  exact ⟨kids', hok'⟩

/-! ## Kernel runs -/

section Kernel

variable {v : BootVfs} {s : BootState RamfsTable} {kids : Nat → List Nat}

/-- `vfs_create` and `vfs_mkdir` call `fs_create` once at most. -/
theorem RamfsState.vfsCreateNode (h : RamfsState s.other) (hv : VfsOk v)
    (hok : NodesOk s.other kids) (path : CString) (isDir : Bool) :
    RamfsState (vfsCreateNode v s path.bytes isDir).2.other := by
  unfold Fs.vfsCreateNode
  cases hparent : resolveParent v s path.bytes with
  | none => exact h
  | some r =>
      obtain ⟨m, node, leaf⟩ := r
      rcases hv.resolveParent_cases hok hparent with hinit | ⟨ps, dir, rfl, hwalk⟩
      · simp only [hinit, initrdOps]
        exact h
      · have hleaf := hwalk.valid leaf (List.mem_append_right _ (List.mem_singleton_self leaf))
        simp only [hwalk.ops, bootOps, ramfsOps, Option.map_some]
        exact h.next (.create dir ⟨leaf, hleaf.no_nul⟩ isDir) rfl

/-- `vfs_open` creates the file at most. -/
theorem RamfsState.vfsOpen (h : RamfsState s.other) (hv : VfsOk v) (hok : NodesOk s.other kids)
    (path : CString) (flags : Nat) : RamfsState (vfsOpen v s path.bytes flags).2.2.other := by
  have hcreate : RamfsState (vfsCreate v s path.bytes).2.other :=
    h.vfsCreateNode hv hok path false
  unfold Fs.vfsOpen
  cases resolveFile v s path.bytes with
  | some found => exact h
  | none =>
      simp only
      split
      · exact h
      · split
        · exact hcreate
        · cases resolveFile v (vfsCreate v s path.bytes).2 path.bytes with
          | none => exact hcreate
          | some found => exact hcreate

/-- `vfs_write` calls `fs_write` once at most. -/
theorem RamfsState.vfsWrite (h : RamfsState s.other) (hv : VfsOk v) (fd : Int)
    (buf : List UInt8) : RamfsState (vfsWrite v s fd buf).2.2.other := by
  unfold Fs.vfsWrite
  cases hused : usedFd v fd with
  | none => exact h
  | some f =>
      rcases hv.fds f (usedFd_mem hused) with hops | hops
      · simp only [hops, initrdOps]
        split
        · exact h
        · exact h
      · simp only [hops, bootOps, ramfsOps, Option.map_some]
        split
        · exact h
        · cases f.node with
          | other node => exact h.next (.put node f.pos buf) rfl
          | root => exact h
          | file i => exact h

/-- The table of a kernel run is the table of a run of RAMFS calls. -/
theorem BootReach.calls (h : BootReach v s) : RamfsState s.other := by
  induction h with
  | init mem => exact .init
  | mount _ _ _ ih => exact ih
  | initrd _ hinitrd ih =>
      rw [(initrdMount_cases hinitrd).2]
      exact ih
  | create path isDir hreach ih =>
      obtain ⟨kids, hok⟩ := hreach.ok.2
      exact ih.vfsCreateNode hreach.ok.1 hok path isDir
  | «open» path flags hreach ih =>
      obtain ⟨kids, hok⟩ := hreach.ok.2
      exact ih.vfsOpen hreach.ok.1 hok path flags
  | read _ _ _ ih => exact ih
  | write fd buf hreach ih => exact ih.vfsWrite hreach.ok.1 fd buf
  | close _ _ ih => exact ih
  | chdir _ _ ih => exact ih
  | @legacy _ _ op _ _ _ hstep ih =>
      refine ih.next (.legacy op) ?_
      rw [ramfsNext, hstep]
      rfl

end Kernel

end RoninOS.Fs
