/-
RoninOS.Fs.StaleDescriptors — descriptors whose file was removed.

A descriptor holds the number of a node, `ramfs_remove` frees the node without
looking at the descriptors, and the next file may get the same node. A
`History` stamps every file with the call that made it and notes the call that
removed it, so that "a file made after the descriptor's file was removed" can
be said. `stale_descriptors_iff`: a run keeps such files from the descriptor
exactly where none of its reads and writes moves a byte of one.
-/
import RoninOS.Fs.RamfsShared
import RoninOS.Lib.Runs

namespace RoninOS.Fs

open RoninOS.Lib

/-! ## Histories -/

/-- A file is named by the call that made it. -/
structure History where
  /-- The calls so far. -/
  clock : Nat
  /-- The file in a node. -/
  made : Nat → Nat
  /-- The call that removed a file. -/
  gone : Nat → Option Nat
  /-- The file that a descriptor was opened on. -/
  opened : Nat → Nat

/-- The state with its history. -/
structure Traced where
  vfs : RamfsVfs
  table : RamfsTable
  hist : History

/-- The files after a call: a node in use that was free has a new one. -/
def madeNext (h : History) (t t' : RamfsTable) (i : Nat) : Nat :=
  if (t i).used = false ∧ (t' i).used = true then h.clock else h.made i

/-- The removals after a call: the file of a freed node is gone. -/
def goneNext (h : History) (t t' : RamfsTable) (file : Nat) : Option Nat :=
  if ∃ i < ramfsMaxNodes, (t i).used = true ∧ (t' i).used = false ∧ h.made i = file then some h.clock
  else h.gone file

/-- The files of the descriptors after a call. -/
def openedNext (h : History) (made : Nat → Nat) (v' : RamfsVfs) (ret : Int) :
    SharedOp → Nat → Nat
  | .vfs (.open _ _) =>
      match usedFd v' ret with
      | none => h.opened
      | some f => Function.update h.opened ret.toNat (made f.node)
  | _ => h.opened

/-- A call and its place in the history. -/
def tracedNext (s : Traced) (op : SharedOp) : Option Traced :=
  (sharedNext (s.vfs, s.table) op).map fun (v', t') =>
    { vfs := v'
      table := t'
      hist := {
        clock := s.hist.clock + 1
        made := madeNext s.hist s.table t'
        gone := goneNext s.hist s.table t'
        opened := openedNext s.hist (madeNext s.hist s.table t') v'
          (sharedRet (s.vfs, s.table) op) op } }

/-- RAMFS freshly mounted. -/
def tracedStart (mp : CString) : Traced where
  vfs := ramfsMounted mp
  table := ramfsInit
  hist := { clock := 1, made := fun _ => 0, gone := fun _ => none, opened := fun _ => 0 }

/-! ## Files made later -/

/-- The file of a node was made after the file of descriptor `fd` was removed. -/
def Later (s : Traced) (fd : Int) (i : Nat) : Prop :=
  (s.table i).used = true ∧ ∃ r, s.hist.gone (s.hist.opened fd.toNat) = some r ∧ r < s.hist.made i

/-- A call returns no byte of such a file and leaves its content and its size. -/
def KeepsLater (s : Traced) : SharedOp → Prop
  | .vfs (.read fd n) => ∀ f, usedFd s.vfs fd = some f → Later s fd f.node →
      (vfsRead s.vfs s.table fd n).2.1 = []
  | .vfs (.write fd buf) => usedFd s.vfs fd ≠ none → ∀ i, Later s fd i →
      contents ((vfsWrite s.vfs s.table fd buf).2.2 i) = contents (s.table i) ∧
      ((vfsWrite s.vfs s.table fd buf).2.2 i).size = (s.table i).size
  | _ => True

/-- A read or write through a descriptor whose node has a later file moves no
byte: the node is a directory, the mode forbids the call, nothing is asked for
or left to read, or the bytes to write are there already. -/
def StaleSafe (s : Traced) : SharedOp → Prop
  | .vfs (.read fd n) => ∀ f, usedFd s.vfs fd = some f → Later s fd f.node →
      (s.table f.node).isDir = true ∨ f.flags &&& vfsOWronly = vfsOWronly ∨ n = 0 ∨
        (s.table f.node).size ≤ f.pos
  | .vfs (.write fd buf) => ∀ f, usedFd s.vfs fd = some f → Later s fd f.node →
      (s.table f.node).isDir = true ∨
      (f.flags &&& vfsOWronly = 0 ∧ f.flags &&& vfsORdwr ≠ vfsORdwr) ∨
      let off := min f.pos (s.table f.node).size
      buf.take (ramfsMaxContent - off) <+: (contents (s.table f.node)).drop off
  | _ => True

/-- Every call of a run keeps the later files. -/
def AllKeepLater : List SharedOp → Traced → Prop
  | [], _ => True
  | op :: ops, s => KeepsLater s op ∧ ∀ s', tracedNext s op = some s' → AllKeepLater ops s'

/-- Every call of a run is safe. -/
def AllStaleSafe : List SharedOp → Traced → Prop
  | [], _ => True
  | op :: ops, s => StaleSafe s op ∧ ∀ s', tracedNext s op = some s' → AllStaleSafe ops s'

/-- The file of a descriptor is still in its node, or was removed and whatever
is in the node now was made later. -/
def FileOrLater (s : Traced) (fd : Int) (node : Nat) : Prop :=
  ((s.table node).used = true ∧ s.hist.made node = s.hist.opened fd.toNat ∧
    s.hist.gone (s.hist.opened fd.toNat) = none) ∨
  (∃ r, s.hist.gone (s.hist.opened fd.toNat) = some r) ∧
    ((s.table node).used = true → Later s fd node)

/-! ## Which nodes a call makes or frees -/

/-- At most one node is made or freed. -/
inductive UsedChange (t t' : RamfsTable) : Prop
  | same : (∀ i, (t' i).used = (t i).used) → UsedChange t t'
  | gains {idx : Nat} : (t idx).used = false → (t' idx).used = true →
      (∀ i, i ≠ idx → (t' i).used = (t i).used) → UsedChange t t'
  | loses {x : Nat} : (t x).used = true → (t' x).used = false →
      (∀ i, i ≠ x → (t' i).used = (t i).used) → UsedChange t t'

section Changes

variable {v : RamfsVfs} {t t' t'' : RamfsTable} {kids kids' : Nat → List Nat}

theorem MakesNode.usedChange {mayName : List UInt8 → Bool → Prop}
    (hmakes : MakesNode t kids mayName t' kids') : UsedChange t t' := by
  cases hmakes with
  | unchanged hsame =>
      refine .same fun i => ?_
      rcases hsame i with heq | ⟨hfree, hfree'⟩
      · rw [heq]
      · rw [hfree, hfree']
  | @created dir idx copied isDir hdir _ _ _ hfree _ _ =>
      have hne : idx ≠ dir := (ne_of_free hdir.1 hfree).symm
      refine .gains hfree (by rw [linkNew_self hne]; rfl) fun i hi => ?_
      rcases @linkNew_keeps t _ dir copied isDir _ hi with
        heq | heq <;> rw [heq]

theorem UsedChange.trans_same (h : UsedChange t t') (hsame : ∀ i, (t'' i).used = (t' i).used) :
    UsedChange t t'' := by
  cases h with
  | same hkeep => exact .same fun i => (hsame i).trans (hkeep i)
  | gains hfree hused hkeep =>
      exact .gains hfree ((hsame _).trans hused) fun i hi => (hsame i).trans (hkeep i hi)
  | loses hused hfree hkeep =>
      exact .loses hused ((hsame _).trans hfree) fun i hi => (hsame i).trans (hkeep i hi)

theorem TableChange.usedChange {op : SharedOp} (hchange : TableChange v t kids op t' kids')
    (h : NodesOk t kids) : UsedChange t t' := by
  cases hchange with
  | makes hmakes => exact hmakes.usedChange
  | wrote hmakes _ _ hwrite =>
      exact hmakes.usedChange.trans_same (used_update (writeText_links hwrite))
  | removed hx _ hzero hkeep _ =>
      refine .loses (h.child 0 _ hx).1 (by rw [hzero]; rfl) fun i hi => ?_
      rw [hkeep i hi]
  | put _ _ _ _ _ => exact .same (used_update (writeBytes_links ..))

end Changes

/-! ## One call -/

section Calls

variable {ms : List (List UInt8)} {s : Traced} {kids : Nat → List Nat}

/-- A call keeps the later files exactly where it is safe. -/
theorem keepsLater_iff (h : SharedOk ms (s.vfs, s.table) kids)
    (hsize : ∀ i, (s.table i).used = true → (s.table i).size ≤ ramfsMaxContent) (op : SharedOp) :
    KeepsLater s op ↔ StaleSafe s op := by
  cases op with
  | legacy op => exact Iff.rfl
  | vfs op =>
      cases op with
      | tree op => exact Iff.rfl
      | «open» p flags => exact Iff.rfl
      | close fd => exact Iff.rfl
      | read fd n =>
          refine forall_congr' fun f => forall_congr' fun hused => forall_congr' fun hlater => ?_
          have hle := hsize f.node hlater.1
          rw [vfsRead_bytes hused (h.fds f (usedFd_mem hused)) hle, ← or_assoc]
          by_cases hno : (s.table f.node).isDir = true ∨ f.flags &&& vfsOWronly = vfsOWronly
          · rw [if_pos hno]
            exact iff_of_true rfl (Or.inl hno)
          · rw [if_neg hno, List.take_eq_nil_iff, List.drop_eq_nil_iff, length_contents hle]
            exact ⟨Or.inr, fun hor => hor.resolve_left hno⟩
      | write fd buf =>
          cases hused : usedFd s.vfs fd with
          | none =>
              refine iff_of_true (fun hsome => absurd hused hsome) fun f hf => ?_
              rw [hused] at hf
              cases hf
          | some f =>
              have htable := vfsWrite_table (t := s.table) hused (h.fds f (usedFd_mem hused)) buf
              simp only at htable
              constructor
              · intro hkeeps g hg hlater
                obtain rfl : f = g := Option.some.inj (hused.symm.trans hg)
                have hkeep := hkeeps (by rw [hused]; simp) f.node hlater
                rw [htable] at hkeep
                rw [← or_assoc]
                by_cases hno : (s.table f.node).isDir = true ∨
                    (f.flags &&& vfsOWronly = 0 ∧ f.flags &&& vfsORdwr ≠ vfsORdwr)
                · exact Or.inl hno
                · rw [if_neg hno, Function.update_self, writeBytes_keeps_iff
                    (hsize f.node hlater.1) (Nat.min_le_right ..) (by
                      have hle := hsize f.node hlater.1
                      rw [List.length_take]
                      omega)] at hkeep
                  exact Or.inr hkeep
              · intro hsafe _ i hlater
                rw [htable]
                by_cases hno : (s.table f.node).isDir = true ∨
                    (f.flags &&& vfsOWronly = 0 ∧ f.flags &&& vfsORdwr ≠ vfsORdwr)
                · rw [if_pos hno]
                  exact ⟨rfl, rfl⟩
                · rw [if_neg hno]
                  by_cases hi : i = f.node
                  · subst hi
                    have hprefix := ((or_assoc.mpr (hsafe f hused hlater)).resolve_left hno)
                    rw [Function.update_self]
                    exact (writeBytes_keeps_iff (hsize f.node hlater.1) (Nat.min_le_right ..) (by
                      have hle := hsize f.node hlater.1
                      rw [List.length_take]
                      omega)).mpr hprefix
                  · rw [Function.update_of_ne hi]
                    exact ⟨rfl, rfl⟩

end Calls

/-! ## Runs -/

/-- A used node has a file of its own that was not removed. -/
structure HistoryOk (t : RamfsTable) (h : History) : Prop where
  made_lt : ∀ i, (t i).used = true → h.made i < h.clock
  made_inj : ∀ i j, (t i).used = true → (t j).used = true → h.made i = h.made j → i = j
  not_gone : ∀ i, (t i).used = true → h.gone (h.made i) = none
  gone_lt : ∀ file r, h.gone file = some r → file < h.clock ∧ r < h.clock

/-- The history fits the state, and each descriptor has its file or a later one. -/
structure TracedOk (ms : List (List UInt8)) (s : Traced) (kids : Nat → List Nat) : Prop where
  shared : SharedOk ms (s.vfs, s.table) kids
  size_le : ∀ i, (s.table i).used = true → (s.table i).size ≤ ramfsMaxContent
  hist : HistoryOk s.table s.hist
  fds : ∀ fd f, usedFd s.vfs fd = some f → FileOrLater s fd f.node

/-- What a call does to the history. -/
inductive HistoryChange (t t' : RamfsTable) (h : History) : Prop
  | same : (∀ i, (t' i).used = (t i).used) → madeNext h t t' = h.made →
      goneNext h t t' = h.gone → HistoryChange t t' h
  | gains {idx : Nat} : (t idx).used = false → (t' idx).used = true →
      (∀ i, i ≠ idx → (t' i).used = (t i).used) →
      madeNext h t t' = Function.update h.made idx h.clock →
      goneNext h t t' = h.gone → HistoryChange t t' h
  | loses {x : Nat} : (t x).used = true → (t' x).used = false →
      (∀ i, i ≠ x → (t' i).used = (t i).used) → madeNext h t t' = h.made →
      goneNext h t t' = Function.update h.gone (h.made x) (some h.clock) → HistoryChange t t' h

theorem UsedChange.history {t t' : RamfsTable} (hchange : UsedChange t t') (h : History)
    (hlt : ∀ i, (t i).used = true → i < ramfsMaxNodes) : HistoryChange t t' h := by
  cases hchange with
  | same hkeep =>
      refine .same hkeep (funext fun i => if_neg fun hnew => ?_) (funext fun file => if_neg ?_)
      · rw [hkeep i, hnew.1] at hnew
        cases hnew.2
      · rintro ⟨i, -, hused, hfree, -⟩
        rw [hkeep i, hused] at hfree
        cases hfree
  | @gains idx hfree hused hkeep =>
      refine .gains hfree hused hkeep (funext fun i => ?_) (funext fun file => if_neg ?_)
      · by_cases hi : i = idx
        · rw [hi, Function.update_self]
          exact if_pos ⟨hfree, hused⟩
        · rw [Function.update_of_ne hi]
          refine if_neg fun hnew => ?_
          rw [hkeep i hi, hnew.1] at hnew
          cases hnew.2
      · rintro ⟨i, -, hused', hfree', -⟩
        by_cases hi : i = idx
        · rw [hi, hfree] at hused'
          cases hused'
        · rw [hkeep i hi, hused'] at hfree'
          cases hfree'
  | @loses x hused hfree hkeep =>
      refine .loses hused hfree hkeep (funext fun i => if_neg fun hnew => ?_)
        (funext fun file => ?_)
      · by_cases hi : i = x
        · rw [hi, hused] at hnew
          cases hnew.1
        · rw [hkeep i hi, hnew.1] at hnew
          cases hnew.2
      · by_cases hfile : file = h.made x
        · rw [hfile, Function.update_self]
          exact if_pos ⟨x, hlt x hused, hused, hfree, rfl⟩
        · rw [Function.update_of_ne hfile]
          refine if_neg ?_
          rintro ⟨i, -, hused', hfree', hmade⟩
          by_cases hi : i = x
          · exact hfile (by rw [← hmade, hi])
          · rw [hkeep i hi, hused'] at hfree'
            cases hfree'

/-- The history fits after the call too. -/
theorem HistoryOk.next {t t' : RamfsTable} {h : History} (hok : HistoryOk t h)
    (hchange : HistoryChange t t' h) (opened : Nat → Nat) :
    HistoryOk t' {
      clock := h.clock + 1
      made := madeNext h t t'
      gone := goneNext h t t'
      opened } := by
  have hgone : ∀ file r, h.gone file = some r → file < h.clock + 1 ∧ r < h.clock + 1 := by
    intro file r hr
    have hlt := hok.gone_lt file r hr
    omega
  cases hchange with
  | same hkeep hmade hgone' =>
      rw [hmade, hgone']
      refine ⟨fun i hi => ?_, fun i j hi hj => ?_, fun i hi => ?_, hgone⟩
      · rw [hkeep] at hi
        exact Nat.lt_succ_of_lt (hok.made_lt i hi)
      · rw [hkeep] at hi hj
        exact hok.made_inj i j hi hj
      · rw [hkeep] at hi
        exact hok.not_gone i hi
  | @gains idx hfree hused hkeep hmade hgone' =>
      rw [hmade, hgone']
      refine ⟨fun i hi => ?_, fun i j hi hj hij => ?_, fun i hi => ?_, hgone⟩
      · by_cases hii : i = idx
        · simp only [hii, Function.update_self]
          exact Nat.lt_succ_self _
        · rw [hkeep i hii] at hi
          simp only [Function.update_of_ne hii]
          exact Nat.lt_succ_of_lt (hok.made_lt i hi)
      · by_cases hii : i = idx <;> by_cases hji : j = idx
        · rw [hii, hji]
        · rw [hkeep j hji] at hj
          have hlt := hok.made_lt j hj
          simp only [hii, Function.update_self, Function.update_of_ne hji] at hij
          omega
        · rw [hkeep i hii] at hi
          have hlt := hok.made_lt i hi
          simp only [hji, Function.update_self, Function.update_of_ne hii] at hij
          omega
        · rw [hkeep i hii] at hi
          rw [hkeep j hji] at hj
          simp only [Function.update_of_ne hii, Function.update_of_ne hji] at hij
          exact hok.made_inj i j hi hj hij
      · by_cases hii : i = idx
        · -- no file of that stamp is gone yet
          simp only [hii, Function.update_self]
          cases hr : h.gone h.clock with
          | none => rfl
          | some r => exact absurd (hok.gone_lt _ r hr).1 (Nat.lt_irrefl _)
        · rw [hkeep i hii] at hi
          simp only [Function.update_of_ne hii]
          exact hok.not_gone i hi
  | @loses x hused hfree hkeep hmade hgone' =>
      rw [hmade, hgone']
      have hne : ∀ i, (t' i).used = true → i ≠ x ∧ (t i).used = true := by
        intro i hi
        have hix : i ≠ x := by
          rintro rfl
          rw [hfree] at hi
          cases hi
        exact ⟨hix, by rw [← hkeep i hix]; exact hi⟩
      refine ⟨fun i hi => ?_, fun i j hi hj => ?_, fun i hi => ?_, fun file r hr => ?_⟩
      · exact Nat.lt_succ_of_lt (hok.made_lt i (hne i hi).2)
      · exact hok.made_inj i j (hne i hi).2 (hne j hj).2
      · obtain ⟨hix, hi'⟩ := hne i hi
        simp only
        rw [Function.update_of_ne fun hmade => hix (hok.made_inj i x hi' hused hmade)]
        exact hok.not_gone i hi'
      · by_cases hfile : file = h.made x
        · simp only [hfile, Function.update_self, Option.some.injEq] at hr
          have hlt := hok.made_lt x hused
          simp only
          omega
        · simp only [Function.update_of_ne hfile] at hr
          exact hgone file r hr

/-- A descriptor that the call did not open has its file or a later one. -/
theorem FileOrLater.next {s s' : Traced} {fd : Int} {node : Nat} (h : FileOrLater s fd node)
    (hok : HistoryOk s.table s.hist) (hchange : HistoryChange s.table s'.table s.hist)
    (hmade' : s'.hist.made = madeNext s.hist s.table s'.table)
    (hgone' : s'.hist.gone = goneNext s.hist s.table s'.table)
    (hopened : s'.hist.opened fd.toNat = s.hist.opened fd.toNat) : FileOrLater s' fd node := by
  unfold FileOrLater Later at h ⊢
  rw [hopened]
  cases hchange with
  | same hkeep hmade hgone =>
      rw [hmade', hgone', hmade, hgone, hkeep]
      exact h
  | @gains idx hfree hused hkeep hmade hgone =>
      rw [hmade', hgone', hmade, hgone]
      by_cases hi : node = idx
      · rcases h with ⟨hnode, -, -⟩ | ⟨⟨r, hr⟩, -⟩
        · rw [hi, hfree] at hnode
          cases hnode
        · rw [hi, Function.update_self]
          exact Or.inr ⟨⟨r, hr⟩, fun _ => ⟨hused, r, hr, (hok.gone_lt _ r hr).2⟩⟩
      · rw [hkeep node hi, Function.update_of_ne hi]
        exact h
  | @loses x hused hfree hkeep hmade hgone =>
      rw [hmade', hgone', hmade, hgone]
      rcases h with ⟨hnode, hfile, hnot⟩ | ⟨⟨r, hr⟩, hlater⟩
      · by_cases hi : node = x
        · -- its own file is removed
          subst hi
          rw [← hfile, Function.update_self, hfree]
          exact Or.inr ⟨⟨_, rfl⟩, fun hused' => by cases hused'⟩
        · rw [hkeep node hi, ← hfile,
            Function.update_of_ne fun hsame => hi (hok.made_inj node x hnode hused hsame)]
          exact Or.inl ⟨hnode, rfl, by rw [hfile]; exact hnot⟩
      · have hne : s.hist.opened fd.toNat ≠ s.hist.made x := by
          intro hsame
          rw [hsame, hok.not_gone x hused] at hr
          cases hr
        rw [Function.update_of_ne hne]
        refine Or.inr ⟨⟨r, hr⟩, fun hused' => ?_⟩
        by_cases hi : node = x
        · rw [hi, hfree] at hused'
          cases hused'
        · obtain ⟨-, hlt⟩ := hlater (by rw [← hkeep node hi]; exact hused')
          exact ⟨hused', hlt⟩

section Runs

variable {ms : List (List UInt8)} {s s' : Traced} {kids : Nat → List Nat} {op : SharedOp}

/-- A used descriptor after a call was used before on the same node, or is the
one that the call opened. -/
theorem FdsChange.used_cases {v v' : RamfsVfs} {t' : RamfsTable} {ret : Int}
    (hchange : FdsChange v t' op ret v'.fds) {fd : Int} {f : RamfsFd}
    (hused : usedFd v' fd = some f) :
    ((∃ g, usedFd v fd = some g ∧ g.node = f.node) ∧
      ∀ p flags, op = .vfs (.open p flags) → fd ≠ ret) ∨
    ((∃ p flags, op = .vfs (.open p flags)) ∧ fd = ret ∧ (t' f.node).used = true) := by
  have hset : ∀ {j : Nat} {slot : Option RamfsFd}, v'.fds = v.fds.set j slot →
      (fd = j ∧ slot = some f) ∨ (fd ≠ j ∧ usedFd v fd = some f) := by
    intro j slot hfds
    unfold usedFd at hused ⊢
    by_cases hrange : fd < 0 ∨ fd ≥ vfsMaxFd
    · rw [if_pos hrange] at hused
      cases hused
    · rw [if_neg hrange, hfds] at hused
      rw [if_neg hrange]
      by_cases hj : j = fd.toNat
      · refine Or.inl ⟨by omega, ?_⟩
        subst hj
        rw [List.getElem?_set_self'] at hused
        cases hold : v.fds[fd.toNat]? with
        | none =>
            rw [hold] at hused
            cases hused
        | some old =>
            rw [hold] at hused
            exact hused
      · rw [List.getElem?_set_ne hj] at hused
        exact Or.inr ⟨by omega, hused⟩
  generalize hfds : v'.fds = fds at hchange
  cases hchange with
  | kept hopen =>
      have hused' : usedFd v fd = some f := by
        unfold usedFd at hused ⊢
        rw [hfds] at hused
        exact hused
      refine Or.inl ⟨⟨f, hused', rfl⟩, fun p flags heq hfd => ?_⟩
      have hneg := hopen p flags heq
      unfold usedFd at hused'
      rw [if_pos (Or.inl (by omega))] at hused'
      cases hused'
  | @moved _ _ fd' g pos hg hopen =>
      refine Or.inl ⟨?_, fun p flags heq => absurd heq (hopen p flags)⟩
      rcases hset hfds with ⟨hj, hslot⟩ | ⟨-, hold⟩
      · have hrange : ¬ (fd' < 0 ∨ fd' ≥ vfsMaxFd) := fun hrange => by
          unfold usedFd at hg
          rw [if_pos hrange] at hg
          cases hg
        rw [show fd = fd' by omega]
        exact ⟨g, hg, by rw [← Option.some.inj hslot]⟩
      · exact ⟨f, hold, rfl⟩
  | closed =>
      refine Or.inl ⟨?_, fun p flags heq => by cases heq⟩
      rcases hset hfds with ⟨-, hslot⟩ | ⟨-, hold⟩
      · cases hslot
      · exact ⟨f, hold, rfl⟩
  | @opened p flags i node hnode hdir =>
      rcases hset hfds with ⟨rfl, hslot⟩ | ⟨hne, hold⟩
      · refine Or.inr ⟨⟨p, flags, rfl⟩, rfl, ?_⟩
        rw [← Option.some.inj hslot]
        exact hnode
      · exact Or.inl ⟨⟨f, hold, rfl⟩, fun _ _ _ => hne⟩

/-- A call keeps the history fitting. -/
theorem TracedOk.next (h : TracedOk ms s kids) (hnext : tracedNext s op = some s') :
    ∃ kids', TracedOk ms s' kids' := by
  obtain ⟨⟨v', t'⟩, hshared, hs'⟩ := Option.map_eq_some_iff.mp hnext
  obtain ⟨w, t'', hist⟩ := s'
  simp only [Traced.mk.injEq] at hs'
  obtain ⟨rfl, rfl, hhist⟩ := hs'
  obtain ⟨⟨kids', htable⟩, hfds, -⟩ := h.shared.change hshared
  have hshared' := h.shared.next hshared htable
  have hchange := (htable.usedChange h.shared.nodes).history s.hist h.shared.nodes.used_lt
  have hok : HistoryOk t' hist := by
    rw [← hhist]
    exact h.hist.next hchange _
  have hmade : hist.made = madeNext s.hist s.table t' := by rw [← hhist]
  have hgone : hist.gone = goneNext s.hist s.table t' := by rw [← hhist]
  have hopened : hist.opened = openedNext s.hist hist.made v'
      (sharedRet (s.vfs, s.table) op) op := by rw [← hhist]
  refine ⟨kids', hshared', htable.size_le h.size_le, hok, fun fd f hused => ?_⟩
  simp only at hused
  generalize sharedRet (s.vfs, s.table) op = ret at hopened hfds
  have hpos : ∀ {fd : Int} {f : RamfsFd}, usedFd v' fd = some f → 0 ≤ fd := by
    intro fd f hfd
    unfold usedFd at hfd
    by_contra hneg
    rw [if_pos (Or.inl (by omega))] at hfd
    cases hfd
  rcases hfds.used_cases hused with ⟨⟨g, hg, hnode⟩, hne⟩ | ⟨⟨p, flags, rfl⟩, rfl, hnode⟩
  · rw [← hnode]
    refine (h.fds fd g hg).next h.hist hchange hmade hgone ?_
    rw [hopened]
    unfold openedNext
    split
    · rename_i p flags
      cases hret : usedFd v' ret with
      | none => rfl
      | some f' =>
          have hfd := hne p flags rfl
          have hpos' := hpos hret
          have hposFd := hpos hused
          exact Function.update_of_ne (by omega) ..
    · rfl
  · have hfile : hist.opened fd.toNat = hist.made f.node := by
      rw [hopened]
      simp only [openedNext, hused, Function.update_self]
    refine Or.inl ⟨hnode, hfile.symm, ?_⟩
    simp only
    rw [hfile]
    exact hok.not_gone f.node hnode

theorem TracedOk.iff_run (h : TracedOk ms s kids) (ops : List SharedOp) :
    AllKeepLater ops s ↔ AllStaleSafe ops s := by
  have hkeep : AllKeepLater ops s ↔ AllCalls tracedNext KeepsLater ops s :=
    allCalls_unique (fun _ => trivial) (fun _ _ _ => Iff.rfl) ops s
  have hsafe : AllStaleSafe ops s ↔ AllCalls tracedNext StaleSafe ops s :=
    allCalls_unique (fun _ => trivial) (fun _ _ _ => Iff.rfl) ops s
  rw [hkeep, hsafe]
  refine allCalls_congr (fun s => ∃ kids, TracedOk ms s kids) ?_ ?_ ⟨kids, h⟩
  · rintro s op s' ⟨kids, h⟩ hnext
    exact h.next hnext
  · rintro s op ⟨kids, h⟩
    exact keepsLater_iff h.shared h.size_le op

theorem TracedOk.run (h : TracedOk ms s kids) {ops : List SharedOp}
    (hrun : ops.foldlM tracedNext s = some s') : ∃ kids', TracedOk ms s' kids' := by
  refine run_invariant (fun s => ∃ kids, TracedOk ms s kids) ?_ ⟨kids, h⟩ hrun
  rintro s op s' ⟨kids, h⟩ hnext
  exact h.next hnext

theorem tracedStart_ok {mp : CString} (hcanon : CanonicalPath mp.bytes)
    (hroot : mp.bytes ≠ [slash]) :
    TracedOk (components mp.bytes) (tracedStart mp) fun _ => [] := by
  have hused : ∀ i, (ramfsInit i).used = true → i = 0 := by
    intro i hi
    by_contra hne
    rw [ramfsInit, Function.update_of_ne hne] at hi
    exact absurd hi (by decide)
  refine ⟨ramfsMounted_sharedOk hcanon hroot, fun i hi => ?_, ⟨fun i _ => Nat.one_pos,
    fun i j hi hj _ => ?_, fun i _ => rfl, fun file r hr => by cases hr⟩, fun fd f hf => ?_⟩
  · obtain rfl := hused i hi
    exact (by decide : (ramfsInit 0).size ≤ ramfsMaxContent)
  · rw [hused i hi, hused j hj]
  · obtain ⟨-, -, hfds⟩ := ramfsMounted_only hcanon hroot
    have hmem := usedFd_mem hf
    simp only [tracedStart, hfds] at hmem
    exact absurd (List.eq_of_mem_replicate hmem) (by simp)

end Runs

/-- With RAMFS as only mount, at a canonical path other than `/`, a run never
gives a descriptor a byte of a file made after its own was removed, and never
changes one through it, exactly where every call is safe. Each descriptor's
node holds its file until that is removed, and only later files after. -/
theorem stale_descriptors_iff {mp : CString} (hcanon : CanonicalPath mp.bytes)
    (hroot : mp.bytes ≠ [slash]) (ops : List SharedOp) :
    (AllKeepLater ops (tracedStart mp) ↔ AllStaleSafe ops (tracedStart mp)) ∧
    ∀ s, ops.foldlM tracedNext (tracedStart mp) = some s →
      ∀ fd f, usedFd s.vfs fd = some f → FileOrLater s fd f.node := by
  have hstart := tracedStart_ok hcanon hroot
  refine ⟨hstart.iff_run ops, fun s hrun => ?_⟩
  obtain ⟨kids, hok⟩ := hstart.run hrun
  exact hok.fds

/-- `/r/f` is opened and removed before another file is written. -/
def reuseOps : List SharedOp :=
  [.vfs (.open fileF (vfsOCreate + vfsORdonly)), .legacy (.remove nameF),
    .legacy (.write ⟨ascii "key", by decide⟩ (some ⟨ascii "secret", by decide⟩) false),
    .vfs (.read 0 6)]

theorem stale_descriptors_reuse :
    AllKeepLater reuseOps (tracedStart mountR) ↔ AllStaleSafe reuseOps (tracedStart mountR) :=
  (stale_descriptors_iff mountR_canonical (by decide) reuseOps).1

/-- The descriptor of the removed file reads the file written after. -/
theorem vfsRead_reaches_later : ¬ AllKeepLater reuseOps (tracedStart mountR) := by
  intro hall
  have hread := (((hall.2 _ rfl).2 _ rfl).2 _ rfl).1 _ rfl ⟨by decide +kernel, 2, ?_, ?_⟩
  · exact absurd hread (by decide +kernel)
  · decide +kernel
  · decide +kernel

end RoninOS.Fs
