/-
RoninOS.Fs.RamfsLeaks — which runs of RAMFS calls lose nodes.

`NoLeak` says that every used node can be reached from the root, and with it
that the free nodes are all the others. Creating a node, touching, writing and
removing a file or an empty directory keep that; `ramfs_remove` of a directory
that lists nodes clears only the directory, and what it listed stays used with
no way to it.
-/
import RoninOS.Fs.RamfsRuns

namespace RoninOS.Fs

open RoninOS.Lib

/-- The nodes `node_alloc` can still take. -/
def freeNodes (t : RamfsTable) : Nat :=
  ((Finset.range ramfsMaxNodes).filter fun i => (t i).used = false).card

/-- Every used node is reachable, so the free nodes are 96 less the reachable ones. -/
def NoLeak (t : RamfsTable) : Prop :=
  (∀ i, (t i).used = true → ReachableNode t i) ∧
  freeNodes t = ramfsMaxNodes - {i | ReachableNode t i}.ncard

/-- A call does not remove a directory of the root that lists nodes. -/
def LeakSafe (t : RamfsTable) : RamfsOp → Prop
  | .remove name => ∀ x, Lists t 0 x → (t x).nameStr = name.bytes → IsDir t x →
      ∀ c, ¬ Lists t x c
  | _ => True

section Leaks

variable {t t' : RamfsTable} {kids kids' : Nat → List Nat}

/-- A node is reachable by a path in the lists. -/
theorem NodesOk.reachable_iff (h : NodesOk t kids) {i : Nat} :
    ReachableNode t i ↔ Relation.ReflTransGen (fun d c => c ∈ kids d) 0 i := by
  constructor
  · intro hi
    induction hi with
    | root => exact .refl
    | child _ hd hc ih => exact ih.tail ((h.lists_iff hd).mp hc)
  · intro hi
    induction hi with
    | refl => exact .root
    | @tail d c _ hc ih =>
        have hd := h.isDir_of_mem hc
        exact .child ih hd ((h.lists_iff hd).mpr hc)

theorem NodesOk.reachable_used (h : NodesOk t kids) {i : Nat} (hi : ReachableNode t i) :
    (t i).used = true := by
  cases hi with
  | root => exact h.root.1
  | child _ hd hc => exact (h.child _ _ ((h.lists_iff hd).mp hc)).1

/-- The count follows from reachability. -/
theorem NodesOk.noLeak_iff (h : NodesOk t kids) :
    NoLeak t ↔ ∀ i, (t i).used = true → ReachableNode t i := by
  refine ⟨fun hleak => hleak.1, fun hall => ⟨hall, ?_⟩⟩
  have hset : {i | ReachableNode t i}
      = ((Finset.range ramfsMaxNodes).filter fun i => (t i).used = true : Finset Nat) := by
    ext i
    simp only [Set.mem_ofPred_eq, Finset.coe_filter, Finset.mem_range]
    exact ⟨fun hi => ⟨h.used_lt i (h.reachable_used hi), h.reachable_used hi⟩, fun hi => hall i hi.2⟩
  have hsplit := Finset.card_filter_add_card_filter_not (s := Finset.range ramfsMaxNodes)
    fun i => (t i).used = true
  simp only [Bool.not_eq_true, Finset.card_range] at hsplit
  rw [hset, Set.ncard_coe_finset, freeNodes]
  omega

/-- More lists reach more nodes. -/
theorem NodesOk.reachable_mono (h : NodesOk t kids) (h' : NodesOk t' kids')
    (hsub : ∀ d, ∀ c ∈ kids d, c ∈ kids' d) {i : Nat} (hi : ReachableNode t i) :
    ReachableNode t' i :=
  h'.reachable_iff.mpr
    (Relation.ReflTransGen.mono (fun d c hc => hsub d c hc) _ _ (h.reachable_iff.mp hi))

/-- A call that removes nothing loses nothing. -/
theorem LinkChange.keeps_reachable (hchange : LinkChange t kids t') (h : NodesOk t kids)
    (hall : ∀ i, (t i).used = true → ReachableNode t i) :
    ∀ i, (t' i).used = true → ReachableNode t' i := by
  intro i hi
  cases hchange with
  | same hsame =>
      rcases hsame i with hlinks | ⟨-, hfree⟩
      · exact h.reachable_mono (h.congr hsame) (fun _ _ hc => hc) (hall i (hlinks.used ▸ hi))
      · rw [hfree] at hi
        cases hi
  | @created dir idx hdir hfree hused hkeep hok =>
      have hsub : ∀ d, ∀ c ∈ kids d, c ∈ Function.update kids dir (idx :: kids dir) d :=
        fun d c hc => mem_linkedKids.mpr (Or.inr hc)
      by_cases hidx : i = idx
      · have hmem : idx ∈ Function.update kids dir (idx :: kids dir) dir :=
          mem_linkedKids.mpr (Or.inl ⟨rfl, rfl⟩)
        have hd := hok.isDir_of_mem hmem
        rw [hidx]
        exact .child (h.reachable_mono hok hsub (hall dir hdir.1)) hd ((hok.lists_iff hd).mpr hmem)
      · exact h.reachable_mono hok hsub (hall i (by rw [← (hkeep i hidx).1]; exact hi))

/-- Removing a node that lists nothing loses nothing else. -/
theorem NodesOk.reachable_removed (h : NodesOk t kids) {x : Nat} (hx : x ∈ kids 0)
    (h' : NodesOk t' (removeKids kids x)) (hempty : kids x = []) {i : Nat} (hix : i ≠ x)
    (hi : ReachableNode t i) : ReachableNode t' i := by
  rw [h.reachable_iff] at hi
  rw [h'.reachable_iff]
  induction hi with
  | refl => exact .refl
  | @tail d c _ hc ih =>
      have hdx : d ≠ x := by
        rintro rfl
        rw [hempty] at hc
        exact List.not_mem_nil hc
      exact (ih hdx).tail ((mem_removeKids h hx).mpr ⟨hc, hix, hdx⟩)

/-- What a removed directory listed is out of reach. -/
theorem NodesOk.not_reachable_removed (h : NodesOk t kids) {x c : Nat} (hx : x ∈ kids 0)
    (h' : NodesOk t' (removeKids kids x)) (hc : c ∈ kids x) : ¬ ReachableNode t' c := by
  rw [h'.reachable_iff]
  intro hreach
  cases hreach with
  | refl => exact h.ne_root hc rfl
  | tail _ hedge =>
      obtain ⟨hmem, -, hdx⟩ := (mem_removeKids h hx).mp hedge
      exact hdx (h.dir_unique hmem hc)

/-- `ramfs_remove` loses no node exactly when it is safe. -/
theorem ramfsRemove_keeps_iff (h : NodesOk t kids) {name : CString}
    (hall : ∀ i, (t i).used = true → ReachableNode t i) :
    (∀ i, ((ramfsRemove t name.bytes).2 i).used = true →
      ReachableNode (ramfsRemove t name.bytes).2 i) ↔ LeakSafe t (.remove name) := by
  have houtcome := h.remove_outcome name.noNul
  generalize ramfsRemove t name.bytes = r at houtcome
  cases houtcome with
  | absent habsent =>
      refine ⟨fun _ x hx hname => absurd hname ?_, fun _ => hall⟩
      exact habsent x ((h.lists_iff h.root).mp hx)
  | @removed x t' hx hname hzero hkeep hok =>
      have hxfree : (t' x).used = false := by rw [hzero]; rfl
      constructor
      · intro hall' y hy hyname hydir c hc
        obtain rfl := h.names 0 y ((h.lists_iff h.root).mp hy) x hx (hyname.trans hname.symm)
        have hcmem := (h.lists_iff hydir).mp hc
        have hcy : c ≠ y := by
          rintro rfl
          exact h.ne_root hx (h.dir_unique hcmem hx ▸ rfl)
        refine h.not_reachable_removed hx hok hcmem (hall' c ?_)
        simp only
        rw [hkeep c hcy]
        exact (h.child _ c hcmem).1
      · intro hsafe i hi
        have hix : i ≠ x := by
          rintro rfl
          rw [hxfree] at hi
          cases hi
        have hempty : kids x = [] := by
          by_cases hd : IsDir t x
          · refine List.eq_nil_iff_forall_not_mem.mpr fun c hc => ?_
            exact hsafe x ((h.lists_iff h.root).mpr hx) hname hd c ((h.lists_iff hd).mpr hc)
          · exact h.leaf x hd
        refine h.reachable_removed hx hok hempty hix (hall i ?_)
        simp only at hi
        rw [hkeep i hix] at hi
        exact hi

/-- A call keeps every used node reachable exactly when it is safe. -/
theorem RamfsStep.keeps_reachable_iff {op : RamfsOp} (hstep : RamfsStep t op t')
    (h : NodesOk t kids) (hall : ∀ i, (t i).used = true → ReachableNode t i) :
    (∀ i, (t' i).used = true → ReachableNode t' i) ↔ LeakSafe t op := by
  cases hstep with
  | create name isDir _ hdir =>
      exact iff_of_true ((fsCreate_change h hdir name.noNul isDir).keeps_reachable h hall) trivial
  | touch name =>
      exact iff_of_true ((ramfsTouch_change h name.noNul).keeps_reachable h hall) trivial
  | @write name _ _ _ _ hwrite =>
      exact iff_of_true ((ramfsWrite_change h name.noNul hwrite).keeps_reachable h hall) trivial
  | remove name => exact ramfsRemove_keeps_iff h hall

end Leaks

/-- The tables of the runs from `ramfs_init` whose calls are all safe. -/
inductive CleanReach : RamfsTable → Prop
  | init : CleanReach ramfsInit
  | call {t t' : RamfsTable} {op : RamfsOp} : CleanReach t → RamfsStep t op t' → LeakSafe t op →
      CleanReach t'

theorem CleanReach.keeps {t : RamfsTable} (hreach : CleanReach t) :
    ∃ kids, NodesOk t kids ∧ ∀ i, (t i).used = true → ReachableNode t i := by
  induction hreach with
  | init =>
      refine ⟨_, ramfsInit_ok, fun i hi => ?_⟩
      by_cases h0 : i = 0
      · rw [h0]
        exact .root
      · rw [ramfsInit, Function.update_of_ne h0] at hi
        exact absurd hi (by decide)
  | call _ hstep hsafe ih =>
      obtain ⟨kids, hok, hall⟩ := ih
      obtain ⟨kids', hok'⟩ := hstep.nodesOk hok
      exact ⟨kids', hok', (hstep.keeps_reachable_iff hok hall).mpr hsafe⟩

/-- A run of safe calls leaks no node, and its next call leaks one exactly when
it is not safe. -/
theorem no_leak_iff {t : RamfsTable} (hreach : CleanReach t) :
    NoLeak t ∧ ∀ {op t'}, RamfsStep t op t' → (NoLeak t' ↔ LeakSafe t op) := by
  obtain ⟨kids, hok, hall⟩ := hreach.keeps
  refine ⟨hok.noLeak_iff.mpr hall, fun {op t'} hstep => ?_⟩
  obtain ⟨kids', hok'⟩ := hstep.nodesOk hok
  rw [hok'.noLeak_iff]
  exact hstep.keeps_reachable_iff hok hall

/-- An empty directory `d` and a file `f` in the root. -/
def dirAndFile : RamfsTable :=
  (ramfsTouch (fsCreate ramfsInit 0 (ascii "d") true).2 (ascii "f")).2

theorem dirAndFile_reach : CleanReach dirAndFile :=
  .call (.call .init (.create ⟨ascii "d", by decide⟩ true .root ramfsInit_ok.root) trivial)
    (.touch ⟨ascii "f", by decide⟩) trivial

theorem dirAndFile_remove_safe : LeakSafe dirAndFile (.remove ⟨ascii "f", by decide⟩) := by
  intro x hx hname hdir
  obtain ⟨l, hl, hmem⟩ := hx
  have hchain : Chain (fun i => (dirAndFile i).nextSibling) (dirAndFile 0).firstChild [2, 1] := by
    rw [show (dirAndFile 0).firstChild = ((2 : Nat) : Int) by decide]
    refine .cons ?_
    rw [show (dirAndFile 2).nextSibling = ((1 : Nat) : Int) by decide]
    exact .cons .nil
  rw [← hchain.unique hl] at hmem
  simp only [List.mem_cons, List.not_mem_nil, or_false] at hmem
  rcases hmem with rfl | rfl
  · exact absurd hdir.2 (by decide)
  · exact absurd hname (by decide)

/-- Removing the file and then the directory, which lists nothing. -/
theorem no_leak_removes :
    NoLeak (ramfsRemove (ramfsRemove dirAndFile (ascii "f")).2 (ascii "d")).2 ∧
      ((ramfsRemove (ramfsRemove dirAndFile (ascii "f")).2 (ascii "d")).2 1).used = false ∧
      ((ramfsRemove (ramfsRemove dirAndFile (ascii "f")).2 (ascii "d")).2 2).used = false := by
  have hreach : CleanReach (ramfsRemove dirAndFile (ascii "f")).2 :=
    .call dirAndFile_reach (.remove ⟨ascii "f", by decide⟩) dirAndFile_remove_safe
  refine ⟨((no_leak_iff hreach).2 (.remove ⟨ascii "d", by decide⟩)).mpr ?_, by decide, by decide⟩
  intro x hx _ hdir c hc
  obtain ⟨l, hl, hmem⟩ := hx
  have hchain : Chain (fun i => ((ramfsRemove dirAndFile (ascii "f")).2 i).nextSibling)
      ((ramfsRemove dirAndFile (ascii "f")).2 0).firstChild [1] := by
    rw [show ((ramfsRemove dirAndFile (ascii "f")).2 0).firstChild = ((1 : Nat) : Int) by decide]
    exact .cons .nil
  rw [← hchain.unique hl, List.mem_singleton] at hmem
  subst hmem
  -- the directory lists nothing
  obtain ⟨l, hl, hmem⟩ := hc
  rw [show ((ramfsRemove dirAndFile (ascii "f")).2 1).firstChild = -1 by decide] at hl
  rw [← Chain.nil.unique hl] at hmem
  exact absurd hmem List.not_mem_nil

/-- `ramfs_remove("d")` of a directory `d` that holds a file. -/
theorem ramfsRemove_leaks :
    RamfsReach (ramfsRemove nestedTable (ascii "d")).2 ∧
    ((ramfsRemove nestedTable (ascii "d")).2 2).used = true ∧
    ¬ ReachableNode (ramfsRemove nestedTable (ascii "d")).2 2 := by
  refine ⟨.call nestedTable_reach (.remove ⟨ascii "d", by decide⟩), by decide, fun h => ?_⟩
  have hfirst : ((ramfsRemove nestedTable (ascii "d")).2 0).firstChild = -1 := by decide
  -- the root lists nothing any more
  have honly : ∀ i, ReachableNode (ramfsRemove nestedTable (ascii "d")).2 i → i = 0 := by
    intro i hi
    induction hi with
    | root => rfl
    | child _ _ hc ih =>
        subst ih
        obtain ⟨l, hl, hmem⟩ := hc
        rw [hfirst] at hl
        rw [← Chain.nil.unique hl] at hmem
        exact absurd hmem List.not_mem_nil
  exact absurd (honly 2 h) (by decide)

end RoninOS.Fs
