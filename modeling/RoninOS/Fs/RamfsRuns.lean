/-
RoninOS.Fs.RamfsRuns — the directory tree in every run of RAMFS calls.

A run interleaves `fs_create` on reachable directories with the calls on names
of the root. A call that removes nothing makes one node at most (`MakesNode`).
Each call keeps a good table good (`RamfsStep.nodesOk`), which
gives the shape of every reachable directory (`ramfs_structure`). What is
reachable is a tree that creation grows and removal prunes; removing a
directory that still lists nodes cuts them off for good, and no other call
loses a node (`no_leak_iff`).
-/
import RoninOS.Fs.RamfsTheorems
import Mathlib.Data.Set.Card
import Mathlib.Logic.Relation

namespace RoninOS.Fs

open RoninOS.Lib

/-! ## Runs -/

/-- A call with a name of its own. -/
inductive RamfsOp
  | create (dir : Nat) (name : CString) (isDir : Bool)
  | touch (name : CString)
  | write (name : CString) (text : Option CString) (append : Bool)
  | remove (name : CString)

/-- The list of directory `d` holds `c`. -/
def Lists (t : RamfsTable) (d c : Nat) : Prop :=
  ∃ l, Chain (fun i => (t i).nextSibling) (t d).firstChild l ∧ c ∈ l

/-- The nodes that a path from the root leads to. -/
inductive ReachableNode (t : RamfsTable) : Nat → Prop
  | root : ReachableNode t 0
  | child {d c : Nat} : ReachableNode t d → IsDir t d → Lists t d c → ReachableNode t c

/-- One call and the table after it; `fs_create` is called on a reachable directory. -/
inductive RamfsStep (t : RamfsTable) : RamfsOp → RamfsTable → Prop
  | create {dir : Nat} (name : CString) (isDir : Bool) : ReachableNode t dir → IsDir t dir →
      RamfsStep t (.create dir name isDir) (fsCreate t dir name.bytes isDir).2
  | touch (name : CString) : RamfsStep t (.touch name) (ramfsTouch t name.bytes).2
  | write {name : CString} {text : Option CString} {append : Bool} {ret : Int} {t' : RamfsTable} :
      ramfsWrite t name.bytes (text.map (·.bytes)) append = some (ret, t') →
      RamfsStep t (.write name text append) t'
  | remove (name : CString) : RamfsStep t (.remove name) (ramfsRemove t name.bytes).2

/-- The tables of the runs from `ramfs_init`. -/
inductive RamfsReach : RamfsTable → Prop
  | init : RamfsReach ramfsInit
  | call {t t' : RamfsTable} {op : RamfsOp} : RamfsReach t → RamfsStep t op t' → RamfsReach t'

/-! ## Making a node -/

/-- No used node changes, or one is new in front of a list. -/
inductive MakesNode (t : RamfsTable) (kids : Nat → List Nat) (mayName : List UInt8 → Bool → Prop) :
    RamfsTable → (Nat → List Nat) → Prop
  | unchanged {t' : RamfsTable} : Unchanged t t' → MakesNode t kids mayName t' kids
  | created {dir idx : Nat} {copied : Buffer ramfsMaxName} {isDir : Bool} : IsDir t dir →
      (∀ c ∈ kids dir, (t c).nameStr ≠ copied.str) → RamfsName copied.str → idx < ramfsMaxNodes →
      (t idx).used = false → 0 ∈ copied.bytes → mayName copied.str isDir →
      MakesNode t kids mayName (linkNew t idx copied isDir dir)
        (Function.update kids dir (idx :: kids dir))

section Steps

variable {t t' : RamfsTable} {kids kids' : Nat → List Nat} {mayName : List UInt8 → Bool → Prop}

theorem MakesNode.nodesOk (hmakes : MakesNode t kids mayName t' kids') (h : NodesOk t kids) :
    NodesOk t' kids' := by
  cases hmakes with
  | unchanged hsame => exact h.unchanged hsame
  | created hdir hall hgood hidx hfree hmem _ =>
      exact h.created hdir hidx hfree hgood.1 hmem hall

/-- A used node was there and keeps all but the head of its list, or is new. -/
theorem MakesNode.node_cases (hmakes : MakesNode t kids mayName t' kids') {i : Nat}
    (hi : (t' i).used = true) :
    ((t i).used = true ∧ t' i = { t i with firstChild := (t' i).firstChild }) ∨
    ((t i).used = false ∧ ∃ (name : Buffer ramfsMaxName) (isDir : Bool) (dir : Nat) (next : Int),
      mayName name.str isDir ∧ t' i = newNode name isDir dir next) := by
  cases hmakes with
  | unchanged hsame =>
      rcases hsame i with heq | ⟨-, hfree⟩
      · rw [heq] at hi ⊢
        exact Or.inl ⟨hi, rfl⟩
      · rw [hfree] at hi
        cases hi
  | @created dir idx copied isDir hdir _ _ _ hfree _ hname =>
      have hne : idx ≠ dir := (ne_of_free hdir.1 hfree).symm
      by_cases hii : i = idx
      · rw [hii, linkNew_self hne]
        exact Or.inr ⟨hfree, copied, isDir, dir, _, hname, rfl⟩
      · rcases @linkNew_keeps t _ dir copied isDir _ hii with
          heq | heq <;> rw [heq] at hi ⊢ <;> exact Or.inl ⟨hi, rfl⟩

/-- Used nodes keep to the file limit. -/
theorem MakesNode.size_le (hmakes : MakesNode t kids mayName t' kids')
    (h : ∀ i, (t i).used = true → (t i).size ≤ ramfsMaxContent) :
    ∀ i, (t' i).used = true → (t' i).size ≤ ramfsMaxContent := by
  intro i hi
  rcases hmakes.node_cases hi with ⟨hused, heq⟩ | ⟨-, _, _, _, _, -, heq⟩
  · rw [heq]
    exact h i hused
  · rw [heq]
    exact Nat.zero_le _

/-- A child after a node was made was a child before, or is new. -/
theorem MakesNode.mem_kids (hmakes : MakesNode t kids mayName t' kids') {d c : Nat} (hc : c ∈ kids' d)
    (hused : (t c).used = true) : c ∈ kids d := by
  cases hmakes with
  | unchanged _ => exact hc
  | created _ _ _ _ hfree _ _ =>
      exact (mem_linkedKids.mp hc).resolve_left fun hnew => ne_of_free hused hfree hnew.2

/-- Nodes with the same links as before are as good. -/
theorem NodesOk.update (h : NodesOk t kids) {i : Nat} {node : RamfsNode}
    (hlinks : SameLinks node (t i)) : NodesOk (Function.update t i node) kids := by
  refine h.congr fun j => Or.inl ?_
  by_cases hji : j = i
  · rw [hji, Function.update_self]
    exact hlinks
  · rw [Function.update_of_ne hji]
    exact .refl _

/-- `fs_create` in a used node. -/
theorem NodesOk.fsCreate_makes (h : NodesOk t kids) {d : Nat} (hd : (t d).used = true)
    {name : List UInt8} (hnul : 0 ∉ name) {isDir : Bool} (hname : mayName name isDir) :
    ∃ kids', MakesNode t kids mayName (fsCreate t d name isDir).2 kids' := by
  unfold fsCreate
  by_cases hdir : (t d).isDir = true
  · have houtcome := h.create_outcome ⟨hd, hdir⟩ hnul isDir
    rw [if_neg (h.notDir_iff ⟨hd, hdir⟩)]
    generalize nodeCreateChild t d name isDir = r at houtcome
    cases houtcome with
    | present _ _ => exact ⟨kids, .unchanged (.refl t)⟩
    | full _ _ => exact ⟨kids, .unchanged (.refl t)⟩
    | @badName t' idx _ _ hfree hfree' hsame =>
        exact ⟨kids, .unchanged (.of_free hfree hfree' hsame)⟩
    | created hall hgood hidx hfree hstr hmem =>
        subst hstr
        exact ⟨_, .created ⟨hd, hdir⟩ hall hgood hidx hfree hmem hname⟩
  · rw [if_pos (show notDir t d from Or.inr (by simpa using hdir))]
    exact ⟨kids, .unchanged (.refl t)⟩

/-- `ramfs_touch` makes the name present, or fails. -/
theorem NodesOk.touch_makes (h : NodesOk t kids) {name : List UInt8} (hnul : 0 ∉ name)
    (hname : mayName name false) :
    ∃ kids', MakesNode t kids mayName (ramfsTouch t name).2 kids' ∧
      ((ramfsTouch t name).1 < 0 ∨
        (ramfsTouch t name).1 = 0 ∧ ∃ c ∈ kids' 0, ((ramfsTouch t name).2 c).nameStr = name) := by
  have houtcome := h.touch_outcome hnul
  generalize ramfsTouch t name = r at houtcome
  cases houtcome with
  | @present c hc hcname => exact ⟨kids, .unchanged (.refl t), Or.inr ⟨rfl, c, hc, hcname⟩⟩
  | refused _ hret _ hsame => exact ⟨kids, .unchanged hsame, Or.inl hret⟩
  | @created idx copied hall hgood hidx hfree hstr hmem =>
      subst hstr
      refine ⟨_, .created h.root hall hgood hidx hfree hmem hname, Or.inr ⟨rfl, idx, ?_, ?_⟩⟩
      · exact mem_linkedKids.mpr (Or.inl ⟨rfl, rfl⟩)
      · exact linkNew_nameStr (ne_of_free h.root.1 hfree).symm

/-- `ramfs_write` touches the name and then puts the text into its node, or fails. -/
theorem NodesOk.write_makes (h : NodesOk t kids) {name : List UInt8} (hnul : 0 ∉ name)
    (hname : mayName name false) {text : Option (List UInt8)} {append : Bool} {ret : Int}
    (hwrite : ramfsWrite t name text append = some (ret, t')) :
    ∃ kids', MakesNode t kids mayName t' kids' ∨ ∃ t₁ c node, MakesNode t kids mayName t₁ kids' ∧
      c ∈ kids' 0 ∧ (t₁ c).nameStr = name ∧
      writeText (t₁ c) (text.getD []) (if append then (t₁ c).size else 0) = some node ∧
      t' = Function.update t₁ c node := by
  obtain ⟨kids', hmakes, hret | ⟨hret, c, hc, hcname⟩⟩ := h.touch_makes hnul hname
  · rw [ramfsWrite_refused text append hret] at hwrite
    obtain ⟨-, rfl⟩ := Prod.mk.inj (Option.some.inj hwrite)
    exact ⟨kids', Or.inl hmakes⟩
  · have hfind := (hmakes.nodesOk h).find_eq hc
    rw [hcname] at hfind
    rw [ramfsWrite_found text append (Prod.ext hret rfl) hfind] at hwrite
    obtain ⟨node, hnode, heq⟩ := Option.map_eq_some_iff.mp hwrite
    obtain ⟨-, rfl⟩ := Prod.mk.inj heq
    exact ⟨kids', Or.inr ⟨_, c, node, hmakes, hc, hcname, hnode, rfl⟩⟩

/-! ## Steps -/

/-- What a call that removes nothing does to the links of a good table. -/
inductive LinkChange (t : RamfsTable) (kids : Nat → List Nat) (t' : RamfsTable) : Prop
  | same : (∀ i, SameLinks (t' i) (t i) ∨ ((t i).used = false ∧ (t' i).used = false)) →
      LinkChange t kids t'
  /-- One node is new in front of a list. -/
  | created {dir idx : Nat} : IsDir t dir → (t idx).used = false → (t' idx).used = true →
      (∀ i, i ≠ idx → (t' i).used = (t i).used ∧ (t' i).isDir = (t i).isDir) →
      NodesOk t' (Function.update kids dir (idx :: kids dir)) → LinkChange t kids t'

theorem MakesNode.linkChange (hmakes : MakesNode t kids mayName t' kids') (h : NodesOk t kids) :
    LinkChange t kids t' := by
  have hok := hmakes.nodesOk h
  cases hmakes with
  | unchanged hsame =>
      refine .same fun i => ?_
      rcases hsame i with heq | hfree
      · rw [heq]
        exact Or.inl (.refl _)
      · exact Or.inr hfree
  | @created dir idx copied isDir hdir _ _ _ hfree _ _ =>
      have hne : idx ≠ dir := (ne_of_free hdir.1 hfree).symm
      refine .created hdir hfree (by rw [linkNew_self hne]; rfl) (fun i hi => ?_) hok
      rcases @linkNew_keeps t _ dir copied isDir _ hi with
        heq | heq <;> rw [heq] <;> exact ⟨rfl, rfl⟩

/-- `fs_create` in a directory of a good table. -/
theorem fsCreate_change (h : NodesOk t kids) {dir : Nat} (hdir : IsDir t dir)
    {name : List UInt8} (hnul : 0 ∉ name) (isDir : Bool) :
    LinkChange t kids (fsCreate t dir name isDir).2 := by
  obtain ⟨kids', hmakes⟩ : ∃ kids', MakesNode t kids (fun _ _ => True)
    (fsCreate t dir name isDir).2 kids' := h.fsCreate_makes hdir.1 hnul trivial
  exact hmakes.linkChange h

/-- `ramfs_touch` in a good table. -/
theorem ramfsTouch_change (h : NodesOk t kids) {name : List UInt8} (hnul : 0 ∉ name) :
    LinkChange t kids (ramfsTouch t name).2 := by
  obtain ⟨kids', hmakes, -⟩ := @NodesOk.touch_makes _ _ (fun _ _ => True) h _ hnul trivial
  exact hmakes.linkChange h

/-- A change of contents after a change of links. -/
theorem LinkChange.trans_links {t'' : RamfsTable} (h : LinkChange t kids t')
    (hlinks : ∀ i, SameLinks (t'' i) (t' i)) : LinkChange t kids t'' := by
  cases h with
  | same hsame =>
      refine .same fun i => ?_
      have hl := hlinks i
      rcases hsame i with hi | ⟨hi, hi'⟩
      · exact Or.inl (hl.trans hi)
      · exact Or.inr ⟨hi, hl.used.trans hi'⟩
  | @created dir idx hdir hfree hused hkeep hok =>
      refine .created hdir hfree ((hlinks idx).used.trans hused) (fun i hi => ?_)
        (hok.congr fun i => Or.inl (hlinks i))
      exact ⟨(hlinks i).used.trans (hkeep i hi).1, (hlinks i).isDir.trans (hkeep i hi).2⟩

/-- `ramfs_write` in a good table. -/
theorem ramfsWrite_change (h : NodesOk t kids) {name : List UInt8} (hnul : 0 ∉ name)
    {text : Option (List UInt8)} {append : Bool} {ret : Int}
    (hwrite : ramfsWrite t name text append = some (ret, t')) : LinkChange t kids t' := by
  obtain ⟨kids', hmakes | ⟨t₁, c, node, hmakes, -, -, hnode, rfl⟩⟩ :=
    @NodesOk.write_makes _ _ _ (fun _ _ => True) h _ hnul trivial _ _ _ hwrite
  · exact hmakes.linkChange h
  · refine (hmakes.linkChange h).trans_links fun i => ?_
    by_cases hi : i = c
    · rw [hi, Function.update_self]
      exact writeText_links hnode
    · rw [Function.update_of_ne hi]
      exact .refl _

theorem LinkChange.nodesOk (hchange : LinkChange t kids t') (h : NodesOk t kids) :
    ∃ kids', NodesOk t' kids' := by
  cases hchange with
  | same hsame => exact ⟨kids, h.congr hsame⟩
  | created _ _ _ _ hok => exact ⟨_, hok⟩

/-- A call leaves a good table. -/
theorem RamfsStep.nodesOk {op : RamfsOp} (hstep : RamfsStep t op t') (h : NodesOk t kids) :
    ∃ kids', NodesOk t' kids' := by
  cases hstep with
  | create name isDir _ hdir => exact (fsCreate_change h hdir name.noNul isDir).nodesOk h
  | touch name => exact (ramfsTouch_change h name.noNul).nodesOk h
  | @write name _ _ _ _ hwrite => exact (ramfsWrite_change h name.noNul hwrite).nodesOk h
  | remove name =>
      have houtcome := h.remove_outcome name.noNul
      generalize ramfsRemove t name.bytes = r at houtcome
      cases houtcome with
      | absent _ => exact ⟨kids, h⟩
      | removed _ _ _ _ hok => exact ⟨_, hok⟩

/-- Every table of a run is good. -/
theorem RamfsReach.nodesOk (hreach : RamfsReach t) : ∃ kids, NodesOk t kids := by
  induction hreach with
  | init => exact ⟨_, ramfsInit_ok⟩
  | call _ hstep ih =>
      obtain ⟨kids, hok⟩ := ih
      exact hstep.nodesOk hok

end Steps

/-! ## The shape of a reachable table -/

/-- Following `first_child` and `next_sibling` from directory `d` visits
distinct used nodes that name `d` as their parent, and whose names are
distinct, not empty and terminated within `name`. -/
structure GoodList (t : RamfsTable) (d : Nat) (l : List Nat) : Prop where
  chain : Chain (fun i => (t i).nextSibling) (t d).firstChild l
  nodup : l.Nodup
  child : ∀ c ∈ l, c < ramfsMaxNodes ∧ (t c).used = true ∧ (t c).parent = d
  named : ∀ c ∈ l, (t c).nameStr ≠ [] ∧ 0 ∈ (t c).name.bytes
  names : ∀ c ∈ l, ∀ c' ∈ l, (t c).nameStr = (t c').nameStr → c = c'

/-- The loops over the list of `d` end within the bound on the rounds. -/
structure LoopsEnd (t : RamfsTable) (d : Nat) : Prop where
  find : ∀ name : CString,
    (findChildLoop t name.bytes ramfsRounds (t d).firstChild).isSome = true
  readdir : ∀ index, (readdirLoop t index ramfsRounds 0 (t d).firstChild).isSome = true
  count : (countLoop t ramfsRounds 0 (t d).firstChild).isSome = true
  getEntry : ∀ index, (getEntryLoop t index ramfsRounds 0 (t d).firstChild).isSome = true

section Shape

variable {t : RamfsTable} {kids : Nat → List Nat}

theorem readdirLoop_isSome {index : Nat} : ∀ {l : List Nat} {rounds cur : Nat} {start : Int},
    Chain (fun i => (t i).nextSibling) start l → l.length < rounds →
    (readdirLoop t index rounds cur start).isSome = true
  | _, 0, _, _, _, hlen => absurd hlen (Nat.not_lt_zero _)
  | [], rounds + 1, cur, start, hchain, _ => by
      rw [hchain.start_nil, readdirLoop]
      rfl
  | i :: l, rounds + 1, cur, start, hchain, hlen => by
      obtain ⟨rfl, htail⟩ := hchain.start_cons
      rw [readdirLoop, if_neg (by omega), Int.toNat_natCast]
      split
      · rfl
      · exact readdirLoop_isSome htail (Nat.lt_of_succ_lt_succ hlen)

theorem countLoop_isSome : ∀ {l : List Nat} {rounds n : Nat} {start : Int},
    Chain (fun i => (t i).nextSibling) start l → l.length < rounds →
    (countLoop t rounds n start).isSome = true
  | _, 0, _, _, _, hlen => absurd hlen (Nat.not_lt_zero _)
  | [], rounds + 1, n, start, hchain, _ => by
      rw [hchain.start_nil, countLoop]
      rfl
  | i :: l, rounds + 1, n, start, hchain, hlen => by
      obtain ⟨rfl, htail⟩ := hchain.start_cons
      rw [countLoop, if_neg (by omega), Int.toNat_natCast]
      exact countLoop_isSome htail (Nat.lt_of_succ_lt_succ hlen)

theorem getEntryLoop_isSome {index : Nat} : ∀ {l : List Nat} {rounds curi : Nat} {start : Int},
    Chain (fun i => (t i).nextSibling) start l → l.length < rounds →
    (getEntryLoop t index rounds curi start).isSome = true
  | _, 0, _, _, _, hlen => absurd hlen (Nat.not_lt_zero _)
  | [], rounds + 1, curi, start, hchain, _ => by
      rw [hchain.start_nil, getEntryLoop]
      rfl
  | i :: l, rounds + 1, curi, start, hchain, hlen => by
      obtain ⟨rfl, htail⟩ := hchain.start_cons
      have hrest := fun curi => @getEntryLoop_isSome index _ _ curi _ htail
        (Nat.lt_of_succ_lt_succ hlen)
      rw [getEntryLoop, if_neg (by omega), Int.toNat_natCast]
      split
      · exact hrest _
      · split
        · rfl
        · exact hrest _

theorem NodesOk.loopsEnd (h : NodesOk t kids) {d : Nat} (hd : IsDir t d) : LoopsEnd t d where
  find name := by
    rcases findChildLoop_chain name.noNul (h.chain d hd) (h.length_lt d) with
      ⟨hloop, -⟩ | ⟨c, -, -, hloop⟩ <;> rw [hloop] <;> rfl
  readdir _ := readdirLoop_isSome (h.chain d hd) (h.length_lt d)
  count := countLoop_isSome (h.chain d hd) (h.length_lt d)
  getEntry _ := getEntryLoop_isSome (h.chain d hd) (h.length_lt d)

theorem NodesOk.lists_iff (h : NodesOk t kids) {d c : Nat} (hd : IsDir t d) :
    Lists t d c ↔ c ∈ kids d := by
  constructor
  · rintro ⟨l, hl, hc⟩
    rw [(h.chain d hd).unique hl]
    exact hc
  · exact fun hc => ⟨_, h.chain d hd, hc⟩

theorem NodesOk.goodList (h : NodesOk t kids) {d : Nat} (hd : IsDir t d) :
    GoodList t d (kids d) where
  chain := h.chain d hd
  nodup := h.nodup d
  child c hc := ⟨h.used_lt c (h.child d c hc).1, h.child d c hc⟩
  named := h.named d
  names := h.names d

/-- In every table of a run: each reachable directory's list ends and is good,
a node is in one list only and never below itself, and the loops end. -/
theorem ramfs_structure (hreach : RamfsReach t) :
    (∀ d, ReachableNode t d → IsDir t d → (∃ l, GoodList t d l) ∧ LoopsEnd t d) ∧
    (∀ d d' c, IsDir t d → IsDir t d' → Lists t d c → Lists t d' c → d = d') ∧
    ∀ c, ¬ Relation.TransGen (fun d c => IsDir t d ∧ Lists t d c) c c := by
  obtain ⟨kids, hok⟩ := hreach.nodesOk
  refine ⟨fun d _ hd => ⟨⟨_, hok.goodList hd⟩, hok.loopsEnd hd⟩, ?_, fun c hloop => ?_⟩
  · intro d d' c hd hd' hc hc'
    exact hok.dir_unique ((hok.lists_iff hd).mp hc) ((hok.lists_iff hd').mp hc')
  · obtain ⟨rank, hrank⟩ := hok.ranked
    have hlt : ∀ a b, Relation.TransGen (fun d c => IsDir t d ∧ Lists t d c) a b →
        rank a < rank b := by
      intro a b hab
      induction hab with
      | single hstep => exact hrank _ _ ((hok.lists_iff hstep.1).mp hstep.2)
      | tail _ hstep ih => exact ih.trans (hrank _ _ ((hok.lists_iff hstep.1).mp hstep.2))
    exact Nat.lt_irrefl _ (hlt c c hloop)

end Shape

/-- A directory `d` in the root with a file `f` in it. -/
def nestedTable : RamfsTable :=
  (fsCreate (fsCreate ramfsInit 0 (ascii "d") true).2 1 (ascii "f") false).2

theorem nestedTable_reach : RamfsReach nestedTable := by
  have hroot : RamfsReach (fsCreate ramfsInit 0 (ascii "d") true).2 :=
    .call .init (.create ⟨ascii "d", by decide⟩ true .root ramfsInit_ok.root)
  have hfirst : ((fsCreate ramfsInit 0 (ascii "d") true).2 0).firstChild = ((1 : Nat) : Int) := by
    decide
  have hlist : Lists (fsCreate ramfsInit 0 (ascii "d") true).2 0 1 := by
    refine ⟨[1], ?_, List.mem_singleton_self 1⟩
    rw [hfirst]
    exact .cons .nil
  exact .call hroot (.create ⟨ascii "f", by decide⟩ false
    (.child .root ⟨by decide, by decide⟩ hlist) ⟨by decide, by decide⟩)

theorem ramfs_structure_nested :
    (∃ l, GoodList nestedTable 0 l) ∧ LoopsEnd nestedTable 0 ∧
      ∀ c, ¬ Relation.TransGen (fun d c => IsDir nestedTable d ∧ Lists nestedTable d c) c c := by
  obtain ⟨hdirs, -, hacyclic⟩ := ramfs_structure nestedTable_reach
  obtain ⟨hlist, hloops⟩ := hdirs 0 .root ⟨by decide, by decide⟩
  exact ⟨hlist, hloops, hacyclic⟩

end RoninOS.Fs
