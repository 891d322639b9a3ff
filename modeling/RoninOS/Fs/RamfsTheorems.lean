/-
RoninOS.Fs.RamfsTheorems — the directory lists of the RAMFS node table.

`NodesOk t kids` says that following `first_child` and `next_sibling` from
every directory `d` visits exactly the nodes `kids d`, which are used, name
`d` as their parent and have distinct names, and that no list leads back to a
node above it. On such a table every loop of `ramfs.c` ends, and each
operation is described once: `CreateOutcome` and `RemoveOutcome` say what the
two operations that change links can do and keep the table good, and
`NodesOk.congr` covers the ones that only change contents.
-/
import RoninOS.Fs.Ramfs
import RoninOS.Lib.Chain
import Mathlib.Data.Finset.Card
import Mathlib.Data.Finset.Range
import Mathlib.Data.List.Perm.Subperm

namespace RoninOS.Fs

open RoninOS.Lib

/-! ## Names -/

/-- A name that fits `name` and is not empty. -/
def RamfsName (name : List UInt8) : Prop := name ≠ [] ∧ name.length < ramfsMaxName

instance (name : List UInt8) : Decidable (RamfsName name) :=
  inferInstanceAs (Decidable (name ≠ [] ∧ name.length < ramfsMaxName))

/-- `s_copy` copies the names that fit, with their terminator, and refuses the others. -/
theorem sCopy_cases (dst : Buffer ramfsMaxName) {name : List UInt8} (hnul : 0 ∉ name) :
    (RamfsName name ∧ (sCopy dst name).1 = 0 ∧ (sCopy dst name).2.str = name ∧
      0 ∈ (sCopy dst name).2.bytes) ∨
    (¬ RamfsName name ∧ (sCopy dst name).1 = -1) := by
  unfold sCopy
  by_cases hnil : name = []
  · rw [if_pos hnil]
    exact Or.inr ⟨fun h => h.1 hnil, rfl⟩
  · rw [if_neg hnil]
    by_cases hlen : name.length < ramfsMaxName
    · have hmin : min name.length (ramfsMaxName - 1) = name.length := by omega
      simp only [hmin, List.take_length, Nat.lt_irrefl, if_false]
      exact Or.inl ⟨⟨hnil, hlen⟩, trivial, dst.str_write_string hlen hnul,
        Buffer.nul_mem_write_singleton _ hlen⟩
    · have hmin : min name.length (ramfsMaxName - 1) = ramfsMaxName - 1 := by omega
      simp only [hmin]
      rw [if_pos (by simp only [ramfsMaxName] at hlen ⊢; omega)]
      exact Or.inr ⟨fun h => hlen h.2, rfl⟩

theorem RamfsNode.no_nul_nameStr (node : RamfsNode) : 0 ∉ node.nameStr := node.name.no_nul_str

/-! ## Good tables -/

/-- A directory in use. -/
def IsDir (t : RamfsTable) (d : Nat) : Prop := (t d).used = true ∧ (t d).isDir = true

/-- A node in use is not a free one. -/
theorem ne_of_free {t : RamfsTable} {i j : Nat} (hi : (t i).used = true)
    (hj : (t j).used = false) : i ≠ j := by
  rintro rfl
  rw [hi] at hj
  cases hj

/-- Every directory `d` lists exactly the nodes `kids d`. -/
structure NodesOk (t : RamfsTable) (kids : Nat → List Nat) : Prop where
  used_lt : ∀ i, (t i).used = true → i < ramfsMaxNodes
  root : IsDir t 0
  root_parent : (t 0).parent = 0
  chain : ∀ d, IsDir t d → Chain (fun i => (t i).nextSibling) (t d).firstChild (kids d)
  leaf : ∀ d, ¬ IsDir t d → kids d = []
  child : ∀ d, ∀ c ∈ kids d, (t c).used = true ∧ (t c).parent = d
  named : ∀ d, ∀ c ∈ kids d, (t c).nameStr ≠ [] ∧ 0 ∈ (t c).name.bytes
  nodup : ∀ d, (kids d).Nodup
  names : ∀ d, ∀ c ∈ kids d, ∀ c' ∈ kids d, (t c).nameStr = (t c').nameStr → c = c'
  ranked : ∃ rank : Nat → Nat, ∀ d, ∀ c ∈ kids d, rank d < rank c

/-- Two nodes with the same links and name. -/
structure SameLinks (a b : RamfsNode) : Prop where
  used : a.used = b.used
  isDir : a.isDir = b.isDir
  parent : a.parent = b.parent
  firstChild : a.firstChild = b.firstChild
  nextSibling : a.nextSibling = b.nextSibling
  name : a.name = b.name

theorem SameLinks.refl (a : RamfsNode) : SameLinks a a := ⟨rfl, rfl, rfl, rfl, rfl, rfl⟩

theorem SameLinks.trans {a b c : RamfsNode} (h : SameLinks a b) (h' : SameLinks b c) :
    SameLinks a c :=
  ⟨h.used.trans h'.used, h.isDir.trans h'.isDir, h.parent.trans h'.parent,
    h.firstChild.trans h'.firstChild, h.nextSibling.trans h'.nextSibling, h.name.trans h'.name⟩

theorem SameLinks.nameStr {a b : RamfsNode} (h : SameLinks a b) : a.nameStr = b.nameStr := by
  rw [RamfsNode.nameStr, RamfsNode.nameStr, h.name]

section Tables

variable {t t' : RamfsTable} {kids : Nat → List Nat}

/-- A node of a list has the directory of that list as its parent, so it is in
no other list. -/
theorem NodesOk.dir_unique (h : NodesOk t kids) {d d' c : Nat} (hc : c ∈ kids d)
    (hc' : c ∈ kids d') : d = d' := by
  have hd := (h.child d c hc).2
  have hd' := (h.child d' c hc').2
  omega

theorem NodesOk.isDir_of_mem (h : NodesOk t kids) {d c : Nat} (hc : c ∈ kids d) : IsDir t d := by
  by_contra hd
  rw [h.leaf d hd] at hc
  exact List.not_mem_nil hc

/-- The root is in no list. -/
theorem NodesOk.ne_root (h : NodesOk t kids) {d c : Nat} (hc : c ∈ kids d) : c ≠ 0 := by
  rintro rfl
  obtain ⟨rank, hrank⟩ := h.ranked
  have hparent := (h.child d 0 hc).2
  rw [h.root_parent] at hparent
  obtain rfl : d = 0 := by omega
  exact Nat.lt_irrefl _ (hrank 0 0 hc)

theorem NodesOk.ramfsName (h : NodesOk t kids) {d c : Nat} (hc : c ∈ kids d) :
    RamfsName (t c).nameStr :=
  ⟨(h.named d c hc).1, (t c).name.length_str_lt (h.named d c hc).2⟩

/-- A list is shorter than the bound on the rounds. -/
theorem NodesOk.length_lt (h : NodesOk t kids) (d : Nat) : (kids d).length < ramfsRounds := by
  have hsub : (kids d).toFinset ⊆ Finset.range ramfsMaxNodes := by
    intro c hc
    exact Finset.mem_range.mpr (h.used_lt c (h.child d c (List.mem_toFinset.mp hc)).1)
  have hcard := Finset.card_le_card hsub
  rw [List.toFinset_card_of_nodup (h.nodup d), Finset.card_range] at hcard
  exact Nat.lt_succ_of_le hcard

/-- The table `ramfs_init` leaves. -/
theorem ramfsInit_ok : NodesOk ramfsInit fun _ => [] := by
  have hother : ∀ i, i ≠ 0 → ramfsInit i = zeroNode := fun i hi => Function.update_of_ne hi ..
  have hunused : ∀ i, (ramfsInit i).used = true → i = 0 := by
    intro i hi
    by_contra hne
    rw [hother i hne] at hi
    exact absurd hi (by decide)
  refine ⟨fun i hi => by rw [hunused i hi]; decide, ⟨rfl, rfl⟩, rfl, fun d hd => ?_,
    fun d _ => rfl, fun d c hc => absurd hc List.not_mem_nil,
    fun d c hc => absurd hc List.not_mem_nil, fun d => List.nodup_nil,
    fun d c hc => absurd hc List.not_mem_nil, fun _ => 0, fun d c hc => absurd hc List.not_mem_nil⟩
  rw [hunused d hd.1]
  exact .nil

/-- Unused nodes and the contents of files do not matter. -/
theorem NodesOk.congr (h : NodesOk t kids)
    (hsame : ∀ i, SameLinks (t' i) (t i) ∨ ((t i).used = false ∧ (t' i).used = false)) :
    NodesOk t' kids := by
  have hlive : ∀ i, (t i).used = true → SameLinks (t' i) (t i) := by
    intro i hi
    rcases hsame i with h1 | ⟨h1, -⟩
    · exact h1
    · rw [h1] at hi
      cases hi
  have hused : ∀ i, (t' i).used = (t i).used := by
    intro i
    rcases hsame i with h1 | ⟨h1, h2⟩
    · exact h1.used
    · rw [h1, h2]
  have hdir : ∀ d, IsDir t' d ↔ IsDir t d := by
    intro d
    unfold IsDir
    rw [hused]
    constructor
    · rintro ⟨h1, h2⟩
      exact ⟨h1, by rw [← (hlive d h1).isDir]; exact h2⟩
    · rintro ⟨h1, h2⟩
      exact ⟨h1, by rw [(hlive d h1).isDir]; exact h2⟩
  have hkid : ∀ d, ∀ c ∈ kids d, SameLinks (t' c) (t c) := fun d c hc => hlive c (h.child d c hc).1
  refine ⟨fun i hi => h.used_lt i (by rw [← hused]; exact hi), (hdir 0).mpr h.root, ?_,
    fun d hd => ?_, fun d hd => h.leaf d fun hd' => hd ((hdir d).mpr hd'), fun d c hc => ?_,
    fun d c hc => ?_, h.nodup, fun d c hc c' hc' heq => ?_, h.ranked⟩
  · rw [(hlive 0 h.root.1).parent]
    exact h.root_parent
  · have hd' := (hdir d).mp hd
    rw [(hlive d hd'.1).firstChild]
    exact (h.chain d hd').congr fun i hi => (hkid d i hi).nextSibling
  · rw [(hkid d c hc).used, (hkid d c hc).parent]
    exact h.child d c hc
  · rw [(hkid d c hc).nameStr, (hkid d c hc).name]
    exact h.named d c hc
  · rw [(hkid d c hc).nameStr, (hkid d c' hc').nameStr] at heq
    exact h.names d c hc c' hc' heq

/-! ## `node_find_child` -/

/-- The loop of `node_find_child` over a list: it ends, at the first node with
the name. -/
theorem findChildLoop_chain {name : List UInt8} (hnul : 0 ∉ name) : ∀ {l : List Nat}
    {rounds : Nat} {start : Int}, Chain (fun i => (t i).nextSibling) start l →
    l.length < rounds →
    (findChildLoop t name rounds start = some (-1) ∧ ∀ c ∈ l, (t c).nameStr ≠ name) ∨
    ∃ c ∈ l, (t c).nameStr = name ∧ findChildLoop t name rounds start = some (c : Int)
  | _, 0, _, _, hlen => absurd hlen (Nat.not_lt_zero _)
  | [], rounds + 1, start, hchain, _ => by
      refine Or.inl ⟨?_, fun c hc => absurd hc List.not_mem_nil⟩
      rw [hchain.start_nil, findChildLoop]
      rfl
  | i :: l, rounds + 1, start, hchain, hlen => by
      obtain ⟨rfl, htail⟩ := hchain.start_cons
      have hcmp := strcmp_eq_zero_iff (t i).no_nul_nameStr hnul
      rw [findChildLoop, if_neg (by omega), Int.toNat_natCast]
      by_cases hname : (t i).nameStr = name
      · rw [if_pos (hcmp.mpr hname)]
        exact Or.inr ⟨i, List.mem_cons_self .., hname, rfl⟩
      · rw [if_neg fun h0 => hname (hcmp.mp h0)]
        rcases findChildLoop_chain hnul htail (Nat.lt_of_succ_lt_succ hlen) with
          ⟨hnone, hall⟩ | ⟨c, hc, hcname, hsome⟩
        · exact Or.inl ⟨hnone, List.forall_mem_cons.mpr ⟨hname, hall⟩⟩
        · exact Or.inr ⟨c, List.mem_cons_of_mem _ hc, hcname, hsome⟩

/-- `node_find_child` finds the child with the name, if there is one. -/
theorem NodesOk.find_cases (h : NodesOk t kids) {d : Nat} (hd : IsDir t d) {name : List UInt8}
    (hnul : 0 ∉ name) :
    (nodeFindChild t d name = -1 ∧ ∀ c ∈ kids d, (t c).nameStr ≠ name) ∨
    ∃ c ∈ kids d, (t c).nameStr = name ∧ nodeFindChild t d name = (c : Int) := by
  unfold nodeFindChild
  rcases findChildLoop_chain hnul (h.chain d hd) (h.length_lt d) with
    ⟨hnone, hall⟩ | ⟨c, hc, hname, hsome⟩
  · exact Or.inl ⟨by rw [hnone]; rfl, hall⟩
  · exact Or.inr ⟨c, hc, hname, by rw [hsome]; rfl⟩

theorem NodesOk.find_eq (h : NodesOk t kids) {d c : Nat} (hc : c ∈ kids d) :
    nodeFindChild t d (t c).nameStr = (c : Int) := by
  rcases h.find_cases (h.isDir_of_mem hc) (t c).no_nul_nameStr with
    ⟨-, hall⟩ | ⟨c', hc', hname, hfind⟩
  · exact absurd rfl (hall c hc)
  · rw [hfind, h.names d c' hc' c hc hname]

theorem NodesOk.notDir_iff (h : NodesOk t kids) {d : Nat} (hd : IsDir t d) : ¬ notDir t d := by
  rintro (hge | hfile)
  · exact absurd (h.used_lt d hd.1) (by omega)
  · rw [hd.2] at hfile
    cases hfile

/-- `fs_lookup` in a directory finds the child with the name, if there is one. -/
theorem NodesOk.lookup_cases (h : NodesOk t kids) {d : Nat} (hd : IsDir t d) {name : List UInt8}
    (hnul : 0 ∉ name) :
    (fsLookup t d name = none ∧ ∀ c ∈ kids d, (t c).nameStr ≠ name) ∨
    ∃ c ∈ kids d, (t c).nameStr = name ∧ fsLookup t d name = some (c, (t c).isDir) := by
  unfold fsLookup
  rw [if_neg (h.notDir_iff hd)]
  rcases h.find_cases hd hnul with ⟨hfind, hall⟩ | ⟨c, hc, hname, hfind⟩
  · simp only [hfind]
    exact Or.inl ⟨if_pos (by decide), hall⟩
  · simp only [hfind, Int.toNat_natCast]
    exact Or.inr ⟨c, hc, hname, if_neg (by omega)⟩

/-! ## `node_create_child` -/

/-- `node_alloc` takes an unused node, or there is none. -/
theorem nodeAlloc_cases (t : RamfsTable) :
    (nodeAlloc t = none ∧ ∀ i < ramfsMaxNodes, (t i).used = true) ∨
    ∃ idx < ramfsMaxNodes, (t idx).used = false ∧ nodeAlloc t = some (idx, Function.update t idx
      { zeroNode with used := true, parent := -1, firstChild := -1, nextSibling := -1 }) := by
  unfold nodeAlloc
  cases hfind : (List.range ramfsMaxNodes).find? fun i => !(t i).used with
  | none =>
      refine Or.inl ⟨rfl, fun i hi => ?_⟩
      simpa using List.find?_eq_none.mp hfind i (List.mem_range.mpr hi)
  | some idx =>
      refine Or.inr ⟨idx, List.mem_range.mp (List.mem_of_find?_eq_some hfind), ?_, rfl⟩
      simpa using List.find?_some hfind

/-- The node that `node_create_child` puts in front of a list. -/
def newNode (name : Buffer ramfsMaxName) (isDir : Bool) (dir : Nat) (next : Int) : RamfsNode :=
  { zeroNode with
    used := true
    isDir := isDir
    parent := dir
    firstChild := -1
    nextSibling := next
    name := name }

/-- The table with node `idx` new in front of the list of `dir`. -/
def linkNew (t : RamfsTable) (idx : Nat) (name : Buffer ramfsMaxName) (isDir : Bool)
    (dir : Nat) : RamfsTable :=
  Function.update (Function.update t idx (newNode name isDir dir (t dir).firstChild)) dir
    { t dir with firstChild := idx }

/-- What `node_create_child` can do in a good table. -/
inductive CreateOutcome (t : RamfsTable) (kids : Nat → List Nat) (dir : Nat)
    (name : List UInt8) (isDir : Bool) : Int × RamfsTable → Prop
  /-- The directory lists the name. -/
  | present {c : Nat} : c ∈ kids dir → (t c).nameStr = name →
      CreateOutcome t kids dir name isDir (-1, t)
  /-- Every node is in use. -/
  | full : (∀ c ∈ kids dir, (t c).nameStr ≠ name) → (∀ i < ramfsMaxNodes, (t i).used = true) →
      CreateOutcome t kids dir name isDir (-2, t)
  /-- The name does not fit; one unused node is left with other contents. -/
  | badName {t' : RamfsTable} {idx : Nat} : (∀ c ∈ kids dir, (t c).nameStr ≠ name) →
      ¬ RamfsName name → (t idx).used = false → (t' idx).used = false →
      (∀ i, i ≠ idx → t' i = t i) → CreateOutcome t kids dir name isDir (-1, t')
  | created {idx : Nat} {copied : Buffer ramfsMaxName} :
      (∀ c ∈ kids dir, (t c).nameStr ≠ name) → RamfsName name → idx < ramfsMaxNodes →
      (t idx).used = false → copied.str = name → 0 ∈ copied.bytes →
      CreateOutcome t kids dir name isDir (idx, linkNew t idx copied isDir dir)

/-- `node_create_child` in a directory of a good table. -/
theorem NodesOk.create_outcome (h : NodesOk t kids) {dir : Nat} (hdir : IsDir t dir)
    {name : List UInt8} (hnul : 0 ∉ name) (isDir : Bool) :
    CreateOutcome t kids dir name isDir (nodeCreateChild t dir name isDir) := by
  unfold nodeCreateChild
  rcases h.find_cases hdir hnul with ⟨hfind, hall⟩ | ⟨c, hc, hname, hfind⟩
  · rw [hfind, if_neg (by decide)]
    rcases nodeAlloc_cases t with ⟨halloc, hfull⟩ | ⟨idx, hidx, hfree, halloc⟩
    · rw [halloc]
      exact .full hall hfull
    · have hne : idx ≠ dir := (ne_of_free hdir.1 hfree).symm
      rw [halloc]
      simp only [Function.update_self, Function.update_idem]
      rcases sCopy_cases zeroNode.name hnul with ⟨hgood, hret, hstr, hmem⟩ | ⟨hbad, hret⟩
      · simp only [hret]
        rw [if_neg (by decide), Function.update_of_ne hne.symm, Function.update_of_ne hne.symm]
        exact .created hall hgood hidx hfree hstr hmem
      · simp only [hret]
        rw [if_pos (by decide)]
        exact .badName hall hbad hfree (by rw [Function.update_self])
          fun i hi => Function.update_of_ne hi ..
  · rw [hfind, if_pos (by omega)]
    exact .present hc hname

section LinkNew

variable {idx dir : Nat} {copied : Buffer ramfsMaxName} {isDir : Bool}

theorem linkNew_self (hne : idx ≠ dir) :
    linkNew t idx copied isDir dir idx = newNode copied isDir dir (t dir).firstChild := by
  rw [linkNew, Function.update_of_ne hne, Function.update_self]

theorem linkNew_nameStr (hne : idx ≠ dir) :
    (linkNew t idx copied isDir dir idx).nameStr = copied.str := by
  rw [linkNew_self hne]
  rfl

/-- A node of the new lists is the new one or was in the list before. -/
theorem mem_linkedKids {d c : Nat} : c ∈ Function.update kids dir (idx :: kids dir) d ↔
    (d = dir ∧ c = idx) ∨ c ∈ kids d := by
  by_cases hd : d = dir
  · subst hd
    rw [Function.update_self, List.mem_cons]
    exact or_congr_left ⟨fun hc => ⟨rfl, hc⟩, And.right⟩
  · rw [Function.update_of_ne hd]
    exact ⟨Or.inr, fun hor => hor.resolve_left fun hc => hd hc.1⟩

theorem linkNew_dir : linkNew t idx copied isDir dir dir = { t dir with firstChild := idx } := by
  rw [linkNew, Function.update_self]

theorem linkNew_of_ne {i : Nat} (hidx : i ≠ idx) (hdir : i ≠ dir) :
    linkNew t idx copied isDir dir i = t i := by
  rw [linkNew, Function.update_of_ne hdir, Function.update_of_ne hidx]

/-- Every other node keeps all but the head of its list. -/
theorem linkNew_keeps {i : Nat} (hidx : i ≠ idx) :
    linkNew t idx copied isDir dir i = t i ∨
    linkNew t idx copied isDir dir i = { t i with firstChild := idx } := by
  by_cases hdir : i = dir
  · subst hdir
    exact Or.inr linkNew_dir
  · exact Or.inl (linkNew_of_ne hidx hdir)

end LinkNew

/-- A created node keeps the table good: it stands in front of its directory's
list and has no list of its own yet. -/
theorem NodesOk.created (h : NodesOk t kids) {dir idx : Nat} {isDir : Bool}
    {copied : Buffer ramfsMaxName} (hdir : IsDir t dir) (hidx : idx < ramfsMaxNodes)
    (hfree : (t idx).used = false) (hstr : copied.str ≠ []) (hmem : 0 ∈ copied.bytes)
    (hnew : ∀ c ∈ kids dir, (t c).nameStr ≠ copied.str) :
    NodesOk (linkNew t idx copied isDir dir) (Function.update kids dir (idx :: kids dir)) := by
  have hne : idx ≠ dir := (ne_of_free hdir.1 hfree).symm
  have hnodir : ¬ IsDir t idx := fun hd => ne_of_free hd.1 hfree rfl
  have hnotin : ∀ d, idx ∉ kids d := fun d hc => ne_of_free (h.child d idx hc).1 hfree rfl
  have hself := @linkNew_self t _ _ copied isDir hne
  -- what the lists read of a node that was there
  have hold : ∀ i, i ≠ idx → SameLinks (linkNew t idx copied isDir dir i)
      { t i with firstChild := (linkNew t idx copied isDir dir i).firstChild } := by
    intro i hi
    rcases @linkNew_keeps t _ dir copied isDir _ hi with
      heq | heq <;> rw [heq] <;> exact ⟨rfl, rfl, rfl, rfl, rfl, rfl⟩
  have hkid : ∀ d, ∀ c ∈ kids d, c ≠ idx := fun d c hc hci => hnotin d (hci ▸ hc)
  have hisDir : ∀ d, d ≠ idx → (IsDir (linkNew t idx copied isDir dir) d ↔ IsDir t d) := by
    intro d hd
    unfold IsDir
    rw [(hold d hd).used, (hold d hd).isDir]
  have hname : ∀ c, c ≠ idx → (linkNew t idx copied isDir dir c).nameStr = (t c).nameStr :=
    fun c hc => (hold c hc).nameStr
  have hnameIdx := @linkNew_nameStr t _ _ copied isDir hne
  refine ⟨fun i hi => ?_, (hisDir 0 ?_).mpr h.root, ?_, fun d hd => ?_, fun d hd => ?_,
    fun d c hc => ?_, fun d c hc => ?_, fun d => ?_, fun d c hc c' hc' heq => ?_, ?_⟩
  · by_cases hi' : i = idx
    · rw [hi']
      exact hidx
    · rw [(hold i hi').used] at hi
      exact h.used_lt i hi
  · rintro rfl
    exact hnodir h.root
  · have h0 : (0 : Nat) ≠ idx := by
      rintro rfl
      exact hnodir h.root
    rw [(hold 0 h0).parent]
    exact h.root_parent
  · by_cases hdd : d = dir
    · subst hdd
      rw [Function.update_self, linkNew_dir]
      refine (h.chain d hdir).push (hnotin d) ?_ fun j hj => (hold j hj).nextSibling
      rw [hself]
      rfl
    · rw [Function.update_of_ne hdd]
      by_cases hdi : d = idx
      · subst hdi
        rw [h.leaf d hnodir, hself]
        exact .nil
      · rw [linkNew_of_ne hdi hdd]
        exact (h.chain d ((hisDir d hdi).mp hd)).congr fun i hi =>
          (hold i (hkid d i hi)).nextSibling
  · have hdd : d ≠ dir := by
      rintro rfl
      exact hd ((hisDir d hne.symm).mpr hdir)
    rw [Function.update_of_ne hdd]
    by_cases hdi : d = idx
    · rw [hdi]
      exact h.leaf idx hnodir
    · exact h.leaf d fun hd' => hd ((hisDir d hdi).mpr hd')
  · rcases mem_linkedKids.mp hc with ⟨rfl, rfl⟩ | hc
    · rw [hself]
      exact ⟨rfl, rfl⟩
    · rw [(hold c (hkid d c hc)).used, (hold c (hkid d c hc)).parent]
      exact h.child d c hc
  · rcases mem_linkedKids.mp hc with ⟨rfl, rfl⟩ | hc
    · rw [hnameIdx, hself]
      exact ⟨hstr, hmem⟩
    · rw [hname c (hkid d c hc), (hold c (hkid d c hc)).name]
      exact h.named d c hc
  · by_cases hdd : d = dir
    · rw [hdd, Function.update_self]
      exact List.nodup_cons.mpr ⟨hnotin dir, h.nodup dir⟩
    · rw [Function.update_of_ne hdd]
      exact h.nodup d
  · rcases mem_linkedKids.mp hc with ⟨rfl, rfl⟩ | hk <;> rcases mem_linkedKids.mp hc' with ⟨hd', rfl⟩ | hk'
    · rfl
    · rw [hnameIdx, hname c' (hkid _ c' hk')] at heq
      exact absurd heq.symm (hnew c' hk')
    · rw [hnameIdx, hname c (hkid _ c hk)] at heq
      exact absurd heq (hnew c (hd' ▸ hk))
    · rw [hname c (hkid d c hk), hname c' (hkid d c' hk')] at heq
      exact h.names d c hk c' hk' heq
  · obtain ⟨rank, hrank⟩ := h.ranked
    refine ⟨Function.update rank idx (rank dir + 1), fun d c hc => ?_⟩
    rcases mem_linkedKids.mp hc with ⟨rfl, rfl⟩ | hk
    · rw [Function.update_self, Function.update_of_ne hne.symm]
      exact Nat.lt_succ_self _
    · have hdi : d ≠ idx := fun hdi => hnodir (hdi ▸ h.isDir_of_mem hk)
      rw [Function.update_of_ne (hkid d c hk), Function.update_of_ne hdi]
      exact hrank d c hk

/-! ## `ramfs_remove` -/

/-- The table without node `x`, whose list position follows `prev`. -/
def unlinkNode (t : RamfsTable) (prev : Int) (x : Nat) : RamfsTable :=
  Function.update
    (if prev < 0 then Function.update t 0 { t 0 with firstChild := (t x).nextSibling }
      else Function.update t prev.toNat { t prev.toNat with nextSibling := (t x).nextSibling })
    x zeroNode

section Unlink

variable {prev : Int} {x i : Nat}

@[simp] theorem unlinkNode_self : unlinkNode t prev x x = zeroNode := Function.update_self ..

/-- Every other node keeps all but its links. -/
theorem unlinkNode_keeps (hi : i ≠ x) : unlinkNode t prev x i =
    { t i with
      firstChild := (unlinkNode t prev x i).firstChild
      nextSibling := (unlinkNode t prev x i).nextSibling } := by
  unfold unlinkNode
  rw [Function.update_of_ne hi]
  split
  · by_cases h0 : i = 0
    · rw [h0, Function.update_self]
    · rw [Function.update_of_ne h0]
  · by_cases hp : i = prev.toNat
    · rw [hp, Function.update_self]
    · rw [Function.update_of_ne hp]

theorem unlinkNode_firstChild (hi : i ≠ x) (h : i ≠ 0 ∨ 0 ≤ prev) :
    (unlinkNode t prev x i).firstChild = (t i).firstChild := by
  unfold unlinkNode
  rw [Function.update_of_ne hi]
  split
  · rw [Function.update_of_ne (by omega)]
  · by_cases hp : i = prev.toNat
    · rw [hp, Function.update_self]
    · rw [Function.update_of_ne hp]

theorem unlinkNode_nextSibling (hi : i ≠ x) (h : (i : Int) ≠ prev) :
    (unlinkNode t prev x i).nextSibling = (t i).nextSibling := by
  unfold unlinkNode
  rw [Function.update_of_ne hi]
  split
  · by_cases h0 : i = 0
    · rw [h0, Function.update_self]
    · rw [Function.update_of_ne h0]
  · rw [Function.update_of_ne (by omega)]

end Unlink

/-- The loop of `ramfs_remove` over a list: it ends, and unlinks the first
node with the name after the node before it. -/
theorem removeLoop_chain {name : List UInt8} (hnul : 0 ∉ name) : ∀ {l : List Nat}
    {rounds : Nat} {prev cur : Int}, Chain (fun i => (t i).nextSibling) cur l →
    l.length < rounds →
    (removeLoop t name rounds prev cur = some (-1, t) ∧ ∀ c ∈ l, (t c).nameStr ≠ name) ∨
    ∃ (l₁ : List Nat) (x : Nat) (l₂ : List Nat) (p : Int), l = l₁ ++ x :: l₂ ∧
      (t x).nameStr = name ∧ (l₁ = [] ∧ p = prev ∨ ∃ l₀ q, l₁ = l₀ ++ [q] ∧ p = ((q : Nat) : Int)) ∧
      removeLoop t name rounds prev cur = some (0, unlinkNode t p x)
  | _, 0, _, _, _, hlen => absurd hlen (Nat.not_lt_zero _)
  | [], rounds + 1, prev, cur, hchain, _ => by
      refine Or.inl ⟨?_, fun c hc => absurd hc List.not_mem_nil⟩
      rw [hchain.start_nil, removeLoop]
      rfl
  | i :: l, rounds + 1, prev, cur, hchain, hlen => by
      obtain ⟨rfl, htail⟩ := hchain.start_cons
      have hcmp := strcmp_eq_zero_iff (t i).no_nul_nameStr hnul
      rw [removeLoop, if_neg (by omega), Int.toNat_natCast]
      by_cases hname : (t i).nameStr = name
      · simp only [if_pos (hcmp.mpr hname)]
        exact Or.inr ⟨[], i, l, prev, rfl, hname, Or.inl ⟨rfl, rfl⟩, rfl⟩
      · simp only [if_neg fun h0 => hname (hcmp.mp h0)]
        rcases removeLoop_chain hnul htail (Nat.lt_of_succ_lt_succ hlen) with
          ⟨hnone, hall⟩ | ⟨l₁, x, l₂, p, rfl, hx, hp, hsome⟩
        · exact Or.inl ⟨hnone, List.forall_mem_cons.mpr ⟨hname, hall⟩⟩
        · refine Or.inr ⟨i :: l₁, x, l₂, p, rfl, hx, Or.inr ?_, hsome⟩
          rcases hp with ⟨rfl, rfl⟩ | ⟨l₀, q, rfl, rfl⟩
          · exact ⟨[], i, rfl, rfl⟩
          · exact ⟨i :: l₀, q, rfl, rfl⟩

/-- The lists after node `x` of the root directory is removed. -/
def removeKids (kids : Nat → List Nat) (x : Nat) : Nat → List Nat :=
  Function.update (Function.update kids x []) 0 ((kids 0).erase x)

/-- What `ramfs_remove` can do in a good table. -/
inductive RemoveOutcome (t : RamfsTable) (kids : Nat → List Nat) (name : List UInt8) :
    Int × RamfsTable → Prop
  | absent : (∀ c ∈ kids 0, (t c).nameStr ≠ name) → RemoveOutcome t kids name (-1, t)
  | removed {x : Nat} {t' : RamfsTable} : x ∈ kids 0 → (t x).nameStr = name → t' x = zeroNode →
      (∀ i, i ≠ x → t' i = { t i with
        firstChild := (t' i).firstChild
        nextSibling := (t' i).nextSibling }) →
      NodesOk t' (removeKids kids x) → RemoveOutcome t kids name (0, t')

theorem mem_removeKids (h : NodesOk t kids) {x d c : Nat} (hx : x ∈ kids 0) :
    c ∈ removeKids kids x d ↔ c ∈ kids d ∧ c ≠ x ∧ d ≠ x := by
  unfold removeKids
  have hx0 : x ≠ 0 := h.ne_root hx
  by_cases h0 : d = 0
  · subst h0
    rw [Function.update_self, (h.nodup 0).mem_erase_iff]
    exact ⟨fun hc => ⟨hc.2, hc.1, hx0.symm⟩, fun hc => ⟨hc.2.1, hc.1⟩⟩
  · rw [Function.update_of_ne h0]
    by_cases hdx : d = x
    · rw [hdx, Function.update_self]
      exact ⟨fun hc => absurd hc List.not_mem_nil, fun hc => absurd rfl hc.2.2⟩
    · rw [Function.update_of_ne hdx]
      refine ⟨fun hc => ⟨hc, ?_, hdx⟩, fun hc => hc.1⟩
      rintro rfl
      exact h0 (h.dir_unique hc hx)

/-- Unlinking a node of the root directory keeps the table good. -/
theorem NodesOk.unlinked (h : NodesOk t kids) {l₁ l₂ : List Nat} {x : Nat} {p : Int}
    (hkids : kids 0 = l₁ ++ x :: l₂)
    (hp : l₁ = [] ∧ p = -1 ∨ ∃ (l₀ : List Nat) (q : Nat), l₁ = l₀ ++ [q] ∧ p = (q : Int)) :
    NodesOk (unlinkNode t p x) (removeKids kids x) := by
  have hx : x ∈ kids 0 := by simp [hkids]
  have hx0 : x ≠ 0 := h.ne_root hx
  have hnodup := h.nodup 0
  rw [hkids] at hnodup
  have hx1 : x ∉ l₁ := fun hmem =>
    List.disjoint_of_nodup_append hnodup hmem (List.mem_cons_self ..)
  have herase : (kids 0).erase x = l₁ ++ l₂ := by
    rw [hkids, List.erase_append_right _ hx1, List.erase_cons_head]
  have hmem : ∀ {d c : Nat}, c ∈ removeKids kids x d ↔ c ∈ kids d ∧ c ≠ x ∧ d ≠ x :=
    mem_removeKids h hx
  have hkeep : ∀ i, i ≠ x → unlinkNode t p x i = { t i with
      firstChild := (unlinkNode t p x i).firstChild
      nextSibling := (unlinkNode t p x i).nextSibling } := fun i hi => unlinkNode_keeps hi
  have hused : ∀ i, i ≠ x → (unlinkNode t p x i).used = (t i).used := fun i hi => by rw [hkeep i hi]
  have hname : ∀ i, i ≠ x → (unlinkNode t p x i).name = (t i).name := fun i hi => by rw [hkeep i hi]
  have hdirx : ¬ IsDir (unlinkNode t p x) x := by
    rintro ⟨hd, -⟩
    rw [unlinkNode_self] at hd
    cases hd
  have hdir : ∀ d, d ≠ x → (IsDir (unlinkNode t p x) d ↔ IsDir t d) := by
    intro d hd
    unfold IsDir
    rw [hkeep d hd]
  refine ⟨fun i hi => ?_, (hdir 0 hx0.symm).mpr h.root, ?_, fun d hd => ?_, fun d hd => ?_,
    fun d c hc => ?_, fun d c hc => ?_, fun d => ?_, fun d c hc c' hc' heq => ?_, ?_⟩
  · have hix : i ≠ x := by
      rintro rfl
      rw [unlinkNode_self] at hi
      cases hi
    exact h.used_lt i (by rw [← hused i hix]; exact hi)
  · rw [hkeep 0 hx0.symm]
    exact h.root_parent
  · have hdx : d ≠ x := fun hdx => hdirx (hdx ▸ hd)
    have hchain := h.chain d ((hdir d hdx).mp hd)
    unfold removeKids
    by_cases hd0 : d = 0
    · -- the root's list loses `x`
      subst hd0
      rw [Function.update_self, herase]
      rw [hkids] at hchain
      rcases hp with ⟨rfl, rfl⟩ | ⟨l₀, q, rfl, rfl⟩
      · have hfirst : (unlinkNode t (-1) x 0).firstChild = (t x).nextSibling := by
          rw [unlinkNode, Function.update_of_ne hdx, if_pos (by decide), Function.update_self]
        rw [hfirst]
        have hx2 : x ∉ l₂ := (List.nodup_cons.mp hnodup).1
        exact hchain.drop.congr fun i hi =>
          unlinkNode_nextSibling (fun hix => hx2 (hix ▸ hi)) (by omega)
      · have hqx : q ≠ x := by
          rintro rfl
          exact hx1 (by simp)
        have hnext : (unlinkNode t q x q).nextSibling = (t x).nextSibling := by
          rw [unlinkNode, Function.update_of_ne hqx, if_neg (by omega), Int.toNat_natCast,
            Function.update_self]
        rw [unlinkNode_firstChild hdx (Or.inr (by omega))]
        rw [List.append_assoc] at hchain hnodup ⊢
        exact hchain.unlink hnodup hnext fun j hj hjx =>
          unlinkNode_nextSibling hjx (by omega)
    · -- no other list holds `x` or the node before it
      rw [Function.update_of_ne hd0, Function.update_of_ne hdx,
        unlinkNode_firstChild hdx (Or.inl hd0)]
      refine hchain.congr fun i hi => unlinkNode_nextSibling ?_ ?_
      · rintro rfl
        exact hd0 (h.dir_unique hi hx)
      · rcases hp with ⟨-, rfl⟩ | ⟨l₀, q, rfl, rfl⟩
        · omega
        · intro hiq
          have hq : q ∈ kids 0 := by simp [hkids]
          obtain rfl : i = q := by omega
          exact hd0 (h.dir_unique hi hq)
  · unfold removeKids
    have hd0 : d ≠ 0 := fun hd0 => hd (hd0 ▸ (hdir 0 hx0.symm).mpr h.root)
    rw [Function.update_of_ne hd0]
    by_cases hdx : d = x
    · rw [hdx, Function.update_self]
    · rw [Function.update_of_ne hdx]
      exact h.leaf d fun hd' => hd ((hdir d hdx).mpr hd')
  · obtain ⟨hc, hcx, -⟩ := hmem.mp hc
    rw [hkeep c hcx]
    exact h.child d c hc
  · obtain ⟨hc, hcx, -⟩ := hmem.mp hc
    rw [RamfsNode.nameStr, hname c hcx]
    exact h.named d c hc
  · unfold removeKids
    by_cases hd0 : d = 0
    · rw [hd0, Function.update_self]
      exact (h.nodup 0).erase x
    · rw [Function.update_of_ne hd0]
      by_cases hdx : d = x
      · rw [hdx, Function.update_self]
        exact List.nodup_nil
      · rw [Function.update_of_ne hdx]
        exact h.nodup d
  · obtain ⟨hc, hcx, -⟩ := hmem.mp hc
    obtain ⟨hc', hcx', -⟩ := hmem.mp hc'
    rw [RamfsNode.nameStr, RamfsNode.nameStr, hname c hcx, hname c' hcx'] at heq
    exact h.names d c hc c' hc' heq
  · obtain ⟨rank, hrank⟩ := h.ranked
    exact ⟨rank, fun d c hc => hrank d c (hmem.mp hc).1⟩

/-- `ramfs_remove` in a good table. -/
theorem NodesOk.remove_outcome (h : NodesOk t kids) {name : List UInt8} (hnul : 0 ∉ name) :
    RemoveOutcome t kids name (ramfsRemove t name) := by
  unfold ramfsRemove
  rcases removeLoop_chain hnul (h.chain 0 h.root) (h.length_lt 0) with
    ⟨hloop, hall⟩ | ⟨l₁, x, l₂, p, hkids, hx, hp, hloop⟩
  · rw [hloop]
    exact .absent hall
  · rw [hloop]
    exact .removed (by simp [hkids]) hx unlinkNode_self (fun i hi => unlinkNode_keeps hi)
      (h.unlinked hkids hp)

/-! ## `ramfs_touch` and `ramfs_write` -/

/-- No node in use is changed or added. -/
def Unchanged (t t' : RamfsTable) : Prop :=
  ∀ i, t' i = t i ∨ ((t i).used = false ∧ (t' i).used = false)

theorem Unchanged.refl (t : RamfsTable) : Unchanged t t := fun _ => Or.inl rfl

/-- One free node has other contents. -/
theorem Unchanged.of_free {idx : Nat} (hfree : (t idx).used = false)
    (hfree' : (t' idx).used = false) (hsame : ∀ i, i ≠ idx → t' i = t i) : Unchanged t t' := by
  intro i
  by_cases hi : i = idx
  · rw [hi]
    exact Or.inr ⟨hfree, hfree'⟩
  · exact Or.inl (hsame i hi)

theorem Unchanged.eq_of_used (h : Unchanged t t') {i : Nat} (hi : (t i).used = true) :
    t' i = t i := by
  rcases h i with h | ⟨h, -⟩
  · exact h
  · rw [h] at hi
    cases hi

theorem NodesOk.unchanged (h : NodesOk t kids) (hsame : Unchanged t t') : NodesOk t' kids := by
  refine h.congr fun i => ?_
  rcases hsame i with heq | hfree
  · rw [heq]
    exact Or.inl (.refl _)
  · exact Or.inr hfree

/-- What `ramfs_touch` can do in a good table. -/
inductive TouchOutcome (t : RamfsTable) (kids : Nat → List Nat) (name : List UInt8) :
    Int × RamfsTable → Prop
  | present {c : Nat} : c ∈ kids 0 → (t c).nameStr = name → TouchOutcome t kids name (0, t)
  | refused {ret : Int} {t' : RamfsTable} : (∀ c ∈ kids 0, (t c).nameStr ≠ name) → ret < 0 →
      (¬ RamfsName name ∨ ∀ i < ramfsMaxNodes, (t i).used = true) → Unchanged t t' →
      TouchOutcome t kids name (ret, t')
  | created {idx : Nat} {copied : Buffer ramfsMaxName} :
      (∀ c ∈ kids 0, (t c).nameStr ≠ name) → RamfsName name → idx < ramfsMaxNodes →
      (t idx).used = false → copied.str = name → 0 ∈ copied.bytes →
      TouchOutcome t kids name (0, linkNew t idx copied false 0)

/-- `ramfs_touch` in a good table. -/
theorem NodesOk.touch_outcome (h : NodesOk t kids) {name : List UInt8} (hnul : 0 ∉ name) :
    TouchOutcome t kids name (ramfsTouch t name) := by
  unfold ramfsTouch
  by_cases hnil : name = []
  · rw [if_pos hnil, hnil]
    exact .refused (fun c hc => (h.named 0 c hc).1) (by decide) (Or.inl fun hgood => hgood.1 rfl)
      (.refl t)
  · rw [if_neg hnil]
    rcases h.find_cases h.root hnul with ⟨hfind, hall⟩ | ⟨c, hc, hname, hfind⟩
    · have houtcome := h.create_outcome h.root hnul false
      rw [hfind, if_neg (by decide)]
      generalize nodeCreateChild t 0 name false = r at houtcome
      cases houtcome with
      | present hc hname => exact absurd hname (hall _ hc)
      | full _ hfull => exact .refused hall (by decide) (Or.inr hfull) (.refl t)
      | @badName t' idx _ hbad hfree hfree' hsame =>
          exact .refused hall (by decide) (Or.inl hbad) (.of_free hfree hfree' hsame)
      | created _ hgood hidx hfree hstr hmem =>
          simp only
          rw [if_neg (by omega), if_neg (by omega)]
          exact .created hall hgood hidx hfree hstr hmem
    · rw [hfind, if_pos (by omega)]
      exact .present hc hname

/-- The node `ramfs_write` leaves when it copies `text` to offset `off`; `none`
where the copy leaves the array. -/
def writeText (node : RamfsNode) (text : List UInt8) (off : Nat) : Option RamfsNode :=
  if off + text.length ≥ ramfsMaxContent ∧ off > ramfsMaxContent - 1 then none
  else
    let len := if off + text.length ≥ ramfsMaxContent then ramfsMaxContent - 1 - off
      else text.length
    some { node with
      data := (node.data.write off (text.take len)).write (off + len) [0]
      size := off + len }

theorem writeText_links {node node' : RamfsNode} {text : List UInt8} {off : Nat}
    (h : writeText node text off = some node') : SameLinks node' node := by
  unfold writeText at h
  split at h
  · cases h
  · rw [← Option.some.inj h]
    exact ⟨rfl, rfl, rfl, rfl, rfl, rfl⟩

/-- `ramfs_write` where `ramfs_touch` fails. -/
theorem ramfsWrite_refused {name : List UInt8} (text : Option (List UInt8)) (append : Bool)
    (h : (ramfsTouch t name).1 < 0) :
    ramfsWrite t name text append = some (-1, (ramfsTouch t name).2) := by
  unfold ramfsWrite
  simp only
  rw [if_pos h]

/-- `ramfs_write` where `ramfs_touch` succeeds: one node gets the text. -/
theorem ramfsWrite_found {name : List UInt8} (text : Option (List UInt8)) (append : Bool)
    {t' : RamfsTable} {c : Nat} (htouch : ramfsTouch t name = (0, t'))
    (hfind : nodeFindChild t' 0 name = (c : Int)) :
    ramfsWrite t name text append
      = (writeText (t' c) (text.getD []) (if append then (t' c).size else 0)).map
          fun node => (0, Function.update t' c node) := by
  unfold ramfsWrite writeText
  simp only [htouch, hfind, strlen, Int.toNat_natCast]
  rw [if_neg (by decide), if_neg (by omega)]
  generalize (if append = true then (t' c).size else 0) = off
  by_cases hover : off + (text.getD []).length ≥ ramfsMaxContent ∧ off > ramfsMaxContent - 1
  · rw [if_pos hover, if_pos hover]
    rfl
  · rw [if_neg hover, if_neg hover]
    rfl

end Tables

end RoninOS.Fs
