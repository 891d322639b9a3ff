/-
RoninOS.Fs.RamfsTree — RAMFS through the VFS is a directory tree.

A `Tree` maps the components below the mountpoint to a directory or a file
with its bytes. `HoldsTree` says that the node table holds a tree: each used
node sits on one path from the root. Walking down the components of a path is
then a lookup (`HoldsTree.descend_root`) and creating a node is an insertion
(`HoldsTree.created`).
-/
import RoninOS.Fs.RamfsVfs
import RoninOS.Fs.RamfsFiles
import RoninOS.Lib.Tabulated

namespace RoninOS.Fs

open RoninOS.Lib

/-! ## Trees -/

/-- A node of the tree. -/
inductive TreeEntry
  | dir
  | file (bytes : List UInt8)
deriving DecidableEq

/-- Whether an entry is a directory. -/
def TreeEntry.isDir : TreeEntry → Bool
  | .dir => true
  | .file _ => false

/-- The size of an entry; a directory has none. -/
def TreeEntry.size : TreeEntry → Nat
  | .dir => 0
  | .file bytes => bytes.length

/-- The paths below the mountpoint and what they hold. -/
abbrev Tree := Finmap fun _ : List (List UInt8) => TreeEntry

/-- The tree of an empty root directory. -/
def emptyTree : Tree := Finmap.singleton [] .dir

/-- A new empty directory or file. -/
def newEntry (isDir : Bool) : TreeEntry := if isDir then .dir else .file []

/-- A path can be created: its parent is a directory, it is free and a node is left. -/
def CanCreate (tree : Tree) (p : List (List UInt8)) : Prop :=
  p ≠ [] ∧ tree.lookup p.dropLast = some .dir ∧ p ∉ tree ∧ tree.keys.card < ramfsMaxNodes

instance (tree : Tree) (p : List (List UInt8)) : Decidable (CanCreate tree p) :=
  inferInstanceAs (Decidable (p ≠ [] ∧ tree.lookup p.dropLast = some .dir ∧ p ∉ tree ∧
    tree.keys.card < ramfsMaxNodes))

/-- Create an entry at a path, if it denotes one and can be created. -/
def treeCreate (tree : Tree) (path : Option (List (List UInt8))) (isDir : Bool) : Bool × Tree :=
  match path with
  | none => (false, tree)
  | some p => if CanCreate tree p then (true, tree.insert p (newEntry isDir)) else (false, tree)

/-! ## Tables that hold a tree -/

/-- What a node is in the tree. -/
def entryOf (node : RamfsNode) : TreeEntry :=
  if node.isDir then .dir else .file (contents node)

theorem isDir_entryOf (node : RamfsNode) : (entryOf node).isDir = node.isDir := by
  unfold entryOf
  cases node.isDir <;> rfl

/-- The nodes in use. -/
def usedNodes (t : RamfsTable) : List Nat :=
  (List.range ramfsMaxNodes).filter fun i => (t i).used

/-- Each used node is listed at its path, and the paths tabulate the tree. -/
structure HoldsTree (t : RamfsTable) (kids : Nat → List Nat) (path : Nat → List (List UInt8))
    (tree : Tree) : Prop where
  nodes : NodesOk t kids
  listed : ∀ i, (t i).used = true → i ≠ 0 → ∃ d, i ∈ kids d
  path_root : path 0 = []
  path_kid : ∀ d, ∀ c ∈ kids d, path c = path d ++ [(t c).nameStr]
  size_le : ∀ i, (t i).used = true → (t i).size ≤ ramfsMaxContent
  dir_size : ∀ i, (t i).used = true → (t i).isDir = true → (t i).size = 0
  map : Tabulates (usedNodes t) path (fun i => entryOf (t i)) tree

theorem ramfsInit_holds : HoldsTree ramfsInit (fun _ => []) (fun _ => []) emptyTree := by
  have hused : ∀ i, (ramfsInit i).used = true → i = 0 := by
    intro i hi
    by_contra hne
    rw [ramfsInit, Function.update_of_ne hne] at hi
    exact absurd hi (by decide)
  have hlist : usedNodes ramfsInit = [0] := by decide
  refine ⟨ramfsInit_ok, fun i hi hne => absurd (hused i hi) hne, rfl,
    fun d c hc => absurd hc List.not_mem_nil, fun i hi => ?_, fun i hi _ => ?_, ?_⟩
  · rw [hused i hi]
    decide
  · rw [hused i hi]
    rfl
  · rw [hlist]
    exact @Tabulates.cons _ _ _ _ [] (fun _ => []) (fun i => entryOf (ramfsInit i)) ∅ .nil 0
      fun i hi => absurd hi List.not_mem_nil

section Holding

variable {t : RamfsTable} {kids : Nat → List Nat} {path : Nat → List (List UInt8)} {tree : Tree}

theorem HoldsTree.mem_used (h : HoldsTree t kids path tree) {i : Nat} :
    i ∈ usedNodes t ↔ (t i).used = true := by
  rw [usedNodes, List.mem_filter, List.mem_range]
  exact ⟨fun hi => hi.2, fun hi => ⟨h.nodes.used_lt i hi, hi⟩⟩

theorem HoldsTree.path_inj (h : HoldsTree t kids path tree) {i j : Nat}
    (hi : (t i).used = true) (hj : (t j).used = true) (hpath : path i = path j) : i = j :=
  h.map.inj (h.mem_used.mpr hi) (h.mem_used.mpr hj) hpath

theorem HoldsTree.lookup_path (h : HoldsTree t kids path tree) {i : Nat}
    (hi : (t i).used = true) : tree.lookup (path i) = some (entryOf (t i)) :=
  h.map.lookup_of_mem (h.mem_used.mpr hi)

theorem HoldsTree.lookup_none (h : HoldsTree t kids path tree) {p : List (List UInt8)}
    (hp : ∀ i, (t i).used = true → path i ≠ p) : tree.lookup p = none :=
  h.map.lookup_of_absent fun i hi => hp i (h.mem_used.mp hi)

/-- The parent of a node below another component of its path. -/
theorem HoldsTree.kid_of_path (h : HoldsTree t kids path tree) {p cs : List (List UInt8)}
    {c : List UInt8} : ∀ {j : Nat}, (t j).used = true → path j = p ++ c :: cs →
    ∃ d, ∃ k ∈ kids d, path d = p ∧ (t k).nameStr = c := by
  induction cs using List.reverseRecOn with
  | nil =>
      intro j hj hpath
      have hne : j ≠ 0 := by
        rintro rfl
        rw [h.path_root] at hpath
        simp at hpath
      obtain ⟨d, hd⟩ := h.listed j hj hne
      rw [h.path_kid d j hd] at hpath
      obtain ⟨hp, hc⟩ := List.append_inj' hpath rfl
      exact ⟨d, j, hd, hp, by simpa using hc⟩
  | append_singleton cs x ih =>
      intro j hj hpath
      have hne : j ≠ 0 := by
        rintro rfl
        rw [h.path_root] at hpath
        simp at hpath
      obtain ⟨d, hd⟩ := h.listed j hj hne
      rw [h.path_kid d j hd, ← List.cons_append, ← List.append_assoc] at hpath
      obtain ⟨hp, -⟩ := List.append_inj' hpath rfl
      exact ih (h.nodes.isDir_of_mem hd).1 hp

/-- Walking down components leads to the node at that path. -/
theorem HoldsTree.descend_cases (h : HoldsTree t kids path tree) :
    ∀ {comps : List (List UInt8)} {i : Nat}, (t i).used = true → (∀ c ∈ comps, 0 ∉ c) →
    (descend (fsLookup t) comps i (t i).isDir = none ∧
      ∀ j, (t j).used = true → path j ≠ path i ++ comps) ∨
    ∃ j, (t j).used = true ∧ path j = path i ++ comps ∧
      descend (fsLookup t) comps i (t i).isDir = some (j, (t j).isDir)
  | [], i, hi, _ => Or.inr ⟨i, hi, by rw [List.append_nil], rfl⟩
  | c :: comps, i, hi, hnul => by
      rw [descend]
      by_cases hdir : (t i).isDir = false
      · -- nothing is below a file
        rw [if_pos hdir]
        refine Or.inl ⟨rfl, fun j hj hpath => ?_⟩
        obtain ⟨d, k, hk, hd, -⟩ := h.kid_of_path hj hpath
        obtain rfl := h.path_inj (h.nodes.isDir_of_mem hk).1 hi hd
        rw [(h.nodes.isDir_of_mem hk).2] at hdir
        cases hdir
      · rw [if_neg hdir]
        have hi' : IsDir t i := ⟨hi, by simpa using hdir⟩
        rcases h.nodes.lookup_cases hi' (hnul c (List.mem_cons_self ..)) with
          ⟨hlookup, hall⟩ | ⟨k, hk, hname, hlookup⟩
        · rw [hlookup]
          refine Or.inl ⟨rfl, fun j hj hpath => ?_⟩
          obtain ⟨d, k, hk, hd, hname⟩ := h.kid_of_path hj hpath
          obtain rfl := h.path_inj (h.nodes.isDir_of_mem hk).1 hi hd
          exact hall k hk hname
        · rw [hlookup, Option.bind_some]
          have hpath := h.path_kid i k hk
          rw [hname] at hpath
          have ih := h.descend_cases (h.nodes.child i k hk).1
            fun c hc => hnul c (List.mem_cons_of_mem _ hc)
          rw [hpath, List.append_assoc] at ih
          exact ih

/-- Walking down from the root is a lookup in the tree. -/
theorem HoldsTree.descend_root (h : HoldsTree t kids path tree) {comps : List (List UInt8)}
    (hvalid : ∀ c ∈ comps, ValidSegment c) :
    (descend (fsLookup t) comps fsGetRoot true = none ∧ tree.lookup comps = none) ∨
    ∃ j, (t j).used = true ∧ path j = comps ∧ tree.lookup comps = some (entryOf (t j)) ∧
      descend (fsLookup t) comps fsGetRoot true = some (j, (t j).isDir) := by
  have hroot := h.nodes.root
  have hcases := h.descend_cases hroot.1 fun c hc => (hvalid c hc).no_nul
  rw [hroot.2, h.path_root, List.nil_append] at hcases
  rcases hcases with ⟨hnone, hall⟩ | ⟨j, hj, hpath, hsome⟩
  · exact Or.inl ⟨hnone, h.lookup_none hall⟩
  · refine Or.inr ⟨j, hj, hpath, ?_, hsome⟩
    rw [← hpath]
    exact h.lookup_path hj

/-- The table is full exactly when the tree is. -/
theorem HoldsTree.full_iff (h : HoldsTree t kids path tree) :
    (∀ i < ramfsMaxNodes, (t i).used = true) ↔ ¬ tree.keys.card < ramfsMaxNodes := by
  rw [h.map.card_keys]
  have hle : (usedNodes t).length ≤ ramfsMaxNodes := by
    have hlen := (List.filter_sublist (p := fun i => (t i).used)
      (l := List.range ramfsMaxNodes)).length_le
    rwa [List.length_range] at hlen
  constructor
  · intro hfull hlt
    have hall : usedNodes t = List.range ramfsMaxNodes :=
      List.filter_eq_self.mpr fun i hi => hfull i (List.mem_range.mp hi)
    rw [hall, List.length_range] at hlt
    exact Nat.lt_irrefl _ hlt
  · intro hlt i hi
    have heq : usedNodes t = List.range ramfsMaxNodes := by
      refine (List.filter_sublist (p := fun i => (t i).used)).eq_of_length ?_
      rw [List.length_range]
      exact Nat.le_antisymm hle (Nat.not_lt.mp hlt)
    exact h.mem_used.mp (heq ▸ List.mem_range.mpr hi)

/-! ## Creating -/

/-- A new node is a new path with an empty entry. -/
theorem HoldsTree.created (h : HoldsTree t kids path tree) {dir idx : Nat} {isDir : Bool}
    {name : List UInt8} {copied : Buffer ramfsMaxName} (hdir : IsDir t dir)
    (hall : ∀ c ∈ kids dir, (t c).nameStr ≠ name) (hgood : RamfsName name)
    (hidx : idx < ramfsMaxNodes) (hfree : (t idx).used = false) (hstr : copied.str = name)
    (hmem : 0 ∈ copied.bytes) :
    HoldsTree (linkNew t idx copied isDir dir) (Function.update kids dir (idx :: kids dir))
      (Function.update path idx (path dir ++ [name]))
      (tree.insert (path dir ++ [name]) (newEntry isDir)) := by
  subst hstr
  have hne : idx ≠ dir := (ne_of_free hdir.1 hfree).symm
  have hused : ∀ i, (t i).used = true → i ≠ idx := fun i hi => ne_of_free hi hfree
  have hself := @linkNew_self t _ _ copied isDir hne
  have hkeep := fun i (hi : i ≠ idx) => @linkNew_keeps t _ dir copied isDir _ hi
  have hpath : ∀ i, i ≠ idx → Function.update path idx (path dir ++ [copied.str]) i = path i :=
    fun i hi => Function.update_of_ne hi ..
  have hpathIdx : Function.update path idx (path dir ++ [copied.str]) idx
      = path dir ++ [copied.str] := Function.update_self ..
  have husedNew : ∀ i, (linkNew t idx copied isDir dir i).used = true ↔
      i = idx ∨ (t i).used = true := by
    intro i
    by_cases hi : i = idx
    · rw [hi, hself]
      exact iff_of_true rfl (Or.inl rfl)
    · rcases hkeep i hi with heq | heq <;> rw [heq] <;>
        exact ⟨Or.inr, fun hor => hor.resolve_left hi⟩
  refine ⟨h.nodes.created hdir hidx hfree hgood.1 hmem hall, fun i hi hi0 => ?_, ?_,
    fun d c hc => ?_, fun i hi => ?_, fun i hi hisdir => ?_, ?_⟩
  · rcases (husedNew i).mp hi with rfl | hi
    · exact ⟨dir, mem_linkedKids.mpr (Or.inl ⟨rfl, rfl⟩)⟩
    · obtain ⟨d, hd⟩ := h.listed i hi hi0
      exact ⟨d, mem_linkedKids.mpr (Or.inr hd)⟩
  · rw [hpath 0 (hused 0 h.nodes.root.1).symm.symm]
    exact h.path_root
  · rcases mem_linkedKids.mp hc with ⟨rfl, rfl⟩ | hc'
    · rw [hpathIdx, hpath d hne.symm, hself]
      rfl
    · have hci := hused c (h.nodes.child d c hc').1
      rw [hpath c hci, hpath d (hused d (h.nodes.isDir_of_mem hc').1), h.path_kid d c hc']
      rcases hkeep c hci with heq | heq
      · rw [heq]
      · rw [heq]
        rfl
  · by_cases hi' : i = idx
    · rw [hi', hself]
      exact Nat.zero_le _
    · have hold := h.size_le i (((husedNew i).mp hi).resolve_left hi')
      rcases hkeep i hi' with heq | heq <;> rw [heq] <;> exact hold
  · by_cases hi' : i = idx
    · rw [hi', hself]
      rfl
    · have hold := h.dir_size i (((husedNew i).mp hi).resolve_left hi')
      rcases hkeep i hi' with heq | heq <;> rw [heq] at hisdir ⊢ <;> exact hold hisdir
  · have hentry : ∀ i, i ≠ idx → entryOf (linkNew t idx copied isDir dir i) = entryOf (t i) := by
      intro i hi
      rcases hkeep i hi with heq | heq
      · rw [heq]
      · rw [heq]
        rfl
    have hentryIdx : entryOf (linkNew t idx copied isDir dir idx) = newEntry isDir := by
      rw [hself]
      cases isDir <;> rfl
    have hkeys : Tabulates (usedNodes t) (Function.update path idx (path dir ++ [copied.str]))
        (fun i => entryOf (linkNew t idx copied isDir dir i)) tree :=
      h.map.congr (fun i hi => hpath i (hused i (h.mem_used.mp hi)))
        fun i hi => hentry i (hused i (h.mem_used.mp hi))
    have hmap := hkeys.cons (j := idx) fun i hi => by
      have hiused := h.mem_used.mp hi
      rw [hpathIdx, hpath i (hused i hiused)]
      intro hsame
      obtain ⟨d, k, hk, hd, hname⟩ := @HoldsTree.kid_of_path _ _ _ _ h _ [] _ _ hiused hsame
      obtain rfl := h.path_inj (h.nodes.isDir_of_mem hk).1 hdir.1 hd
      exact hall k hk hname
    rw [hpathIdx, hentryIdx] at hmap
    have hnodup : (usedNodes t).Nodup := List.nodup_range.filter _
    have hnew : idx ∉ usedNodes t := fun hmemIdx => hused idx (h.mem_used.mp hmemIdx) rfl
    refine hmap.perm ((List.perm_ext_iff_of_nodup (List.nodup_cons.mpr ⟨hnew, hnodup⟩)
      (List.nodup_range.filter _)).mpr fun i => ?_)
    rw [List.mem_cons, h.mem_used, List.mem_filter, List.mem_range, husedNew]
    refine ⟨fun hor => ⟨?_, hor⟩, fun hor => hor.2⟩
    rcases hor with rfl | hi
    · exact hidx
    · exact h.nodes.used_lt i hi

/-- A call that changes no used node leaves the tree. -/
theorem HoldsTree.unchanged (h : HoldsTree t kids path tree) {t' : RamfsTable}
    (hsame : Unchanged t t') : HoldsTree t' kids path tree := by
  have hused : ∀ i, (t' i).used = (t i).used := by
    intro i
    rcases hsame i with heq | ⟨h1, h2⟩
    · rw [heq]
    · rw [h1, h2]
  have heq : ∀ i, (t i).used = true → t' i = t i := fun i hi => hsame.eq_of_used hi
  have hlist : usedNodes t' = usedNodes t := List.filter_congr fun i _ => hused i
  refine ⟨h.nodes.unchanged hsame, fun i hi => h.listed i (by rw [← hused]; exact hi),
    h.path_root, fun d c hc => ?_, fun i hi => ?_, fun i hi hdir => ?_, ?_⟩
  · rw [heq c (h.nodes.child d c hc).1]
    exact h.path_kid d c hc
  · rw [hused] at hi
    rw [heq i hi]
    exact h.size_le i hi
  · rw [hused] at hi
    rw [heq i hi] at hdir ⊢
    exact h.dir_size i hi hdir
  · rw [hlist]
    exact h.map.congr (fun i _ => rfl) fun i hi => by rw [heq i (h.mem_used.mp hi)]

/-- A file with other bytes. -/
theorem HoldsTree.setFile (h : HoldsTree t kids path tree) {i : Nat} (hi : (t i).used = true)
    (hfile : (t i).isDir = false) {node : RamfsNode} (hlinks : SameLinks node (t i))
    (hsize : node.size ≤ ramfsMaxContent) :
    HoldsTree (Function.update t i node) kids path
      (tree.insert (path i) (.file (contents node))) := by
  have hlinksAll : ∀ j, SameLinks (Function.update t i node j) (t j) := by
    intro j
    by_cases hji : j = i
    · rw [hji, Function.update_self]
      exact hlinks
    · rw [Function.update_of_ne hji]
      exact .refl _
  have hlist : usedNodes (Function.update t i node) = usedNodes t :=
    List.filter_congr fun j _ => (hlinksAll j).used
  refine ⟨h.nodes.congr fun j => Or.inl (hlinksAll j),
    fun j hj => h.listed j (by rw [← (hlinksAll j).used]; exact hj), h.path_root,
    fun d c hc => ?_, fun j hj => ?_, fun j hj hdir => ?_, ?_⟩
  · rw [(hlinksAll c).nameStr]
    exact h.path_kid d c hc
  · by_cases hji : j = i
    · rw [hji, Function.update_self]
      exact hsize
    · rw [Function.update_of_ne hji] at hj ⊢
      exact h.size_le j hj
  · have hji : j ≠ i := by
      rintro rfl
      rw [(hlinksAll j).isDir, hfile] at hdir
      cases hdir
    rw [Function.update_of_ne hji] at hj hdir ⊢
    exact h.dir_size j hj hdir
  · have hentry : entryOf (Function.update t i node i) = .file (contents node) := by
      rw [Function.update_self, entryOf, hlinks.isDir, if_neg (by rw [hfile]; decide)]
    rw [hlist, ← hentry]
    refine @Tabulates.set _ _ _ _ _ _ _ (fun j => entryOf (Function.update t i node j)) _ h.map _
      (h.mem_used.mpr hi) fun j _ hji => ?_
    rw [Function.update_of_ne hji]

/-- `fs_create` of a valid name in the node at `p`. -/
theorem HoldsTree.fsCreate (h : HoldsTree t kids path tree) {i : Nat} (hi : (t i).used = true)
    {name : List UInt8} (hname : ValidSegment name) (isDir : Bool) :
    ((fsCreate t i name isDir).1 = 0 ∧ CanCreate tree (path i ++ [name]) ∧
      ∃ kids' path', HoldsTree (fsCreate t i name isDir).2 kids' path'
          (tree.insert (path i ++ [name]) (newEntry isDir)) ∧
        ∀ j, (t j).used = true → path' j = path j ∧ (fsCreate t i name isDir).2 j
          = { t j with firstChild := ((fsCreate t i name isDir).2 j).firstChild }) ∨
    ((fsCreate t i name isDir).1 < 0 ∧ ¬ CanCreate tree (path i ++ [name]) ∧
      Unchanged t (fsCreate t i name isDir).2) := by
  have hlookup := h.lookup_path hi
  unfold CanCreate Fs.fsCreate
  rw [List.dropLast_concat, hlookup]
  by_cases hdir : (t i).isDir = true
  · have hi' : IsDir t i := ⟨hi, hdir⟩
    have hnd : ¬ notDir t i := h.nodes.notDir_iff hi'
    have houtcome := h.nodes.create_outcome hi' hname.no_nul isDir
    have hgood : RamfsName name := ⟨hname.ne_nil, hname.length_lt⟩
    have hpresent : ∀ {c : Nat}, c ∈ kids i → (t c).nameStr = name → path i ++ [name] ∈ tree := by
      intro c hc hcname
      have hpath := h.path_kid i c hc
      rw [hcname] at hpath
      rw [← hpath]
      exact Finmap.mem_of_lookup_eq_some (h.lookup_path (h.nodes.child i c hc).1)
    have habsent : (∀ c ∈ kids i, (t c).nameStr ≠ name) → path i ++ [name] ∉ tree := by
      intro hall hmem
      rw [h.map.mem_iff] at hmem
      obtain ⟨j, hj, hpath⟩ := hmem
      obtain ⟨d, k, hk, hd, hkname⟩ := @HoldsTree.kid_of_path _ _ _ _ h _ [] _ _ (h.mem_used.mp hj) hpath
      obtain rfl := h.path_inj (h.nodes.isDir_of_mem hk).1 hi hd
      exact hall k hk hkname
    rw [if_neg hnd]
    generalize nodeCreateChild t i name isDir = r at houtcome
    cases houtcome with
    | present hc hcname =>
        exact Or.inr ⟨by simp, fun hcan => hcan.2.2.1 (hpresent hc hcname), .refl t⟩
    | full hall hfull =>
        exact Or.inr ⟨by simp, fun hcan => h.full_iff.mp hfull hcan.2.2.2, .refl t⟩
    | badName _ hbad _ _ _ => exact absurd hgood hbad
    | @created idx copied hall _ hidx hfree hstr hmem =>
        have hroom : tree.keys.card < ramfsMaxNodes := by
          by_contra hfull
          have hused := h.full_iff.mpr hfull idx hidx
          rw [hused] at hfree
          cases hfree
        refine Or.inl ⟨by simp, ⟨by simp, by rw [entryOf, if_pos hdir], habsent hall,
          hroom⟩, _, _, h.created hi' hall hgood hidx hfree hstr hmem, fun j hj => ?_⟩
        have hji : j ≠ idx := ne_of_free hj hfree
        refine ⟨Function.update_of_ne hji .., ?_⟩
        rcases @linkNew_keeps t _ i copied isDir _ hji with
          heq | heq <;> simp only [heq]
  · have hfile : (t i).isDir = false := by simpa using hdir
    rw [if_pos (show notDir t i from Or.inr hfile)]
    refine Or.inr ⟨by simp, fun hcan => ?_, .refl t⟩
    have hentry := hcan.2.1
    rw [entryOf, if_neg hdir] at hentry
    cases hentry

end Holding

end RoninOS.Fs
