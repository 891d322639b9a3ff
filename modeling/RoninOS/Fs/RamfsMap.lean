/-
RoninOS.Fs.RamfsMap — the calls on names of the root directory as a bounded
map.

Without the VFS the root directory holds only files, each with a text of at
most 511 bytes. `ShowsMap` says what the calls that read return for a map from
names to texts, and `LegacyOk` that the table holds that map. `ramfs_touch`,
`ramfs_write` and `ramfs_remove` are `mapTouch`, `mapWrite` and `mapRemove`
(`LegacyOk.step`), so after every sequence of them the table shows the map
that the same sequence builds (`ramfs_refines_map`).
-/
import RoninOS.Fs.RamfsFiles
import RoninOS.Lib.Tabulated

namespace RoninOS.Fs

open RoninOS.Lib

/-! ## The map -/

/-- Names and their texts. -/
abbrev FileMap := Finmap fun _ : List UInt8 => List UInt8

/-- The names the table has room for beside the root. -/
def maxFiles : Nat := ramfsMaxNodes - 1

/-- The longest text. -/
def maxText : Nat := ramfsMaxContent - 1

/-- Add a name with an empty text unless it is there. -/
def mapTouch (m : FileMap) (name : List UInt8) : Bool × FileMap :=
  if name ∈ m then (true, m)
  else if RamfsName name ∧ m.keys.card < maxFiles then (true, m.insert name [])
  else (false, m)

/-- Set the text of a name, or append to it. -/
def mapWrite (m : FileMap) (name text : List UInt8) (append : Bool) : Bool × FileMap :=
  let (found, m) := mapTouch m name
  if found then
    let old := if append then (m.lookup name).getD [] else []
    (true, m.insert name ((old ++ text).take maxText))
  else (false, m)

/-- Erase a name. -/
def mapRemove (m : FileMap) (name : List UInt8) : Bool × FileMap :=
  if name ∈ m then (true, m.erase name) else (false, m)

/-! ## Runs -/

/-- A call that changes the table. -/
inductive LegacyOp
  | touch (name : CString)
  | write (name : CString) (text : Option CString) (append : Bool)
  | remove (name : CString)

/-- A call: whether it returns 0, and the table. -/
def legacyStep (t : RamfsTable) : LegacyOp → Option (Bool × RamfsTable)
  | .touch name =>
      let (ret, t) := ramfsTouch t name.bytes
      some (ret = 0, t)
  | .write name text append =>
      (ramfsWrite t name.bytes (text.map (·.bytes)) append).map fun (ret, t) => (ret = 0, t)
  | .remove name =>
      let (ret, t) := ramfsRemove t name.bytes
      some (ret = 0, t)

/-- The same call on a map. -/
def mapStep (m : FileMap) : LegacyOp → Bool × FileMap
  | .touch name => mapTouch m name.bytes
  | .write name text append => mapWrite m name.bytes ((text.map (·.bytes)).getD []) append
  | .remove name => mapRemove m name.bytes

/-- A sequence of calls and what they return. -/
def legacyRun : List LegacyOp → RamfsTable → Option (List Bool × RamfsTable)
  | [], t => some ([], t)
  | op :: ops, t =>
      (legacyStep t op).bind fun (done, t) =>
        (legacyRun ops t).map fun (rest, t) => (done :: rest, t)

/-- The same sequence on a map. -/
def mapRun : List LegacyOp → FileMap → List Bool × FileMap
  | [], m => ([], m)
  | op :: ops, m =>
      let (done, m) := mapStep m op
      let (rest, m) := mapRun ops m
      (done :: rest, m)

/-! ## What the table shows -/

/-- The calls that read return the names and texts of the map. -/
structure ShowsMap (t : RamfsTable) (m : FileMap) : Prop where
  card_le : m.keys.card ≤ maxFiles
  name_text : ∀ name text, m.lookup name = some text → RamfsName name ∧ text.length ≤ maxText
  read_absent : ∀ name : CString, m.lookup name.bytes = none → ramfsRead t name.bytes = none
  read_text : ∀ (name : CString) (text : List UInt8), m.lookup name.bytes = some text →
    ∃ data, ramfsRead t name.bytes = some (data, text.length) ∧ data.str = text ∧
      0 ∈ data.bytes
  count : ramfsCount t = m.keys.card
  /-- The entries below the count are the names, each once. -/
  entries : ∃ names : List (List UInt8), names.Nodup ∧ names.length = ramfsCount t ∧
    (∀ name, name ∈ names ↔ name ∈ m) ∧
    ∀ index, ramfsGetEntry t index =
      names[index]?.map fun name => (name, ((m.lookup name).getD []).length)

section Reading

variable {t : RamfsTable}

/-- `ramfs_count` counts the files of a list. -/
theorem countLoop_chain : ∀ {l : List Nat} {rounds n : Nat} {start : Int},
    Chain (fun i => (t i).nextSibling) start l → l.length < rounds →
    countLoop t rounds n start = some (n + (l.filter fun i => !(t i).isDir).length)
  | _, 0, _, _, _, hlen => absurd hlen (Nat.not_lt_zero _)
  | [], rounds + 1, n, start, hchain, _ => by
      rw [hchain.start_nil, countLoop]
      rfl
  | i :: l, rounds + 1, n, start, hchain, hlen => by
      obtain ⟨rfl, htail⟩ := hchain.start_cons
      rw [countLoop, if_neg (by omega), Int.toNat_natCast,
        countLoop_chain htail (Nat.lt_of_succ_lt_succ hlen), List.filter_cons]
      cases (t i).isDir with
      | true => rfl
      | false =>
          simp only [Bool.false_eq_true, if_false, Bool.not_false, if_true, List.length_cons]
          exact congrArg some (by omega)

/-- `ramfs_get_entry` finds the files of a list by their position. -/
theorem getEntryLoop_chain : ∀ {l : List Nat} {rounds curi index : Nat} {start : Int},
    Chain (fun i => (t i).nextSibling) start l → l.length < rounds → curi ≤ index →
    getEntryLoop t index rounds curi start
      = some ((l.filter fun i => !(t i).isDir)[index - curi]?)
  | _, 0, _, _, _, _, hlen, _ => absurd hlen (Nat.not_lt_zero _)
  | [], rounds + 1, curi, index, start, hchain, _, _ => by
      rw [hchain.start_nil, getEntryLoop]
      rfl
  | i :: l, rounds + 1, curi, index, start, hchain, hlen, hle => by
      obtain ⟨rfl, htail⟩ := hchain.start_cons
      have hlen' := Nat.lt_of_succ_lt_succ hlen
      rw [getEntryLoop, if_neg (by omega), Int.toNat_natCast, List.filter_cons]
      cases (t i).isDir with
      | true =>
          rw [if_pos rfl]
          exact getEntryLoop_chain htail hlen' hle
      | false =>
          simp only [Bool.false_eq_true, if_false, Bool.not_false, if_true]
          by_cases heq : curi = index
          · rw [if_pos heq, heq, Nat.sub_self]
            rfl
          · rw [if_neg heq, getEntryLoop_chain htail hlen' (by omega),
              show index - curi = index - (curi + 1) + 1 by omega, List.getElem?_cons_succ]

end Reading

/-! ## Tables that hold a map -/

/-- The root lists every other used node, all of them are files with a text,
and they tabulate the map. -/
structure LegacyOk (t : RamfsTable) (kids : Nat → List Nat) (m : FileMap) : Prop where
  nodes : NodesOk t kids
  flat : ∀ i, (t i).used = true → i = 0 ∨ i ∈ kids 0
  files : ∀ c ∈ kids 0, (t c).isDir = false ∧ IsText (t c)
  map : Tabulates (kids 0) (fun c => (t c).nameStr) (fun c => contents (t c)) m

theorem ramfsInit_legacyOk : LegacyOk ramfsInit (fun _ => []) ∅ where
  nodes := ramfsInit_ok
  flat i hi := by
    by_cases h0 : i = 0
    · exact Or.inl h0
    · rw [ramfsInit, Function.update_of_ne h0] at hi
      exact absurd hi (by decide)
  files c hc := absurd hc List.not_mem_nil
  map := .nil

section Holding

variable {t t' : RamfsTable} {kids : Nat → List Nat} {m : FileMap}

/-- Distinct nodes beside the root are at most 95. -/
theorem length_le_maxFiles {l : List Nat} (hl : (0 :: l).Nodup)
    (hlt : ∀ i ∈ l, i < ramfsMaxNodes) : l.length ≤ maxFiles := by
  have hsub : (0 :: l).toFinset ⊆ Finset.range ramfsMaxNodes := by
    intro i hi
    rcases List.mem_cons.mp (List.mem_toFinset.mp hi) with rfl | hi
    · decide
    · exact Finset.mem_range.mpr (hlt i hi)
  have hcard := Finset.card_le_card hsub
  rw [List.toFinset_card_of_nodup hl, Finset.card_range, List.length_cons] at hcard
  exact Nat.le_sub_one_of_lt hcard

theorem LegacyOk.root_cons (h : LegacyOk t kids m) : (0 :: kids 0).Nodup :=
  List.nodup_cons.mpr ⟨fun h0 => h.nodes.ne_root h0 rfl, h.nodes.nodup 0⟩

theorem LegacyOk.kid_lt (h : LegacyOk t kids m) {c : Nat} (hc : c ∈ kids 0) :
    c < ramfsMaxNodes :=
  h.nodes.used_lt c (h.nodes.child 0 c hc).1

/-- The map is full exactly when every node is in use. -/
theorem LegacyOk.full_iff (h : LegacyOk t kids m) :
    (∀ i < ramfsMaxNodes, (t i).used = true) ↔ ¬ m.keys.card < maxFiles := by
  rw [h.map.card_keys, Nat.not_lt]
  constructor
  · intro hfull
    have hsub : Finset.range ramfsMaxNodes ⊆ (0 :: kids 0).toFinset := by
      intro i hi
      rw [List.mem_toFinset, List.mem_cons]
      exact h.flat i (hfull i (Finset.mem_range.mp hi))
    have hcard := Finset.card_le_card hsub
    rw [List.toFinset_card_of_nodup h.root_cons, Finset.card_range, List.length_cons] at hcard
    exact Nat.sub_le_of_le_add hcard
  · intro hle i hi
    by_contra hfree
    have hnot : i ∉ 0 :: kids 0 := by
      intro hmem
      rcases List.mem_cons.mp hmem with rfl | hmem
      · exact hfree h.nodes.root.1
      · exact hfree (h.nodes.child 0 i hmem).1
    have hlen := length_le_maxFiles (l := i :: kids 0)
      (List.nodup_cons.mpr ⟨fun h0 => ?_, List.nodup_cons.mpr
        ⟨fun hmem => hnot (List.mem_cons_of_mem _ hmem), h.nodes.nodup 0⟩⟩) fun j hj => ?_
    · rw [List.length_cons] at hlen
      omega
    · rcases List.mem_cons.mp h0 with h0 | h0
      · exact hnot (h0 ▸ List.mem_cons_self ..)
      · exact h.nodes.ne_root h0 rfl
    · rcases List.mem_cons.mp hj with rfl | hj
      · exact hi
      · exact h.kid_lt hj

/-- A call that changes no used node leaves the map. -/
theorem LegacyOk.unchanged (h : LegacyOk t kids m) (hsame : Unchanged t t') :
    LegacyOk t' kids m := by
  have hkid : ∀ c ∈ kids 0, t' c = t c := fun c hc =>
    hsame.eq_of_used (h.nodes.child 0 c hc).1
  refine ⟨h.nodes.unchanged hsame, fun i hi => ?_, fun c hc => ?_,
    h.map.congr (fun c hc => by rw [hkid c hc]) fun c hc => by rw [hkid c hc]⟩
  · rcases hsame i with heq | ⟨-, hfree⟩
    · exact h.flat i (by rw [← heq]; exact hi)
    · rw [hfree] at hi
      cases hi
  · rw [hkid c hc]
    exact h.files c hc

/-- A new file in the root is a new name with an empty text. -/
theorem LegacyOk.created (h : LegacyOk t kids m) {name : List UInt8} {idx : Nat}
    {copied : Buffer ramfsMaxName} (hall : ∀ c ∈ kids 0, (t c).nameStr ≠ name)
    (hgood : RamfsName name) (hidx : idx < ramfsMaxNodes) (hfree : (t idx).used = false)
    (hstr : copied.str = name) (hmem : 0 ∈ copied.bytes) :
    LegacyOk (linkNew t idx copied false 0) (Function.update kids 0 (idx :: kids 0))
      (m.insert name []) := by
  subst hstr
  have hne : idx ≠ 0 := (ne_of_free h.nodes.root.1 hfree).symm
  have hself := @linkNew_self t _ _ copied false hne
  have hkid : ∀ c ∈ kids 0, linkNew t idx copied false 0 c = t c := by
    intro c hc
    exact linkNew_of_ne (ne_of_free (h.nodes.child 0 c hc).1 hfree) (h.nodes.ne_root hc)
  have hmap : Tabulates (kids 0) (fun c => (linkNew t idx copied false 0 c).nameStr)
      (fun c => contents (linkNew t idx copied false 0 c)) m :=
    h.map.congr (fun c hc => by rw [hkid c hc]) fun c hc => by rw [hkid c hc]
  have hname : (linkNew t idx copied false 0 idx).nameStr = copied.str := by rw [hself]; rfl
  have hcontents : contents (linkNew t idx copied false 0 idx) = [] := by rw [hself]; rfl
  refine ⟨h.nodes.created h.nodes.root hidx hfree hgood.1 hmem hall, fun i hi => ?_,
    fun c hc => ?_, ?_⟩
  · rw [Function.update_self]
    by_cases hidx : i = idx
    · exact Or.inr (hidx ▸ List.mem_cons_self ..)
    · rcases @linkNew_keeps t _ 0 copied false _ hidx with
        heq | heq <;> rw [heq] at hi <;>
        exact (h.flat i hi).imp id fun hmem => List.mem_cons_of_mem _ hmem
  · rw [Function.update_self] at hc
    rcases List.mem_cons.mp hc with rfl | hc
    · rw [hself]
      exact ⟨rfl, .empty rfl rfl⟩
    · rw [hkid c hc]
      exact h.files c hc
  · rw [Function.update_self]
    have hcons := hmap.cons (j := idx) fun c hc => by
      rw [hkid c hc, hname]
      exact hall c hc
    rw [hname, hcontents] at hcons
    exact hcons

/-- A file's text is replaced. -/
theorem LegacyOk.setText (h : LegacyOk t kids m) {c : Nat} {node : RamfsNode} (hc : c ∈ kids 0)
    (hlinks : SameLinks node (t c)) (htext : IsText node) :
    LegacyOk (Function.update t c node) kids (m.insert (t c).nameStr (contents node)) := by
  have hother : ∀ i, i ≠ c → Function.update t c node i = t i :=
    fun i hi => Function.update_of_ne hi ..
  have hself : Function.update t c node c = node := Function.update_self ..
  have hsame : ∀ i, SameLinks (Function.update t c node i) (t i) := by
    intro i
    by_cases hi : i = c
    · rw [hi, hself]
      exact hlinks
    · rw [hother i hi]
      exact .refl _
  refine ⟨h.nodes.congr fun i => Or.inl (hsame i), fun i hi => ?_, fun i hi => ?_, ?_⟩
  · exact h.flat i (by rw [← (hsame i).used]; exact hi)
  · rw [(hsame i).isDir]
    refine ⟨(h.files i hi).1, ?_⟩
    by_cases hic : i = c
    · rw [hic, hself]
      exact htext
    · rw [hother i hic]
      exact (h.files i hi).2
  · have hset := @Tabulates.set _ _ _ _ _ _ _ (fun i => contents (Function.update t c node i)) _
      h.map _ hc fun i _ hi => by rw [hother i hi]
    simp only [hself] at hset
    exact hset.congr (fun i _ => (hsame i).nameStr) fun i _ => rfl

/-- A removed file is an erased name. -/
theorem LegacyOk.removed (h : LegacyOk t kids m) {x : Nat} (hx : x ∈ kids 0)
    (hzero : t' x = zeroNode)
    (hkeep : ∀ i, i ≠ x → t' i = { t i with
      firstChild := (t' i).firstChild
      nextSibling := (t' i).nextSibling })
    (hok : NodesOk t' (removeKids kids x)) :
    LegacyOk t' (removeKids kids x) (m.erase (t x).nameStr) := by
  have hroot : removeKids kids x 0 = (kids 0).erase x := Function.update_self ..
  have hmem : ∀ c, c ∈ removeKids kids x 0 → c ∈ kids 0 ∧ c ≠ x := fun c hc =>
    ⟨((mem_removeKids h.nodes hx).mp hc).1, ((mem_removeKids h.nodes hx).mp hc).2.1⟩
  refine ⟨hok, fun i hi => ?_, fun c hc => ?_, ?_⟩
  · have hix : i ≠ x := by
      rintro rfl
      rw [hzero] at hi
      exact absurd hi (by decide)
    rw [hkeep i hix] at hi
    refine (h.flat i hi).imp id fun hmem => ?_
    exact (mem_removeKids h.nodes hx).mpr ⟨hmem, hix, (h.nodes.ne_root hx).symm⟩
  · obtain ⟨hc, hcx⟩ := hmem c hc
    obtain ⟨hfile, htext⟩ := h.files c hc
    rw [hkeep c hcx]
    exact ⟨hfile, htext.1, htext.2, htext.3⟩
  · rw [hroot]
    refine (h.map.erase hx).congr (fun c hc => ?_) fun c hc => ?_ <;>
      rw [hkeep c (hmem c (hroot ▸ hc)).2] <;> rfl

/-! ## Steps -/

theorem LegacyOk.not_mem (h : LegacyOk t kids m) {name : List UInt8}
    (hall : ∀ c ∈ kids 0, (t c).nameStr ≠ name) : name ∉ m := by
  rw [h.map.mem_iff]
  rintro ⟨c, hc, hname⟩
  exact hall c hc hname

/-- `ramfs_touch` is `mapTouch`; where it succeeds, the map has the name. -/
theorem LegacyOk.touch (h : LegacyOk t kids m) {name : List UInt8} (hnul : 0 ∉ name) :
    decide ((ramfsTouch t name).1 = 0) = (mapTouch m name).1 ∧
    ((mapTouch m name).1 = false → (ramfsTouch t name).1 < 0) ∧
    ∃ kids', LegacyOk (ramfsTouch t name).2 kids' (mapTouch m name).2 := by
  have houtcome := h.nodes.touch_outcome hnul
  generalize ramfsTouch t name = r at houtcome
  unfold mapTouch
  cases houtcome with
  | present hc hname =>
      rw [if_pos (h.map.mem_iff.mpr ⟨_, hc, hname⟩)]
      exact ⟨rfl, fun hno => (Bool.noConfusion hno), kids, h⟩
  | @refused ret t' hall hret hwhy hsame =>
      have hno : ¬ (RamfsName name ∧ m.keys.card < maxFiles) := by
        rintro ⟨hgood, hroom⟩
        rcases hwhy with hbad | hfull
        · exact hbad hgood
        · exact h.full_iff.mp hfull hroom
      rw [if_neg (h.not_mem hall), if_neg hno]
      exact ⟨decide_eq_false (by simp only; omega), fun _ => hret, kids, h.unchanged hsame⟩
  | created hall hgood hidx hfree hstr hmem =>
      have hroom : m.keys.card < maxFiles := by
        by_contra hfull
        have hused := h.full_iff.mpr hfull _ hidx
        rw [hused] at hfree
        cases hfree
      rw [if_neg (h.not_mem hall), if_pos ⟨hgood, hroom⟩]
      exact ⟨rfl, fun hno => (Bool.noConfusion hno), _,
        h.created hall hgood hidx hfree hstr hmem⟩

theorem mem_mapTouch {name : List UInt8} (hok : (mapTouch m name).1 = true) :
    name ∈ (mapTouch m name).2 := by
  unfold mapTouch at hok ⊢
  by_cases hmem : name ∈ m
  · rw [if_pos hmem]
    exact hmem
  · rw [if_neg hmem] at hok ⊢
    by_cases hroom : RamfsName name ∧ m.keys.card < maxFiles
    · rw [if_pos hroom]
      exact Finmap.mem_insert.mpr (Or.inl rfl)
    · rw [if_neg hroom] at hok
      cases hok

/-- `ramfs_write` is `mapWrite`, and never copies past the array. -/
theorem LegacyOk.write (h : LegacyOk t kids m) {name : List UInt8} (hnul : 0 ∉ name)
    {text : Option (List UInt8)} (htext : 0 ∉ text.getD []) (append : Bool) :
    ∃ ret t' kids', ramfsWrite t name text append = some (ret, t') ∧
      decide (ret = 0) = (mapWrite m name (text.getD []) append).1 ∧
      LegacyOk t' kids' (mapWrite m name (text.getD []) append).2 := by
  obtain ⟨hret, hfail, kids₁, h₁⟩ := h.touch hnul
  unfold mapWrite
  by_cases hfound : (mapTouch m name).1 = true
  · have hzero : (ramfsTouch t name).1 = 0 := of_decide_eq_true (hret.trans hfound)
    obtain ⟨c, hc, hname⟩ := h₁.map.mem_iff.mp (mem_mapTouch hfound)
    have hfind := h₁.nodes.find_eq hc
    rw [hname] at hfind
    have hlookup := h₁.map.lookup_of_mem hc
    rw [hname] at hlookup
    have hisText := (h₁.files c hc).2
    simp only [hfound, if_true, hlookup, Option.getD_some]
    rw [ramfsWrite_found text append (Prod.ext hzero rfl) hfind]
    generalize hoff : (if append = true then ((ramfsTouch t name).2 c).size else 0) = off
    obtain ⟨node, hnode, hnodeText, hcontents⟩ := @writeText_spec _ hisText _ off
      (by rw [← hoff]; split <;> omega) htext
    have hold : (contents ((ramfsTouch t name).2 c)).take off
        = if append = true then contents ((ramfsTouch t name).2 c) else [] := by
      have hlen := length_contents (Nat.le_of_lt hisText.size_lt)
      rw [← hoff]
      cases append with
      | true => exact List.take_of_length_le (by rw [if_pos rfl]; omega)
      | false => rfl
    have hset := h₁.setText hc (writeText_links hnode) hnodeText
    rw [hname, hcontents, hold] at hset
    exact ⟨0, _, kids₁, by rw [hnode]; rfl, rfl, hset⟩
  · have hno : (mapTouch m name).1 = false := by simpa using hfound
    simp only [hno, Bool.false_eq_true, if_false]
    exact ⟨-1, _, kids₁, ramfsWrite_refused text append (hfail hno), rfl, h₁⟩

/-- `ramfs_remove` is `mapRemove`. -/
theorem LegacyOk.remove (h : LegacyOk t kids m) {name : List UInt8} (hnul : 0 ∉ name) :
    decide ((ramfsRemove t name).1 = 0) = (mapRemove m name).1 ∧
    ∃ kids', LegacyOk (ramfsRemove t name).2 kids' (mapRemove m name).2 := by
  have houtcome := h.nodes.remove_outcome hnul
  generalize ramfsRemove t name = r at houtcome
  unfold mapRemove
  cases houtcome with
  | absent hall =>
      rw [if_neg (h.not_mem hall)]
      exact ⟨rfl, kids, h⟩
  | removed hx hname hzero hkeep hok =>
      rw [if_pos (h.map.mem_iff.mpr ⟨_, hx, hname⟩), ← hname]
      exact ⟨rfl, _, h.removed hx hzero hkeep hok⟩

/-- A call on the table is the call on the map. -/
theorem LegacyOk.step (h : LegacyOk t kids m) (op : LegacyOp) :
    ∃ t' kids', legacyStep t op = some ((mapStep m op).1, t') ∧ LegacyOk t' kids' (mapStep m op).2 := by
  cases op with
  | touch name =>
      obtain ⟨hret, -, kids', hok⟩ := h.touch name.noNul
      exact ⟨_, kids', congrArg some (Prod.ext hret rfl), hok⟩
  | write name text append =>
      have htext : 0 ∉ (text.map (·.bytes)).getD [] := by
        cases text with
        | none => exact List.not_mem_nil
        | some s => exact s.noNul
      obtain ⟨ret, t', kids', hwrite, hret, hok⟩ := h.write name.noNul htext append
      exact ⟨t', kids', by rw [legacyStep, hwrite]; exact congrArg some (Prod.ext hret rfl), hok⟩
  | remove name =>
      obtain ⟨hret, kids', hok⟩ := h.remove name.noNul
      exact ⟨_, kids', congrArg some (Prod.ext hret rfl), hok⟩

/-- A sequence of calls on the table is the sequence on the map. -/
theorem LegacyOk.run (ops : List LegacyOp) : ∀ {t : RamfsTable} {kids : Nat → List Nat}
    {m : FileMap}, LegacyOk t kids m → ∃ t' kids',
      legacyRun ops t = some ((mapRun ops m).1, t') ∧ LegacyOk t' kids' (mapRun ops m).2 := by
  induction ops with
  | nil => exact fun {t kids m} h => ⟨t, kids, rfl, h⟩
  | cons op ops ih =>
      intro t kids m h
      obtain ⟨t₁, kids₁, hstep, h₁⟩ := h.step op
      obtain ⟨t₂, kids₂, hrun, h₂⟩ := ih h₁
      refine ⟨t₂, kids₂, ?_, h₂⟩
      rw [legacyRun, hstep, Option.bind_some]
      simp only [hrun, Option.map_some]
      rfl

/-! ## Reading back -/

theorem LegacyOk.filter_files (h : LegacyOk t kids m) :
    (kids 0).filter (fun i => !(t i).isDir) = kids 0 :=
  List.filter_eq_self.mpr fun c hc => by rw [(h.files c hc).1]; rfl

theorem LegacyOk.count_eq (h : LegacyOk t kids m) : ramfsCount t = (kids 0).length := by
  rw [ramfsCount, countLoop_chain (h.nodes.chain 0 h.nodes.root) (h.nodes.length_lt 0),
    h.filter_files, Nat.zero_add, Option.getD_some]

theorem LegacyOk.getEntry_eq (h : LegacyOk t kids m) (index : Nat) :
    ramfsGetEntry t index = (kids 0)[index]?.map fun c => ((t c).nameStr, (t c).size) := by
  rw [ramfsGetEntry, getEntryLoop_chain (h.nodes.chain 0 h.nodes.root) (h.nodes.length_lt 0)
    (Nat.zero_le _), h.filter_files, Nat.sub_zero, Option.getD_some]

/-- `ramfs_read` of a file of the root. -/
theorem LegacyOk.read_eq (h : LegacyOk t kids m) {c : Nat} (hc : c ∈ kids 0) :
    ramfsRead t (t c).nameStr = some ((t c).data, (t c).size) := by
  unfold ramfsRead
  simp only [h.nodes.find_eq hc, Int.toNat_natCast]
  rw [if_neg (by omega), if_neg (by rw [(h.files c hc).1]; decide)]

/-- A table that holds a map shows it. -/
theorem LegacyOk.shows (h : LegacyOk t kids m) : ShowsMap t m where
  card_le := by
    rw [h.map.card_keys]
    exact length_le_maxFiles h.root_cons fun c hc => h.kid_lt hc
  name_text name text hlookup := by
    obtain ⟨c, hc, rfl, rfl⟩ := (h.map.lookup_iff _ _).mp hlookup
    have hsize := (h.files c hc).2.size_lt
    refine ⟨h.nodes.ramfsName hc, ?_⟩
    rw [length_contents (Nat.le_of_lt hsize)]
    exact Nat.le_sub_one_of_lt hsize
  read_absent name hlookup := by
    have hfind : nodeFindChild t 0 name.bytes = -1 := by
      rcases h.nodes.find_cases h.nodes.root name.noNul with ⟨hfind, -⟩ | ⟨c, hc, hname, -⟩
      · exact hfind
      · rw [← hname, h.map.lookup_of_mem hc] at hlookup
        cases hlookup
    unfold ramfsRead
    simp only [hfind]
    rw [if_pos (by decide)]
  read_text name text hlookup := by
    obtain ⟨c, hc, hname, rfl⟩ := (h.map.lookup_iff _ _).mp hlookup
    have htext := (h.files c hc).2
    have hlen := length_contents (Nat.le_of_lt htext.size_lt)
    refine ⟨(t c).data, ?_, htext.str_data, (t c).data.nul_mem_of_getD htext.size_lt htext.ends⟩
    rw [← hname, hlen]
    exact h.read_eq hc
  count := by rw [h.count_eq, h.map.card_keys]
  entries := by
    refine ⟨(kids 0).map fun c => (t c).nameStr, h.map.nodup, by rw [List.length_map, h.count_eq],
      fun name => by rw [List.mem_map, h.map.mem_iff], fun index => ?_⟩
    rw [h.getEntry_eq, List.getElem?_map, Option.map_map]
    cases hc : (kids 0)[index]? with
    | none => rfl
    | some c =>
        have hmem := List.mem_of_getElem? hc
        have hlookup := h.map.lookup_of_mem hmem
        simp only [Option.map_some, Function.comp_apply, hlookup, Option.getD_some,
          length_contents (Nat.le_of_lt (h.files c hmem).2.size_lt)]

end Holding

/-- After any sequence of calls from `ramfs_init` the returns are those of the
map and the table shows the map that the sequence builds. -/
theorem ramfs_refines_map (ops : List LegacyOp) :
    ∃ t, legacyRun ops ramfsInit = some ((mapRun ops ∅).1, t) ∧ ShowsMap t (mapRun ops ∅).2 := by
  obtain ⟨t, kids, hrun, hok⟩ := ramfsInit_legacyOk.run ops
  exact ⟨t, hrun, hok.shows⟩

end RoninOS.Fs
