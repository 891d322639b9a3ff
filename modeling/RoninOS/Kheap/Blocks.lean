/-
RoninOS.Kheap.Blocks — the block list as a list of cells.

A heap is a list of cells (a size and a free flag) laid out one behind the
other from a base address. `Linked` says that memory holds their headers: each
`next` is the block's end (or the given last pointer) and each `prev` is the
block before. `splitBlock` and `mergeNext` then replace one or two neighbouring
cells of the list, which is what `Linked.splitBlock` and `Linked.mergeNext` say;
no later proof looks at a header word again.

Headers sit at multiples of 16 and are 16 bytes long, so two of them are equal
or disjoint and every update has a one-line effect on `headerAt`.
-/
import RoninOS.Kheap.Heap

namespace RoninOS.Kheap

open RoninOS.Lib RoninOS.Mem

/-! ## Header updates -/

section Headers

variable {m : Mem} {a b v : Nat}

/-- A header depends on its own sixteen bytes only. -/
theorem headerAt_congr {m' : Mem} (h : ∀ k < 16, m' (b + k) = m (b + k)) :
    headerAt m' b = headerAt m b := by
  have hword : ∀ i, i ≤ 12 → ld32 m' (b + i) = ld32 m (b + i) := fun i hi =>
    ld32_congr fun k hk => by rw [Nat.add_assoc]; exact h (i + k) (by omega)
  simp only [headerAt, hword 4 (by decide), hword 8 (by decide), hword 12 (by decide),
    show ld32 m' b = ld32 m b from hword 0 (by decide)]

theorem headerAt_st32_of_ne {i : Nat} (ha : a % 16 = 0) (hb : b % 16 = 0) (hi : i ≤ 12)
    (hne : b ≠ a) : headerAt (st32 m (a + i) v) b = headerAt m b :=
  headerAt_congr fun _ _ => st32_of_disjoint m v (by omega)

theorem headerAt_setSize (ha : a % 16 = 0) (hb : b % 16 = 0) (hv : v < 2 ^ 32) :
    headerAt (setSize m a v) b = if b = a then { headerAt m a with size := v } else headerAt m b := by
  by_cases hba : b = a
  · subst hba
    rw [if_pos rfl]
    simp only [headerAt, setSize, ld32_st32_self m b hv,
      ld32_st32_of_disjoint m (a := b) (b := b + 4) v (by omega),
      ld32_st32_of_disjoint m (a := b) (b := b + 8) v (by omega),
      ld32_st32_of_disjoint m (a := b) (b := b + 12) v (by omega)]
  · rw [if_neg hba]
    exact headerAt_st32_of_ne (i := 0) ha hb (by decide) hba

theorem headerAt_setFree (ha : a % 16 = 0) (hb : b % 16 = 0) (hv : v < 2 ^ 32) :
    headerAt (setFree m a v) b = if b = a then { headerAt m a with free := v } else headerAt m b := by
  by_cases hba : b = a
  · subst hba
    rw [if_pos rfl]
    simp only [headerAt, setFree, ld32_st32_self m (b + 4) hv,
      ld32_st32_of_disjoint m (a := b + 4) (b := b) v (by omega),
      ld32_st32_of_disjoint m (a := b + 4) (b := b + 8) v (by omega),
      ld32_st32_of_disjoint m (a := b + 4) (b := b + 12) v (by omega)]
  · rw [if_neg hba]
    exact headerAt_st32_of_ne ha hb (by decide) hba

theorem headerAt_setNext (ha : a % 16 = 0) (hb : b % 16 = 0) (hv : v < 2 ^ 32) :
    headerAt (setNext m a v) b = if b = a then { headerAt m a with next := v } else headerAt m b := by
  by_cases hba : b = a
  · subst hba
    rw [if_pos rfl]
    simp only [headerAt, setNext, ld32_st32_self m (b + 8) hv,
      ld32_st32_of_disjoint m (a := b + 8) (b := b) v (by omega),
      ld32_st32_of_disjoint m (a := b + 8) (b := b + 4) v (by omega),
      ld32_st32_of_disjoint m (a := b + 8) (b := b + 12) v (by omega)]
  · rw [if_neg hba]
    exact headerAt_st32_of_ne ha hb (by decide) hba

theorem headerAt_setPrev (ha : a % 16 = 0) (hb : b % 16 = 0) (hv : v < 2 ^ 32) :
    headerAt (setPrev m a v) b = if b = a then { headerAt m a with prev := v } else headerAt m b := by
  by_cases hba : b = a
  · subst hba
    rw [if_pos rfl]
    simp only [headerAt, setPrev, ld32_st32_self m (b + 12) hv,
      ld32_st32_of_disjoint m (a := b + 12) (b := b) v (by omega),
      ld32_st32_of_disjoint m (a := b + 12) (b := b + 4) v (by omega),
      ld32_st32_of_disjoint m (a := b + 12) (b := b + 8) v (by omega)]
  · rw [if_neg hba]
    exact headerAt_st32_of_ne ha hb (by decide) hba

end Headers

/-! ## Cells -/

/-- A block without its address. -/
structure Cell where
  size : Nat
  free : Bool
  deriving DecidableEq, Repr

/-- The value of a `free` word. -/
def flag (free : Bool) : Nat := if free then 1 else 0

theorem flag_ne_zero {free : Bool} : flag free ≠ 0 ↔ free = true := by
  cases free <;> decide

theorem flag_lt (free : Bool) : flag free < 2 ^ 32 := by
  cases free <;> decide

/-- The bytes a list of cells takes up, headers included. -/
def span (cells : List Cell) : Nat := (cells.map fun c => blockOverhead + c.size).sum

@[simp] theorem span_nil : span [] = 0 := rfl

@[simp] theorem span_cons (c : Cell) (cs : List Cell) :
    span (c :: cs) = blockOverhead + c.size + span cs := rfl

@[simp] theorem span_append (xs ys : List Cell) : span (xs ++ ys) = span xs + span ys := by
  simp [span]

/-- The address of the first of `cells` if they start at `a`, and `last` if
there is none. -/
def link (a : Nat) (cells : List Cell) (last : Nat) : Nat :=
  match cells with
  | [] => last
  | _ :: _ => a

/-- The address of the last cell, and `prev` if there is none. -/
def lastAddr (prev a : Nat) : List Cell → Nat
  | [] => prev
  | c :: cs => lastAddr a (a + blockOverhead + c.size) cs

@[simp] theorem lastAddr_concat (d : Cell) : ∀ (cells : List Cell) (prev a : Nat),
    lastAddr prev a (cells ++ [d]) = a + span cells
  | [], _, _ => rfl
  | c :: cs, prev, a => by
      rw [List.cons_append, lastAddr, lastAddr_concat d cs, span_cons]
      omega

/-- Memory holds the headers of `cells` from `a` on; the block before is `prev`
and the block behind is `last`. -/
def Linked (m : Mem) (last : Nat) : Nat → Nat → List Cell → Prop
  | _, _, [] => True
  | prev, a, c :: cs =>
      headerAt m a = ⟨c.size, flag c.free, link (a + blockOverhead + c.size) cs last, prev⟩ ∧
      Linked m last a (a + blockOverhead + c.size) cs

/-- Every size is a multiple of 16. -/
def Aligned (cells : List Cell) : Prop := ∀ c ∈ cells, c.size % 16 = 0

theorem Aligned.span {cells : List Cell} (h : Aligned cells) : span cells % 16 = 0 := by
  induction cells with
  | nil => rfl
  | cons c cs ih =>
      have hc := h c (by simp)
      have hcs := ih fun d hd => h d (by simp [hd])
      rw [span_cons, blockOverhead]
      omega

theorem linked_append {m : Mem} {last : Nat} : ∀ {xs ys : List Cell} {prev a : Nat},
    Linked m last prev a (xs ++ ys) ↔
      Linked m (link (a + span xs) ys last) prev a xs ∧
      Linked m last (lastAddr prev a xs) (a + span xs) ys
  | [], ys, prev, a => by simp [Linked, lastAddr]
  | x :: xs, ys, prev, a => by
      have hlink : link (a + blockOverhead + x.size) (xs ++ ys) last
          = link (a + blockOverhead + x.size) xs (link (a + span (x :: xs)) ys last) := by
        cases xs with
        | nil => simp [link, Nat.add_assoc]
        | cons x' xs => rfl
      have hspan : a + span (x :: xs) = a + blockOverhead + x.size + span xs := by
        rw [span_cons]
        omega
      rw [List.cons_append, Linked, Linked, linked_append, hlink, hspan, and_assoc, lastAddr]

/-- The headers of a stretch depend on the headers inside it only. -/
theorem Linked.congr {m m' : Mem} {last : Nat} : ∀ {cells : List Cell} {prev a : Nat},
    Linked m last prev a cells → a % 16 = 0 → Aligned cells →
    (∀ b, b % 16 = 0 → a ≤ b → b < a + span cells → headerAt m' b = headerAt m b) →
    Linked m' last prev a cells
  | [], _, _, _, _, _, _ => trivial
  | c :: cs, prev, a, ⟨hhead, htail⟩, ha, hal, hsame => by
      have hc := hal c (by simp)
      have hov : blockOverhead = 16 := rfl
      rw [span_cons] at hsame
      refine ⟨by rw [hsame a ha (le_refl _) (by omega)]; exact hhead, ?_⟩
      exact Linked.congr htail (by omega) (fun d hd => hal d (by simp [hd]))
        (fun b hb h1 h2 => hsame b hb (by omega) (by omega))

/-- Only the words at the cells' own addresses matter. -/
theorem Linked.congr_cells {m m' : Mem} {last : Nat} : ∀ {cells : List Cell} {prev a : Nat},
    Linked m last prev a cells →
    (∀ pre c post, cells = pre ++ c :: post →
      headerAt m' (a + span pre) = headerAt m (a + span pre)) →
    Linked m' last prev a cells
  | [], _, _, _, _ => trivial
  | c :: cs, prev, a, ⟨hhead, htail⟩, hsame => by
      refine ⟨(hsame [] c cs rfl).trans hhead, Linked.congr_cells htail fun pre d post hcut => ?_⟩
      have hd := hsame (c :: pre) d post (by rw [hcut]; rfl)
      rwa [span_cons, ← Nat.add_assoc, ← Nat.add_assoc] at hd

/-- Two cells of one list are the same or lie one behind the other. -/
theorem cut_cases {pre pre' post post' : List Cell} {c c' : Cell}
    (h : pre ++ c :: post = pre' ++ c' :: post') :
    span pre + blockOverhead + c.size ≤ span pre' ∨ (pre = pre' ∧ c = c') ∨
      span pre' + blockOverhead + c'.size ≤ span pre := by
  rcases List.append_eq_append_iff.mp h with ⟨mid, rfl, hmid⟩ | ⟨mid, rfl, hmid⟩
  · cases mid with
    | nil =>
        obtain ⟨rfl, -⟩ := List.cons.inj hmid
        exact Or.inr (Or.inl ⟨by simp, rfl⟩)
    | cons d ds =>
        obtain ⟨rfl, -⟩ := List.cons.inj hmid
        refine Or.inl ?_
        rw [span_append, span_cons]
        omega
  · cases mid with
    | nil =>
        obtain ⟨rfl, -⟩ := List.cons.inj hmid
        exact Or.inr (Or.inl ⟨by simp, rfl⟩)
    | cons d ds =>
        obtain ⟨rfl, -⟩ := List.cons.inj hmid
        refine Or.inr (Or.inr ?_)
        rw [span_append, span_cons]
        omega

/-- A stretch keeps its cells when the `prev` of its first header changes. -/
theorem Linked.relink {m m' : Mem} {last prev prev' a : Nat} {cells : List Cell}
    (h : Linked m last prev a cells) (ha : a % 16 = 0) (hal : Aligned cells)
    (hfirst : cells ≠ [] → headerAt m' a = { headerAt m a with prev := prev' })
    (hsame : ∀ b, b % 16 = 0 → a < b → b < a + span cells → headerAt m' b = headerAt m b) :
    Linked m' last prev' a cells := by
  cases cells with
  | nil => trivial
  | cons c cs =>
      obtain ⟨hhead, htail⟩ := h
      have hc := hal c (by simp)
      have hov : blockOverhead = 16 := rfl
      rw [span_cons] at hsame
      refine ⟨by rw [hfirst (by simp), hhead], ?_⟩
      exact htail.congr (by omega) (fun d hd => hal d (by simp [hd]))
        (fun b hb h1 h2 => hsame b hb (by omega) (by omega))

/-! ## The address of a cell -/

section Cut

variable {m : Mem} {last prev a : Nat} {pre post : List Cell} {c : Cell}

/-- The header of the cell behind `pre`. -/
theorem Linked.headerAt_cell (h : Linked m last prev a (pre ++ c :: post)) :
    headerAt m (a + span pre) = ⟨c.size, flag c.free,
      link (a + span pre + blockOverhead + c.size) post last, lastAddr prev a pre⟩ :=
  (linked_append.mp h).2.1

end Cut

/-! ## `split_block` and `merge_next` on headers -/

/-- `split_block` on a block that is not split. -/
theorem splitBlock_small {m : Mem} {block wanted : Nat} (hfit : wanted + 32 < 2 ^ 32)
    (h : (headerAt m block).size ≤ wanted + 32) : splitBlock m block wanted = m := by
  rw [splitBlock, blockOverhead, heapAlign, add32_of_lt (by omega : wanted + 16 < 2 ^ 32),
    add32_of_lt (by omega), if_pos (by omega)]

/-- The stores of `split_block` when it cuts a block in two. -/
theorem splitBlock_eq {m : Mem} {block wanted size free next prev : Nat}
    (hhead : headerAt m block = ⟨size, free, next, prev⟩)
    (hblock : block % 16 = 0) (hwanted : wanted % 16 = 0)
    (hbig : wanted + 32 < size) (hfit : block + 16 + size < 2 ^ 32) (hnlt : next < 2 ^ 32)
    {n : Nat} (hn : block + 16 + wanted = n) {m4 : Mem}
    (hm4 : setPrev (setNext (setFree (setSize m n (size - wanted - 16)) n 1) n next) n block = m4) :
    splitBlock m block wanted =
      setNext (setSize (if next ≠ 0 then setPrev m4 next n else m4) block wanted) block n := by
  have hN : n % 16 = 0 := by omega
  have hNB : block ≠ n := by omega
  -- both reads of a `next` word find the old successor
  have hread : (headerAt (setFree (setSize m n (size - wanted - 16)) n 1) block).next = next := by
    rw [headerAt_setFree hN hblock (by decide), if_neg hNB, headerAt_setSize hN hblock (by omega),
      if_neg hNB, hhead]
  have hread' : (headerAt m4 n).next = next := by
    rw [← hm4, headerAt_setPrev hN hN (by omega), if_pos rfl, headerAt_setNext hN hN hnlt, if_pos rfl]
  rw [splitBlock, blockOverhead, heapAlign, add32_of_lt (by omega : wanted + 16 < 2 ^ 32),
    add32_of_lt (by omega : wanted + 16 + 16 < 2 ^ 32),
    if_neg (by rw [hhead]; simp only; omega), add32_of_lt (by omega : block + 16 < 2 ^ 32),
    add32_of_lt (by omega : block + 16 + wanted < 2 ^ 32), hn]
  simp only [hhead, sub32_of_le (by omega : wanted ≤ size) (by omega : size < 2 ^ 32),
    sub32_of_le (by omega : 16 ≤ size - wanted) (by omega : size - wanted < 2 ^ 32), hread, hm4,
    hread']

/-- The headers after `split_block` cuts a block in two. -/
theorem headerAt_splitBlock {m : Mem} {block wanted size free next prev : Nat}
    (hhead : headerAt m block = ⟨size, free, next, prev⟩)
    (hblock : block % 16 = 0) (hwanted : wanted % 16 = 0) (hnext : next % 16 = 0)
    (hbig : wanted + 32 < size) (hfit : block + 16 + size < 2 ^ 32) (hnlt : next < 2 ^ 32)
    (hbehind : next = 0 ∨ block + 16 + size ≤ next) {b : Nat} (hb : b % 16 = 0) :
    headerAt (splitBlock m block wanted) b =
      if b = block then ⟨wanted, free, block + 16 + wanted, prev⟩
      else if b = block + 16 + wanted then ⟨size - wanted - 16, 1, next, block⟩
      else if next ≠ 0 ∧ b = next then { headerAt m b with prev := block + 16 + wanted }
      else headerAt m b := by
  generalize hn : block + 16 + wanted = n
  have hN : n % 16 = 0 := by omega
  have hNB : block ≠ n := by omega
  rw [splitBlock_eq hhead hblock hwanted hbig hfit hnlt hn rfl]
  -- the four words of the new header
  generalize hm4 : setPrev (setNext (setFree (setSize m n (size - wanted - 16)) n 1) n next) n block = m4
  have h4 : ∀ b, b % 16 = 0 →
      headerAt m4 b = if b = n then ⟨size - wanted - 16, 1, next, block⟩ else headerAt m b := by
    intro b hb
    rw [← hm4, headerAt_setPrev hN hb (by omega), headerAt_setNext hN hb hnlt,
      headerAt_setNext hN hN hnlt, headerAt_setFree hN hb (by decide),
      headerAt_setFree hN hN (by decide), headerAt_setSize hN hb (by omega),
      headerAt_setSize hN hN (by omega)]
    by_cases hbn : b = n <;> simp [hbn]
  -- the back pointer of the block behind
  generalize hm5 : (if next ≠ 0 then setPrev m4 next n else m4) = m5
  have h5 : ∀ b, b % 16 = 0 →
      headerAt m5 b = if b = n then ⟨size - wanted - 16, 1, next, block⟩
        else if next ≠ 0 ∧ b = next then { headerAt m b with prev := n } else headerAt m b := by
    intro b hb
    rw [← hm5]
    by_cases hzero : next = 0
    · rw [if_neg (by simp [hzero]), h4 b hb]
      simp [hzero]
    · have hne : next ≠ n := by omega
      rw [if_pos hzero, headerAt_setPrev hnext hb (by omega), h4 b hb, h4 next hnext, if_neg hne]
      by_cases hbx : b = next
      · subst hbx
        rw [if_pos rfl, if_neg hne, if_pos ⟨hzero, rfl⟩]
      · rw [if_neg hbx]
        simp [hbx]
  -- the two words of the old header
  have hbn : block ≠ next ∨ next = 0 := by omega
  have h5b : headerAt m5 block = ⟨size, free, next, prev⟩ := by
    rw [h5 block hblock, if_neg hNB, hhead]
    rcases hbn with hne | hzero
    · rw [if_neg (fun hc => hne hc.2)]
    · rw [if_neg (fun hc => hc.1 hzero)]
  rw [headerAt_setNext hblock hb (by omega), headerAt_setSize hblock hblock (by omega), if_pos rfl,
    headerAt_setSize hblock hb (by omega), h5b]
  by_cases hbb : b = block
  · rw [if_pos hbb, if_pos hbb]
  · rw [if_neg hbb, if_neg hbb, if_neg hbb, h5 b hb]

/-- `merge_next` on a block whose successor is missing or in use. -/
theorem mergeNext_used {m : Mem} {block : Nat}
    (h : (headerAt m block).next = 0 ∨ (headerAt m (headerAt m block).next).free = 0) :
    mergeNext m block = m := by
  rw [mergeNext, if_pos h]

/-- The stores of `merge_next` when it absorbs a free successor. -/
theorem mergeNext_eq {m : Mem} {block size free next prev size' free' next' prev' : Nat}
    (hhead : headerAt m block = ⟨size, free, next, prev⟩)
    (hhead' : headerAt m next = ⟨size', free', next', prev'⟩) (hfree : free' ≠ 0)
    (hblock : block % 16 = 0) (hnext : next = block + 16 + size)
    (hfit : next + 16 + size' < 2 ^ 32) (hnlt : next' < 2 ^ 32) {m2 : Mem}
    (hm2 : setNext (setSize m block (size + 16 + size')) block next' = m2) :
    mergeNext m block = if next' ≠ 0 then setPrev m2 next' block else m2 := by
  -- the successor's header is not the one just written, whatever its alignment
  have hread : headerAt (setSize m block (size + 16 + size')) next = ⟨size', free', next', prev'⟩ := by
    rw [← hhead']
    exact headerAt_congr fun k hk => st32_of_disjoint m _ (by omega)
  have hread' : (headerAt m2 block).next = next' := by
    rw [← hm2, headerAt_setNext hblock hblock hnlt, if_pos rfl]
  rw [mergeNext]
  simp only [hhead, hhead']
  rw [if_neg (by simp only [hfree, or_false]; omega), blockOverhead,
    add32_of_lt (by omega : 16 + size' < 2 ^ 32),
    add32_of_lt (by omega : size + (16 + size') < 2 ^ 32), ← Nat.add_assoc, hread, hm2, hread']

/-- The headers after `merge_next` absorbs a free successor. -/
theorem headerAt_mergeNext {m : Mem} {block size free next prev size' free' next' prev' : Nat}
    (hhead : headerAt m block = ⟨size, free, next, prev⟩)
    (hhead' : headerAt m next = ⟨size', free', next', prev'⟩) (hfree : free' ≠ 0)
    (hblock : block % 16 = 0) (hnext' : next' % 16 = 0) (hnext : next = block + 16 + size)
    (hfit : next + 16 + size' < 2 ^ 32) (hnlt : next' < 2 ^ 32)
    (hbehind : next' = 0 ∨ next + 16 + size' ≤ next') {b : Nat} (hb : b % 16 = 0) :
    headerAt (mergeNext m block) b =
      if b = block then ⟨size + 16 + size', free, next', prev⟩
      else if next' ≠ 0 ∧ b = next' then { headerAt m b with prev := block }
      else headerAt m b := by
  rw [mergeNext_eq hhead hhead' hfree hblock hnext hfit hnlt rfl]
  generalize hm2 : setNext (setSize m block (size + 16 + size')) block next' = m2
  have h2 : ∀ b, b % 16 = 0 →
      headerAt m2 b = if b = block then ⟨size + 16 + size', free, next', prev⟩ else headerAt m b := by
    intro b hb
    rw [← hm2, headerAt_setNext hblock hb hnlt, headerAt_setSize hblock hb (by omega),
      headerAt_setSize hblock hblock (by omega), hhead]
    by_cases hbb : b = block <;> simp [hbb]
  by_cases hzero : next' = 0
  · rw [if_neg (by simp [hzero]), h2 b hb]
    simp [hzero]
  · have hne' : next' ≠ block := by omega
    rw [if_pos hzero, headerAt_setPrev hnext' hb (by omega), h2 b hb, h2 next' hnext', if_neg hne']
    by_cases hbx : b = next'
    · subst hbx
      rw [if_pos rfl, if_neg hne', if_pos ⟨hzero, rfl⟩]
    · rw [if_neg hbx]
      simp [hbx]

/-! ## Layouts -/

/-- Memory holds the block list `cells` from `base` on, null-terminated at both
ends, inside the 32-bit address space. -/
structure Layout (m : Mem) (base : Nat) (cells : List Cell) : Prop where
  linked : Linked m 0 0 base cells
  aligned : Aligned cells
  base_aligned : base % 16 = 0
  base_pos : 0 < base
  fits : base + span cells < 2 ^ 32

theorem link_of_ne {a last : Nat} {cells : List Cell} (h : cells ≠ []) : link a cells last = a := by
  cases cells with
  | nil => exact absurd rfl h
  | cons _ _ => rfl

/-- What the last pointer of a stretch can be. -/
theorem link_cases (a : Nat) (cells : List Cell) : link a cells 0 = 0 ∨ link a cells 0 = a := by
  cases cells with
  | nil => exact Or.inl rfl
  | cons _ _ => exact Or.inr rfl

section Layout

variable {m : Mem} {base : Nat} {pre post : List Cell} {c d : Cell}

theorem Layout.congr {cells : List Cell} {m' : Mem} (h : Layout m base cells)
    (hsame : ∀ b, b % 16 = 0 → base ≤ b → b < base + span cells → headerAt m' b = headerAt m b) :
    Layout m' base cells :=
  ⟨h.linked.congr h.base_aligned h.aligned hsame, h.aligned, h.base_aligned, h.base_pos, h.fits⟩

/-- Where the cell behind `pre` sits. -/
theorem Layout.cell_addr (h : Layout m base (pre ++ c :: post)) :
    (base + span pre) % 16 = 0 ∧ c.size % 16 = 0 ∧
      base + span pre + 16 + c.size + span post < 2 ^ 32 := by
  have h1 := h.base_aligned
  have h2 := h.fits
  have h3 : Aligned pre := fun d hd => h.aligned d (by simp [hd])
  have h4 := h3.span
  have h5 := h.aligned c (by simp)
  rw [span_append, span_cons, blockOverhead] at h2
  omega

theorem Layout.headerAt_cell (h : Layout m base (pre ++ c :: post)) :
    headerAt m (base + span pre) = ⟨c.size, flag c.free,
      link (base + span pre + 16 + c.size) post 0, lastAddr 0 base pre⟩ :=
  h.linked.headerAt_cell

/-- Replacing neighbouring cells by cells of the same extent: the blocks before
are as they were, and so are the blocks behind up to the first one's `prev`. -/
theorem Layout.replace {m' : Mem} {old cells : List Cell} {rest : Nat}
    (h : Layout m base (pre ++ (old ++ post))) (hold : old ≠ []) (hcells : cells ≠ [])
    (hspan : span cells = span old) (hal : Aligned cells)
    (hrest : base + span pre + span old = rest)
    (hnew : Linked m' (link rest post 0) (lastAddr 0 base pre) (base + span pre) cells)
    (hfirst : post ≠ [] → headerAt m' rest = { headerAt m rest with
      prev := lastAddr (lastAddr 0 base pre) (base + span pre) cells })
    (hsame : ∀ b, b % 16 = 0 → b < base + span pre ∨ rest < b → b < base + span pre + span old +
      span post → headerAt m' b = headerAt m b) :
    Layout m' base (pre ++ (cells ++ post)) := by
  subst hrest
  obtain ⟨hpre, hmid⟩ := linked_append.mp h.linked
  obtain ⟨-, hpost⟩ := linked_append.mp hmid
  have halpre : Aligned pre := fun d hd => h.aligned d (by simp [hd])
  have halold : Aligned old := fun d hd => h.aligned d (by simp [hd])
  have halpost : Aligned post := fun d hd => h.aligned d (by simp [hd])
  have h0 := h.base_aligned
  have h1 := halpre.span
  have h2 := halold.span
  have hlink : link (base + span pre) (cells ++ post) 0 = link (base + span pre) (old ++ post) 0 := by
    rw [link_of_ne (by simp [hcells]), link_of_ne (by simp [hold])]
  refine ⟨linked_append.mpr ⟨?_, linked_append.mpr ⟨?_, ?_⟩⟩, ?_, h0, h.base_pos, ?_⟩
  · rw [hlink]
    exact hpre.congr h0 halpre fun b hb h1 h2 => hsame b hb (Or.inl h2) (by omega)
  · rw [hspan]
    exact hnew
  · rw [hspan]
    exact hpost.relink (by omega) halpost hfirst fun b hb h1 h2 => hsame b hb (Or.inr h1) h2
  · intro e he
    simp only [List.mem_append] at he
    rcases he with he | he | he
    · exact halpre e he
    · exact hal e he
    · exact halpost e he
  · have := h.fits
    simp only [span_append] at this ⊢
    omega

/-- The first block behind `old` points back at the last block of `old`. -/
theorem Layout.first_prev {old : List Cell} {rest : Nat} (h : Layout m base (pre ++ (old ++ post)))
    (hrest : base + span pre + span old = rest) (hpost : post ≠ []) :
    headerAt m rest = { headerAt m rest with
      prev := lastAddr (lastAddr 0 base pre) (base + span pre) old } := by
  subst hrest
  have hlinked := (linked_append.mp (linked_append.mp h.linked).2).2
  cases post with
  | nil => exact absurd rfl hpost
  | cons e es => rw [hlinked.1]

theorem Layout.setFree (h : Layout m base (pre ++ c :: post)) (free : Bool) :
    Layout (setFree m (base + span pre) (flag free)) base (pre ++ ⟨c.size, free⟩ :: post) := by
  obtain ⟨hb, hsize, hfit⟩ := h.cell_addr
  have hset : ∀ b, b % 16 = 0 → b ≠ base + span pre →
      headerAt (Kheap.setFree m (base + span pre) (flag free)) b = headerAt m b := by
    intro b hb' hne
    rw [headerAt_setFree hb hb' (flag_lt _), if_neg hne]
  have hrest : base + span pre + span [c] = base + span pre + 16 + c.size := by
    simp only [span_cons, span_nil, blockOverhead]
    omega
  refine @Layout.replace _ _ _ _ _ [c] [⟨c.size, free⟩] _ h (by simp) (by simp) rfl ?_ hrest
    ⟨?_, trivial⟩ ?_ ?_
  · simpa [Aligned] using hsize
  · rw [headerAt_setFree hb hb (flag_lt _), if_pos rfl, h.headerAt_cell]
    rfl
  · intro hpost
    rw [hset _ (by omega) (by omega)]
    exact @Layout.first_prev _ _ _ _ [c] _ h hrest hpost
  · intro b hb' hout _
    exact hset b hb' (by omega)

/-- `split_block` on a free block that is large enough to be cut. -/
theorem Layout.splitBlock {wanted : Nat} (h : Layout m base (pre ++ c :: post))
    (hwanted : wanted % 16 = 0) (hbig : wanted + 32 < c.size) :
    Layout (splitBlock m (base + span pre) wanted) base
      (pre ++ ([⟨wanted, c.free⟩, ⟨c.size - wanted - 16, true⟩] ++ post)) := by
  obtain ⟨hb, hsize, hfit⟩ := h.cell_addr
  have hrest : base + span pre + span [c] = base + span pre + 16 + c.size := by
    simp only [span_cons, span_nil, blockOverhead]
    omega
  have hlink := link_cases (base + span pre + 16 + c.size) post
  have hheaders := fun b hb' => headerAt_splitBlock (b := b) h.headerAt_cell hb hwanted (by omega)
    hbig (by omega) (by omega) (by omega) hb'
  refine @Layout.replace _ _ _ _ _ [c] _ _ h (by simp) (by simp) ?_ ?_ hrest ⟨?_, ?_, trivial⟩ ?_ ?_
  · simp only [span_cons, span_nil, blockOverhead]
    omega
  · intro e he
    simp only [List.mem_cons, List.not_mem_nil, or_false] at he
    rcases he with rfl | rfl
    · exact hwanted
    · simp only
      omega
  · rw [hheaders _ hb, if_pos rfl]
    rfl
  · show headerAt _ (base + span pre + 16 + wanted) = _
    rw [hheaders _ (by omega), if_neg (by omega), if_pos rfl]
    rfl
  · intro hpost
    rw [hheaders _ (by omega), if_neg (by omega), if_neg (by omega), link_of_ne hpost,
      if_pos ⟨by omega, rfl⟩]
    rfl
  · intro b hb' hout _
    rw [hheaders b hb', if_neg (by omega), if_neg (by omega), if_neg]
    rintro ⟨h0, rfl⟩
    omega

/-- `merge_next` on a block with a free successor. -/
theorem Layout.mergeNext (h : Layout m base (pre ++ c :: d :: post)) (hfree : d.free = true) :
    Layout (mergeNext m (base + span pre)) base (pre ++ ⟨c.size + 16 + d.size, c.free⟩ :: post) := by
  obtain ⟨hb, hsize, hfit⟩ := h.cell_addr
  have hd : d.size % 16 = 0 := h.aligned d (by simp)
  rw [span_cons, blockOverhead] at hfit
  have hrest : base + span pre + span [c, d] = base + span pre + 16 + c.size + 16 + d.size := by
    simp only [span_cons, span_nil, blockOverhead]
    omega
  have hnext : headerAt m (base + span pre + 16 + c.size) = ⟨d.size, flag d.free,
      link (base + span pre + 16 + c.size + 16 + d.size) post 0, base + span pre⟩ :=
    (linked_append.mp h.linked).2.2.1
  have hlink := link_cases (base + span pre + 16 + c.size + 16 + d.size) post
  have hhead : headerAt m (base + span pre) = ⟨c.size, flag c.free,
      base + span pre + 16 + c.size, lastAddr 0 base pre⟩ := h.headerAt_cell
  have hheaders := fun b hb' => headerAt_mergeNext (b := b) hhead hnext
    (flag_ne_zero.mpr hfree) hb (by omega) rfl (by omega) (by omega) (by omega) hb'
  refine @Layout.replace _ _ _ _ _ [c, d] [⟨c.size + 16 + d.size, c.free⟩] _ h
    (by simp) (by simp) ?_ ?_ hrest ⟨?_, trivial⟩ ?_ ?_
  · simp only [span_cons, span_nil, blockOverhead]
    omega
  · simp only [Aligned, List.mem_singleton, forall_eq]
    omega
  · rw [hheaders _ hb, if_pos rfl]
    rfl
  · intro hpost
    rw [hheaders _ (by omega), if_neg (by omega), link_of_ne hpost, if_pos ⟨by omega, rfl⟩]
    rfl
  · intro b hb' hout _
    rw [hheaders b hb', if_neg (by omega), if_neg]
    rintro ⟨h0, rfl⟩
    omega

/-- `merge_next` on a block whose successor is missing or in use changes nothing. -/
theorem Layout.mergeNext_used (h : Layout m base (pre ++ c :: post))
    (hpost : ∀ d es, post = d :: es → d.free = false) : Kheap.mergeNext m (base + span pre) = m := by
  refine Kheap.mergeNext_used ?_
  rw [h.headerAt_cell]
  cases post with
  | nil => exact Or.inl rfl
  | cons d es =>
      refine Or.inr ?_
      have hnext := (linked_append.mp h.linked).2.2.1
      show (headerAt m (base + span pre + blockOverhead + c.size)).free = 0
      rw [hnext, hpost d es rfl]
      rfl

/-- Replacing the last cells of the list. -/
theorem Layout.replaceTail {m' : Mem} {old cells : List Cell} (h : Layout m base (pre ++ old))
    (hold : old ≠ []) (hcells : cells ≠ []) (hal : Aligned cells)
    (hfit : base + span pre + span cells < 2 ^ 32)
    (hnew : Linked m' 0 (lastAddr 0 base pre) (base + span pre) cells)
    (hsame : ∀ b, b % 16 = 0 → b < base + span pre → headerAt m' b = headerAt m b) :
    Layout m' base (pre ++ cells) := by
  obtain ⟨hpre, -⟩ := linked_append.mp h.linked
  have halpre : Aligned pre := fun d hd => h.aligned d (by simp [hd])
  refine ⟨linked_append.mpr ⟨?_, hnew⟩, ?_, h.base_aligned, h.base_pos, by
    rw [span_append]; omega⟩
  · rw [link_of_ne hcells]
    rw [link_of_ne hold] at hpre
    exact hpre.congr h.base_aligned halpre fun b hb _ h2 => hsame b hb h2
  · intro e he
    rcases List.mem_append.mp he with he | he
    · exact halpre e he
    · exact hal e he

/-- A free tail grows in place. -/
theorem Layout.growTail {added : Nat} (h : Layout m base (pre ++ [c])) (hadded : added % 16 = 0)
    (hfit : base + span (pre ++ [c]) + added < 2 ^ 32) :
    Layout (setSize m (base + span pre) (c.size + added)) base
      (pre ++ [⟨c.size + added, c.free⟩]) := by
  obtain ⟨hb, hsize, -⟩ := h.cell_addr
  simp only [span_append, span_cons, span_nil, blockOverhead] at hfit
  refine Layout.replaceTail h (by simp) (by simp) ?_ ?_ ⟨?_, trivial⟩ ?_
  · simp only [Aligned, List.mem_singleton, forall_eq]
    omega
  · simp only [span_cons, span_nil, blockOverhead]
    omega
  · rw [headerAt_setSize hb hb (by omega), if_pos rfl, h.headerAt_cell]
    rfl
  · intro b hb' hlt
    rw [headerAt_setSize hb hb' (by omega), if_neg (by omega)]

/-- The headers after `heap_expand` links a new block `nb` behind `tail`. -/
theorem headerAt_appendTail {m : Mem} {tail nb size b : Nat} (htail : tail % 16 = 0)
    (hnb : nb % 16 = 0) (hne : nb ≠ tail) (htlt : tail < 2 ^ 32) (hnlt : nb < 2 ^ 32)
    (hsize : size < 2 ^ 32) (hb : b % 16 = 0) :
    headerAt (setNext (setPrev (setNext (Kheap.setFree (setSize m nb size) nb 1) nb 0) nb tail)
      tail nb) b =
        if b = tail then { headerAt m b with next := nb }
        else if b = nb then ⟨size, 1, 0, tail⟩ else headerAt m b := by
  have hread : ∀ b, b % 16 = 0 → headerAt (setPrev (setNext (Kheap.setFree
      (setSize m nb size) nb 1) nb 0) nb tail) b =
        if b = nb then ⟨size, 1, 0, tail⟩ else headerAt m b := by
    intro b hb
    rw [headerAt_setPrev hnb hb htlt, headerAt_setNext hnb hb (by decide),
      headerAt_setNext hnb hnb (by decide), headerAt_setFree hnb hb (by decide),
      headerAt_setFree hnb hnb (by decide), headerAt_setSize hnb hb hsize,
      headerAt_setSize hnb hnb hsize]
    by_cases hbn : b = nb <;> simp [hbn]
  rw [headerAt_setNext htail hb hnlt, hread b hb, hread _ htail, if_neg (Ne.symm hne)]
  by_cases hbb : b = tail
  · rw [if_pos hbb, if_pos hbb, hbb]
  · rw [if_neg hbb, if_neg hbb]

/-- A new free tail behind a tail in use. -/
theorem Layout.appendTail {size : Nat} (h : Layout m base (pre ++ [c])) (hsize : size % 16 = 0)
    (hfit : base + span (pre ++ [c]) + 16 + size < 2 ^ 32) {nb : Nat}
    (hnb : nb = base + span pre + 16 + c.size) :
    Layout (setNext (setPrev (setNext (Kheap.setFree (setSize m nb size) nb 1) nb 0) nb
        (base + span pre)) (base + span pre) nb) base (pre ++ [c, ⟨size, true⟩]) := by
  obtain ⟨hb, hc, -⟩ := h.cell_addr
  simp only [span_append, span_cons, span_nil, blockOverhead] at hfit
  have hheaders := fun b hb' => @headerAt_appendTail m _ nb size b hb
    (by omega) (by omega) (by omega) (by omega) (by omega) hb'
  refine Layout.replaceTail h (by simp) (by simp) ?_ ?_ ⟨?_, ?_, trivial⟩ ?_
  · intro e he
    simp only [List.mem_cons, List.not_mem_nil, or_false] at he
    rcases he with rfl | rfl
    · exact hc
    · exact hsize
  · simp only [span_cons, span_nil, blockOverhead]
    omega
  · rw [hheaders _ hb, if_pos rfl, h.headerAt_cell, hnb]
    rfl
  · rw [show base + span pre + blockOverhead + c.size = nb from hnb.symm, hheaders _ (by omega),
      if_neg (by omega), if_pos rfl]
    rfl
  · intro b hb' hlt
    rw [hheaders b hb', if_neg (by omega), if_neg (by omega)]

/-! ## The loops over the list -/

/-- The first free cell of at least `wanted` bytes. -/
def Cell.Fits (wanted : Nat) (c : Cell) : Prop := c.free = true ∧ wanted ≤ c.size

/-- The scan of `kmalloc` over a stretch: it stops at the first fitting cell, or
goes on at the block behind. -/
theorem findFree_linked {last wanted : Nat} : ∀ {cells : List Cell} {prev a fuel r : Nat},
    Linked m last prev a cells → 0 < a → findFree m wanted fuel (link a cells last) = some r →
    ((∀ c ∈ cells, ¬ c.Fits wanted) ∧ ∃ fuel', findFree m wanted fuel' last = some r) ∨
    ∃ mid c post, cells = mid ++ c :: post ∧ r = a + span mid ∧ c.Fits wanted ∧
      ∀ d ∈ mid, ¬ d.Fits wanted
  | [], _, _, fuel, _, _, _, hscan => Or.inl ⟨by simp, fuel, hscan⟩
  | _ :: _, _, _, 0, _, _, _, hscan => by simp [findFree] at hscan
  | c :: cs, prev, a, fuel + 1, r, ⟨hhead, htail⟩, hpos, hscan => by
      simp only [link, findFree, if_neg (by omega : a ≠ 0), hhead, flag_ne_zero] at hscan
      by_cases hfit : c.free = true ∧ wanted ≤ c.size
      · rw [if_pos hfit, Option.some.injEq] at hscan
        exact Or.inr ⟨[], c, cs, rfl, by rw [span_nil, Nat.add_zero, hscan], hfit, by simp⟩
      · rw [if_neg hfit] at hscan
        rcases findFree_linked htail (by omega) hscan with ⟨hnone, hlast⟩ |
          ⟨mid, d, post, rfl, hr, hd, hmid⟩
        · refine Or.inl ⟨fun e he => ?_, hlast⟩
          rcases List.mem_cons.mp he with rfl | he
          · exact hfit
          · exact hnone e he
        · refine Or.inr ⟨c :: mid, d, post, rfl, by rw [hr, span_cons]; omega, hd, fun e he => ?_⟩
          rcases List.mem_cons.mp he with rfl | he
          · exact hfit
          · exact hmid e he

/-- What the scan of `kmalloc` returns on a whole list. -/
theorem findFree_spec {wanted fuel r : Nat} {cells : List Cell} (h : Layout m base cells)
    (hne : cells ≠ []) (hscan : findFree m wanted fuel base = some r) :
    (r = 0 ∧ ∀ c ∈ cells, ¬ c.Fits wanted) ∨
    ∃ mid c post, cells = mid ++ c :: post ∧ r = base + span mid ∧ c.Fits wanted ∧
      ∀ d ∈ mid, ¬ d.Fits wanted := by
  rw [← @link_of_ne base 0 _ hne] at hscan
  refine (findFree_linked h.linked h.base_pos hscan).imp_left fun ⟨hnone, fuel', hlast⟩ => ⟨?_, hnone⟩
  cases fuel' with
  | zero => simp [findFree] at hlast
  | succ n => simpa [findFree] using hlast.symm

/-- The scan returns, given more fuel than blocks. -/
theorem findFree_total {wanted : Nat} : ∀ {cells : List Cell} {prev a fuel : Nat},
    Linked m 0 prev a cells → 0 < a → cells.length < fuel →
    ∃ r, findFree m wanted fuel (link a cells 0) = some r
  | _, _, _, 0, _, _, hfuel => absurd hfuel (by omega)
  | [], _, _, _ + 1, _, _, _ => ⟨0, rfl⟩
  | c :: cs, prev, a, fuel + 1, ⟨hhead, htail⟩, hpos, hfuel => by
      have hlt : cs.length < fuel := by simpa using hfuel
      simp only [link, findFree, if_neg (by omega : a ≠ 0), hhead]
      split
      · exact ⟨_, rfl⟩
      · exact findFree_total htail (by omega) hlt

/-- `last_block` returns the last block. -/
theorem lastBlock_spec : ∀ {cells : List Cell} {prev a fuel t : Nat}, Linked m 0 prev a cells →
    0 < a → cells ≠ [] → lastBlock m fuel a = some t →
    ∃ mid c, cells = mid ++ [c] ∧ t = a + span mid
  | _, _, _, 0, _, _, _, _, hlast => by simp [lastBlock] at hlast
  | [], _, _, _ + 1, _, _, _, hne, _ => absurd rfl hne
  | [c], _, a, _ + 1, _, ⟨hhead, _⟩, _, _, hlast => by
      rw [lastBlock, hhead, if_neg (by simp [link]), Option.some.injEq] at hlast
      exact ⟨[], c, rfl, by rw [span_nil, Nat.add_zero, hlast]⟩
  | c :: d :: cs, _, a, fuel + 1, t, ⟨hhead, htail⟩, hpos, _, hlast => by
      have hnext : (headerAt m a).next = a + blockOverhead + c.size := by
        rw [hhead]
        rfl
      rw [lastBlock, hnext, if_pos (by omega)] at hlast
      obtain ⟨mid, e, hcut, rfl⟩ := lastBlock_spec htail (by omega) (by simp) hlast
      exact ⟨c :: mid, e, by rw [hcut]; rfl, by rw [span_cons]; omega⟩

theorem lastBlock_total : ∀ {cells : List Cell} {prev a fuel : Nat}, Linked m 0 prev a cells →
    0 < a → cells ≠ [] → cells.length ≤ fuel → ∃ t, lastBlock m fuel a = some t
  | [], _, _, _, _, _, hne, _ => absurd rfl hne
  | _ :: _, _, _, 0, _, _, _, hfuel => absurd hfuel (by simp)
  | [c], _, a, _ + 1, ⟨hhead, _⟩, _, _, _ => by
      rw [lastBlock, hhead, if_neg (by simp [link])]
      exact ⟨_, rfl⟩
  | c :: d :: cs, _, a, fuel + 1, ⟨hhead, htail⟩, hpos, _, hfuel => by
      have hnext : (headerAt m a).next = a + blockOverhead + c.size := by
        rw [hhead]
        rfl
      rw [lastBlock, hnext, if_pos (by omega)]
      exact lastBlock_total htail (by omega) (by simp)
        (by simp only [List.length_cons] at hfuel ⊢; omega)

end Layout

end RoninOS.Kheap
