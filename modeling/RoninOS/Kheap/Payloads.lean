/-
RoninOS.Kheap.Payloads — the payloads of a list of cells, and what the stores of
the heap leave of them.

`payloads` lists the address and size of every block in use. The functions of
`heap.c` store into headers only, so a byte of a payload changes with none of
them: `SamePayloads` says so of two memories. `Coalesced` lists have no two free
neighbours.
-/
import RoninOS.Kheap.Blocks
import Mathlib.Data.List.Chain

namespace RoninOS.Kheap

open RoninOS.Lib

/-! ## Payloads -/

/-- The address and size of the payload of every block in use. -/
def payloads : Nat → List Cell → List (Nat × Nat)
  | _, [] => []
  | a, c :: cs =>
      if c.free then payloads (a + blockOverhead + c.size) cs
      else (a + blockOverhead, c.size) :: payloads (a + blockOverhead + c.size) cs

theorem payloads_append : ∀ (xs ys : List Cell) (a : Nat),
    payloads a (xs ++ ys) = payloads a xs ++ payloads (a + span xs) ys
  | [], ys, a => by simp [payloads]
  | x :: xs, ys, a => by
      have hspan : a + span (x :: xs) = a + blockOverhead + x.size + span xs := by
        rw [span_cons]
        omega
      rw [List.cons_append, payloads, payloads, payloads_append xs ys, hspan]
      split <;> simp

/-- A payload is that of a cell in use. -/
theorem mem_payloads : ∀ {cells : List Cell} {a p s : Nat}, (p, s) ∈ payloads a cells →
    ∃ pre c post, cells = pre ++ c :: post ∧ c.free = false ∧ c.size = s ∧
      p = a + span pre + blockOverhead
  | [], _, _, _, h => by simp [payloads] at h
  | c :: cs, a, p, s, h => by
      rw [payloads] at h
      have hrec : (p, s) ∈ payloads (a + blockOverhead + c.size) cs →
          ∃ pre d post, c :: cs = pre ++ d :: post ∧ d.free = false ∧ d.size = s ∧
            p = a + span pre + blockOverhead := by
        intro hmem
        obtain ⟨pre, d, post, rfl, hfree, hsize, hp⟩ := mem_payloads hmem
        exact ⟨c :: pre, d, post, rfl, hfree, hsize, by rw [hp, span_cons]; omega⟩
      split at h
      · exact hrec h
      · rename_i hfree
        rcases List.mem_cons.mp h with heq | hmem
        · obtain ⟨rfl, rfl⟩ := Prod.mk.inj heq
          exact ⟨[], c, cs, rfl, by simpa using hfree, rfl, by simp⟩
        · exact hrec hmem

/-- The payloads of a list cut at a cell. -/
theorem payloads_cut (pre post : List Cell) (c : Cell) (a : Nat) :
    payloads a (pre ++ c :: post) = payloads a pre ++
      ((if c.free then [] else [(a + span pre + blockOverhead, c.size)]) ++
        payloads (a + span pre + blockOverhead + c.size) post) := by
  rw [payloads_append, payloads]
  split <;> simp

/-- Payloads come in order, a header apart. -/
theorem payloads_pairwise : ∀ (cells : List Cell) (a : Nat),
    (payloads a cells).Pairwise (fun x y => x.1 + x.2 + blockOverhead ≤ y.1) ∧
      ∀ x ∈ payloads a cells, a + blockOverhead ≤ x.1
  | [], _ => ⟨List.Pairwise.nil, by simp [payloads]⟩
  | c :: cs, a => by
      obtain ⟨hpair, hlow⟩ := payloads_pairwise cs (a + blockOverhead + c.size)
      rw [payloads]
      split
      · exact ⟨hpair, fun x hx => by have := hlow x hx; omega⟩
      · refine ⟨List.pairwise_cons.mpr ⟨fun y hy => ?_, hpair⟩, fun x hx => ?_⟩
        · have := hlow y hy
          simp only
          omega
        · rcases List.mem_cons.mp hx with rfl | hx
          · exact le_refl _
          · have := hlow x hx
            omega

theorem payloads_nodup (cells : List Cell) (a : Nat) :
    ((payloads a cells).map Prod.fst).Nodup := by
  rw [List.Nodup, List.pairwise_map]
  refine (payloads_pairwise cells a).1.imp fun {x y} h heq => ?_
  simp only [blockOverhead] at h
  omega

/-- Where a payload lies with respect to a cell: before it, behind it, or in it. -/
theorem payload_apart {cells pre post : List Cell} {c : Cell} {a p s : Nat}
    (hmem : (p, s) ∈ payloads a cells) (hcut : cells = pre ++ c :: post) :
    p + s ≤ a + span pre ∨ a + span pre + 16 + c.size ≤ p ∨
      (p = a + span pre + 16 ∧ s = c.size ∧ c.free = false) := by
  obtain ⟨pre', c', post', hcut', hfree, rfl, rfl⟩ := mem_payloads hmem
  have hov : blockOverhead = 16 := rfl
  rcases cut_cases (hcut'.symm.trans hcut) with hbefore | ⟨rfl, rfl⟩ | hbehind
  · exact Or.inl (by omega)
  · exact Or.inr (Or.inr ⟨by omega, rfl, hfree⟩)
  · exact Or.inr (Or.inl (by omega))

/-- A payload ends where the cells do. -/
theorem payload_le {cells : List Cell} {a p s : Nat} (hmem : (p, s) ∈ payloads a cells) :
    a + 16 ≤ p ∧ p + s ≤ a + span cells := by
  obtain ⟨pre, c, post, rfl, -, rfl, rfl⟩ := mem_payloads hmem
  simp only [span_append, span_cons, blockOverhead]
  omega

/-! ## Stores -/

/-- The byte at `x` is not one of the header at `b`. -/
def OffHeader (b x : Nat) : Prop := x < b ∨ b + 16 ≤ x

section Stores

variable {m : Mem} {b v x : Nat}

theorem setSize_off (hx : OffHeader b x) : setSize m b v x = m x :=
  st32_of_disjoint m v (by unfold OffHeader at hx; omega)

theorem setFree_off (hx : OffHeader b x) : setFree m b v x = m x :=
  st32_of_disjoint m v (by unfold OffHeader at hx; omega)

theorem setNext_off (hx : OffHeader b x) : setNext m b v x = m x :=
  st32_of_disjoint m v (by unfold OffHeader at hx; omega)

theorem setPrev_off (hx : OffHeader b x) : setPrev m b v x = m x :=
  st32_of_disjoint m v (by unfold OffHeader at hx; omega)

/-- `split_block` stores into three headers. -/
theorem splitBlock_off {block wanted size free next prev : Nat}
    (hhead : headerAt m block = ⟨size, free, next, prev⟩)
    (hblock : block % 16 = 0) (hwanted : wanted % 16 = 0)
    (hbig : wanted + 32 < size) (hfit : block + 16 + size < 2 ^ 32) (hnlt : next < 2 ^ 32)
    (hx : OffHeader block x) (hxn : OffHeader (block + 16 + wanted) x)
    (hxnext : next ≠ 0 → OffHeader next x) : splitBlock m block wanted x = m x := by
  rw [splitBlock_eq hhead hblock hwanted hbig hfit hnlt rfl rfl, setNext_off hx, setSize_off hx]
  split
  · rename_i hne
    rw [setPrev_off (hxnext hne), setPrev_off hxn, setNext_off hxn, setFree_off hxn, setSize_off hxn]
  · rw [setPrev_off hxn, setNext_off hxn, setFree_off hxn, setSize_off hxn]

/-- `merge_next` stores into two. -/
theorem mergeNext_off {block size free next prev size' free' next' prev' : Nat}
    (hhead : headerAt m block = ⟨size, free, next, prev⟩)
    (hhead' : headerAt m next = ⟨size', free', next', prev'⟩) (hfree : free' ≠ 0)
    (hblock : block % 16 = 0) (hnext : next = block + 16 + size)
    (hfit : next + 16 + size' < 2 ^ 32) (hnlt : next' < 2 ^ 32)
    (hx : OffHeader block x) (hxnext : next' ≠ 0 → OffHeader next' x) :
    mergeNext m block x = m x := by
  rw [mergeNext_eq hhead hhead' hfree hblock hnext hfit hnlt rfl]
  split
  · rename_i hne
    rw [setPrev_off (hxnext hne), setNext_off hx, setSize_off hx]
  · rw [setNext_off hx, setSize_off hx]

end Stores

/-! ## Payloads under the stores -/

/-- The bytes of the payloads `pay` are the same in both memories. -/
def SamePayloads (pay : List (Nat × Nat)) (m m' : Mem) : Prop :=
  ∀ y ∈ pay, ∀ x, y.1 ≤ x → x < y.1 + y.2 → m' x = m x

section Same

variable {pay pay' : List (Nat × Nat)} {m m' m'' : Mem}

theorem SamePayloads.refl (pay : List (Nat × Nat)) (m : Mem) : SamePayloads pay m m :=
  fun _ _ _ _ _ => rfl

theorem SamePayloads.trans (h : SamePayloads pay m m') (h' : SamePayloads pay m' m'') :
    SamePayloads pay m m'' :=
  fun y hy x h1 h2 => (h' y hy x h1 h2).trans (h y hy x h1 h2)

theorem SamePayloads.mono (h : SamePayloads pay m m') (hsub : ∀ y ∈ pay', y ∈ pay) :
    SamePayloads pay' m m' :=
  fun y hy => h y (hsub y hy)

end Same

section Frames

variable {m : Mem} {base : Nat} {pre post : List Cell} {c d : Cell}

/-- A byte of a payload is off every header of the list. -/
theorem off_of_payload {cells : List Cell} {y : Nat × Nat} {x : Nat}
    (hy : y ∈ payloads base cells) (h1 : y.1 ≤ x) (h2 : x < y.1 + y.2)
    (hcut : cells = pre ++ c :: post) : OffHeader (base + span pre) x := by
  unfold OffHeader
  rcases payload_apart hy hcut with hbefore | hbehind | ⟨hin, -, -⟩ <;> omega

/-- The same for the header behind a cell, if there is one. -/
theorem off_link_of_payload {cells : List Cell} {y : Nat × Nat} {x rest : Nat}
    (hy : y ∈ payloads base cells) (h1 : y.1 ≤ x) (h2 : x < y.1 + y.2)
    (hcut : cells = pre ++ post) (hrest : base + span pre = rest) (hne : link rest post 0 ≠ 0) :
    OffHeader (link rest post 0) x := by
  subst hrest
  cases post with
  | nil => exact absurd rfl hne
  | cons d ds => exact off_of_payload hy h1 h2 hcut

theorem setFree_same (m : Mem) (pre post : List Cell) (c : Cell) (base v : Nat) :
    SamePayloads (payloads base (pre ++ c :: post)) m (Kheap.setFree m (base + span pre) v) :=
  fun _ hy _ h1 h2 => setFree_off (off_of_payload hy h1 h2 rfl)

/-- `split_block` of a free block stores into no payload. -/
theorem Layout.splitBlock_same {wanted : Nat} (h : Layout m base (pre ++ c :: post))
    (hfree : c.free = true) (hwanted : wanted % 16 = 0) (hbig : wanted + 32 < c.size) :
    SamePayloads (payloads base (pre ++ c :: post)) m
      (Kheap.splitBlock m (base + span pre) wanted) := by
  obtain ⟨hb, hsize, hfit⟩ := h.cell_addr
  intro y hy x h1 h2
  have hrest : base + span (pre ++ [c]) = base + span pre + 16 + c.size := by
    simp only [span_append, span_cons, span_nil, blockOverhead]
    omega
  have hlink := link_cases (base + span pre + 16 + c.size) post
  refine splitBlock_off h.headerAt_cell hb hwanted hbig (by omega) (by omega)
    (off_of_payload hy h1 h2 rfl) ?_ fun hne =>
      off_link_of_payload hy h1 h2 (by simp : pre ++ c :: post = (pre ++ [c]) ++ post) hrest hne
  -- the new header is inside the free block
  unfold OffHeader
  rcases payload_apart hy rfl with hbefore | hbehind | ⟨-, -, hused⟩
  · omega
  · omega
  · simp [hfree] at hused

/-- `merge_next` stores into no payload. -/
theorem Layout.mergeNext_same (h : Layout m base (pre ++ c :: d :: post)) (hfree : d.free = true) :
    SamePayloads (payloads base (pre ++ c :: d :: post)) m (Kheap.mergeNext m (base + span pre)) := by
  obtain ⟨hb, hsize, hfit⟩ := h.cell_addr
  rw [span_cons, blockOverhead] at hfit
  have hcut : pre ++ c :: d :: post = (pre ++ [c]) ++ d :: post := by simp
  have hnext : base + span (pre ++ [c]) = base + span pre + 16 + c.size := by
    simp only [span_append, span_cons, span_nil, blockOverhead]
    omega
  have hrest : base + span (pre ++ [c, d]) = base + span pre + 16 + c.size + 16 + d.size := by
    simp only [span_append, span_cons, span_nil, blockOverhead]
    omega
  have hhead := h.headerAt_cell
  have hhead' := (hcut ▸ h).headerAt_cell
  rw [hnext] at hhead'
  simp only [link] at hhead
  have hlink := link_cases (base + span pre + 16 + c.size + 16 + d.size) post
  intro y hy x h1 h2
  exact mergeNext_off hhead hhead' (flag_ne_zero.mpr hfree) hb rfl (by omega) (by omega)
    (off_of_payload hy h1 h2 rfl) fun hne =>
      off_link_of_payload hy h1 h2 (by simp : pre ++ c :: d :: post = (pre ++ [c, d]) ++ post) hrest hne

/-- Neither does a new size for the last block. -/
theorem growTail_same (m : Mem) (pre : List Cell) (c : Cell) (base v : Nat) :
    SamePayloads (payloads base (pre ++ [c])) m (setSize m (base + span pre) v) :=
  fun _ hy _ h1 h2 => setSize_off (off_of_payload hy h1 h2 rfl)

/-- Nor does a new last block. -/
theorem appendTail_same {size nb : Nat} (hnb : nb = base + span pre + 16 + c.size) :
    SamePayloads (payloads base (pre ++ [c])) m
      (setNext (setPrev (setNext (Kheap.setFree (setSize m nb size) nb 1) nb 0) nb
        (base + span pre)) (base + span pre) nb) := by
  intro y hy x h1 h2
  have hend := (payload_le hy).2
  simp only [span_append, span_cons, span_nil, blockOverhead] at hend
  have hxn : OffHeader nb x := Or.inl (by omega)
  rw [setNext_off (off_of_payload hy h1 h2 rfl), setPrev_off hxn, setNext_off hxn, setFree_off hxn,
    setSize_off hxn]

end Frames

/-! ## Coalesced lists -/

/-- No two neighbours are free. -/
def Coalesced (cells : List Cell) : Prop :=
  cells.IsChain fun c d => ¬ (c.free = true ∧ d.free = true)

section Coalesced

variable {pre post : List Cell} {c : Cell} {size : Nat}

/-- The size of a cell does not matter. -/
theorem Coalesced.resize (h : Coalesced (pre ++ c :: post)) (size : Nat) :
    Coalesced (pre ++ ⟨size, c.free⟩ :: post) := by
  unfold Coalesced at *
  rw [List.isChain_append, List.isChain_cons] at *
  obtain ⟨hpre, ⟨hc, hpost⟩, hlast⟩ := h
  exact ⟨hpre, ⟨fun d hd => hc d hd, hpost⟩, fun x hx y hy => by
    obtain rfl := Option.some.inj hy
    exact hlast x hx c rfl⟩

/-- A cell in use goes with any neighbours. -/
theorem coalesced_used (hpre : Coalesced pre) (hpost : Coalesced post) :
    Coalesced (pre ++ ⟨size, false⟩ :: post) := by
  unfold Coalesced at *
  rw [List.isChain_append, List.isChain_cons]
  refine ⟨hpre, ⟨fun d _ => by simp, hpost⟩, fun x _ y hy => ?_⟩
  obtain rfl := Option.some.inj hy
  simp

/-- A free cell goes with neighbours in use. -/
theorem coalesced_free (hpre : Coalesced pre) (hpost : Coalesced post)
    (hlast : ∀ x ∈ pre.getLast?, x.free = false) (hhead : ∀ y ∈ post.head?, y.free = false) :
    Coalesced (pre ++ ⟨size, true⟩ :: post) := by
  unfold Coalesced at *
  rw [List.isChain_append, List.isChain_cons]
  refine ⟨hpre, ⟨fun d hd => by simp [hhead d hd], hpost⟩, fun x hx y _ => by simp [hlast x hx]⟩

theorem Coalesced.left {cells : List Cell} (h : Coalesced (pre ++ cells)) : Coalesced pre :=
  (List.isChain_append.mp h).1

theorem Coalesced.right {cells : List Cell} (h : Coalesced (cells ++ post)) : Coalesced post :=
  (List.isChain_append.mp h).2.1

/-- The cell behind a free one is in use. -/
theorem Coalesced.head_used (h : Coalesced (pre ++ c :: post)) (hfree : c.free = true) :
    ∀ y ∈ post.head?, y.free = false := by
  intro y hy
  have hy := (List.isChain_cons.mp h.right).1 y hy
  simpa [hfree] using hy

/-- The cell before a free one is in use. -/
theorem Coalesced.last_used (h : Coalesced (pre ++ c :: post)) (hfree : c.free = true) :
    ∀ x ∈ pre.getLast?, x.free = false := by
  intro x hx
  have hx := (List.isChain_append.mp h).2.2 x hx c rfl
  simpa [hfree] using hx

end Coalesced

/-! ## Steps of the heap -/

/-- What every operation of the heap keeps between two states: coalesced lists
stay so, the list does not get shorter, and a payload that both states have is
the same byte for byte. -/
structure Evolves (m m' : Mem) (cells cells' : List Cell) : Prop where
  coalesced : Coalesced cells → Coalesced cells'
  span_le : span cells ≤ span cells'
  same : ∀ y ∈ payloads kheapBase cells, y ∈ payloads kheapBase cells' →
    ∀ x, y.1 ≤ x → x < y.1 + y.2 → m' x = m x

theorem Evolves.refl (m : Mem) (cells : List Cell) : Evolves m m cells cells :=
  ⟨id, le_refl _, fun _ _ _ _ _ _ => rfl⟩

theorem Evolves.trans {m m' m'' : Mem} {cells cells' cells'' : List Cell}
    (h : Evolves m m' cells cells') (h' : Evolves m' m'' cells' cells'')
    (hmid : ∀ y ∈ payloads kheapBase cells, y ∈ payloads kheapBase cells'' →
      y ∈ payloads kheapBase cells') : Evolves m m'' cells cells'' :=
  ⟨fun hc => h'.coalesced (h.coalesced hc), Nat.le_trans h.span_le h'.span_le,
    fun y hy hy'' x h1 h2 => (h'.same y (hmid y hy hy'') hy'' x h1 h2).trans
      (h.same y hy (hmid y hy hy'') x h1 h2)⟩

end RoninOS.Kheap
