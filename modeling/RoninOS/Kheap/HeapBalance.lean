/-
RoninOS.Kheap.HeapBalance — the heap is coalesced, and runs that free what they
allocate leave the block list as it was.

A coalesced list is determined by its payloads, a free block at the end apart
(`cells_determined`). `OwnRun` are the runs that free and move their own blocks
only, so the older payloads stay. When the run has no block left they are the only
ones.
-/
import RoninOS.Kheap.HeapData
import Mathlib.Data.List.Sort

namespace RoninOS.Kheap

open RoninOS.Lib RoninOS.Mem

/-! ## Gaps -/

/-- Nothing, or one free cell. -/
def FreeTail (tail : List Cell) : Prop := tail = [] ∨ ∃ s, tail = [⟨s, true⟩]

/-- The free space at the end may have grown. -/
def TailGrown (tail tail' : List Cell) : Prop :=
  (tail = [] ∧ FreeTail tail') ∨ ∃ s s', s ≤ s' ∧ tail = [⟨s, true⟩] ∧ tail' = [⟨s', true⟩]

/-- A coalesced list without payloads. -/
theorem Coalesced.freeTail {cells : List Cell} {a : Nat} (h : Coalesced cells)
    (hnil : payloads a cells = []) : FreeTail cells := by
  match cells, h, hnil with
  | [], _, _ => exact Or.inl rfl
  | [⟨s, true⟩], _, _ => exact Or.inr ⟨s, rfl⟩
  | ⟨_, true⟩ :: ⟨_, true⟩ :: _, h, _ =>
      exact absurd ⟨rfl, rfl⟩ (List.isChain_cons_cons.mp h).1
  | ⟨_, true⟩ :: ⟨_, false⟩ :: _, _, hnil => simp [payloads] at hnil
  | ⟨_, false⟩ :: _, _, hnil => simp [payloads] at hnil

/-- The cells of a coalesced list that has payloads: the gap before the first one
and the first one itself. -/
theorem Coalesced.first {cells : List Cell} {a p s : Nat} {pay : List (Nat × Nat)}
    (h : Coalesced cells) (hpay : payloads a cells = (p, s) :: pay) :
    ∃ gap rest, cells = gap ++ ⟨s, false⟩ :: rest ∧ FreeTail gap ∧ a + span gap + 16 = p ∧
      payloads (p + s) rest = pay := by
  match cells, h, hpay with
  | [], _, hpay => simp [payloads] at hpay
  | ⟨t, false⟩ :: rest, _, hpay =>
      simp only [payloads, Bool.false_eq_true, if_false, List.cons.injEq, Prod.mk.injEq] at hpay
      obtain ⟨⟨rfl, rfl⟩, rfl⟩ := hpay
      exact ⟨[], rest, rfl, Or.inl rfl, rfl, rfl⟩
  | ⟨g, true⟩ :: ⟨t, false⟩ :: rest, _, hpay =>
      simp only [payloads, Bool.false_eq_true, if_false, if_true, List.cons.injEq, Prod.mk.injEq]
        at hpay
      obtain ⟨⟨rfl, rfl⟩, rfl⟩ := hpay
      refine ⟨[⟨g, true⟩], rest, rfl, Or.inr ⟨g, rfl⟩, ?_, rfl⟩
      simp only [span_cons, span_nil, blockOverhead]
      omega
  | [⟨_, true⟩], _, hpay => simp [payloads] at hpay
  | ⟨_, true⟩ :: ⟨_, true⟩ :: _, h, _ =>
      exact absurd ⟨rfl, rfl⟩ (List.isChain_cons_cons.mp h).1

/-- Gaps of one extent are the same. -/
theorem FreeTail.eq_of_span {gap gap' : List Cell} (h : FreeTail gap) (h' : FreeTail gap')
    (hspan : span gap = span gap') : gap = gap' := by
  obtain rfl | ⟨s, rfl⟩ := h <;> obtain rfl | ⟨s', rfl⟩ := h'
  · rfl
  · simp only [span_nil, span_cons, blockOverhead] at hspan
    omega
  · simp only [span_nil, span_cons, blockOverhead] at hspan
    omega
  · simp only [span_cons, span_nil, Nat.add_right_cancel_iff, Nat.add_left_cancel_iff] at hspan
    rw [hspan]

/-- The payloads determine a coalesced list up to the free space at its end. -/
theorem cells_determined {pay : List (Nat × Nat)} : ∀ {cells cells' : List Cell} {a : Nat},
    Coalesced cells → Coalesced cells' → payloads a cells = pay → payloads a cells' = pay →
    ∃ front tail tail', cells = front ++ tail ∧ cells' = front ++ tail' ∧
      FreeTail tail ∧ FreeTail tail' := by
  induction pay with
  | nil =>
      intro cells cells' a h h' hpay hpay'
      exact ⟨[], cells, cells', rfl, rfl, h.freeTail hpay, h'.freeTail hpay'⟩
  | cons y pay ih =>
      intro cells cells' a h h' hpay hpay'
      obtain ⟨p, s⟩ := y
      obtain ⟨gap, rest, rfl, hgap, hp, hrest⟩ := h.first hpay
      obtain ⟨gap', rest', rfl, hgap', hp', hrest'⟩ := h'.first hpay'
      obtain rfl := hgap.eq_of_span hgap' (by omega)
      obtain ⟨front, tail, tail', rfl, rfl, ht, ht'⟩ := ih
        (Coalesced.right (List.append_cons gap ⟨s, false⟩ rest ▸ h))
        (Coalesced.right (List.append_cons gap ⟨s, false⟩ rest' ▸ h')) hrest hrest'
      exact ⟨gap ++ ⟨s, false⟩ :: front, tail, tail', by simp, by simp, ht, ht'⟩

/-- A free end of a list that has not become shorter has grown. -/
theorem FreeTail.grown {front tail tail' : List Cell} (h : FreeTail tail) (h' : FreeTail tail')
    (hspan : span (front ++ tail) ≤ span (front ++ tail')) : TailGrown tail tail' := by
  simp only [span_append] at hspan
  obtain rfl | ⟨s, rfl⟩ := h
  · exact Or.inl ⟨rfl, h'⟩
  · obtain rfl | ⟨s', rfl⟩ := h'
    · simp only [span_cons, span_nil, blockOverhead] at hspan
      omega
    · simp only [span_cons, span_nil] at hspan
      exact Or.inr ⟨s, s', by omega, rfl, rfl⟩

/-! ## Statistics -/

/-- The bytes of the free cells. -/
def freeBytesOf (cells : List Cell) : Nat := ((cells.filter (·.free)).map Cell.size).sum

theorem freeBytesOf_cons (c : Cell) (cs : List Cell) :
    freeBytesOf (c :: cs) = (if c.free then c.size else 0) + freeBytesOf cs := by
  unfold freeBytesOf
  by_cases hfree : c.free = true <;> simp [hfree]

theorem freeBytesOf_append (xs ys : List Cell) :
    freeBytesOf (xs ++ ys) = freeBytesOf xs + freeBytesOf ys := by
  simp [freeBytesOf]

theorem TailGrown.freeBytes_le {front tail tail' : List Cell} (h : TailGrown tail tail') :
    freeBytesOf (front ++ tail) ≤ freeBytesOf (front ++ tail') := by
  rw [freeBytesOf_append, freeBytesOf_append]
  obtain ⟨rfl, -⟩ | ⟨s, s', hle, rfl, rfl⟩ := h
  · exact Nat.add_le_add_left (Nat.zero_le _) _
  · simpa [freeBytesOf_cons] using hle

/-- The loop of `heap_get_stats` adds up the free blocks. -/
theorem statsLoop_freeBytes {m : Mem} {cells : List Cell} : ∀ {prev a fuel : Nat} (stats : HeapStats),
    Linked m 0 prev a cells → 0 < a → cells.length < fuel →
    stats.freeBytes + span cells < 2 ^ 32 →
    ∃ st, statsLoop m fuel (link a cells 0) stats = some st ∧
      st.freeBytes = stats.freeBytes + freeBytesOf cells := by
  induction cells with
  | nil =>
      intro prev a fuel stats _ _ hfuel _
      cases fuel with
      | zero => simp at hfuel
      | succ fuel => exact ⟨stats, by simp [statsLoop, link], by simp [freeBytesOf]⟩
  | cons c cs ih =>
      intro prev a fuel stats hlinked hpos hfuel hfit
      obtain ⟨hhead, htail⟩ := hlinked
      rw [span_cons, blockOverhead] at hfit
      cases fuel with
      | zero => simp at hfuel
      | succ fuel =>
          have hadd : add32 stats.freeBytes c.size = stats.freeBytes + c.size :=
            add32_of_lt (by omega)
          rw [show link a (c :: cs) 0 = a from rfl, statsLoop, if_neg hpos.ne', hhead]
          simp only [flag_ne_zero, freeBytesOf_cons]
          by_cases hfree : c.free = true
          · rw [if_pos hfree, if_pos hfree]
            obtain ⟨st, hst, hbytes⟩ := ih { stats with
              freeBlocks := add32 stats.freeBlocks 1
              freeBytes := add32 stats.freeBytes c.size
              largestFreeBlock :=
                if c.size > stats.largestFreeBlock then c.size else stats.largestFreeBlock }
              htail (by omega) (Nat.lt_of_succ_lt_succ hfuel) (by simp only [hadd]; omega)
            exact ⟨st, hst, by rw [hbytes, hadd, Nat.add_assoc]⟩
          · rw [if_neg hfree, if_neg hfree, Nat.zero_add]
            exact ih _ htail (by omega) (Nat.lt_of_succ_lt_succ hfuel) (by simp only; omega)

/-- `heap_get_stats` of an intact heap. -/
theorem HeapOk.stats {σ : Type} {pool : TablePool} {h : Heap σ} {cells : List Cell}
    (hok : HeapOk pool h cells) (fuel : Nat) (hfuel : cells.length < fuel) :
    ∃ st, heapGetStats fuel h = some st ∧ st.freeBytes = freeBytesOf cells := by
  have hfit := hok.layout.fits
  obtain ⟨st, hst, hbytes⟩ := @statsLoop_freeBytes h.mem cells 0 kheapBase fuel
    ⟨h.start, h.end, sub32 h.end h.start, 0, 0, 0, 0, 0⟩ hok.layout.linked hok.layout.base_pos hfuel
    (by simp only; omega)
  rw [link_of_ne hok.nonempty] at hst
  refine ⟨st, ?_, by simpa using hbytes⟩
  rw [heapGetStats, hok.ready, if_neg (by simp), hok.head_eq]
  exact hst

/-! ## Runs -/

section Runs

variable {σ : Type} (A : FrameAllocator σ) (pool : TablePool)

/-- The calls of a run that starts at `h0`, where the pointers in `older` are live,
with the pointers of its own that are live at the end. It frees and moves only
these; an older pointer may be reallocated where it stays, and any block written. -/
inductive OwnRun (bound : Nat) (h0 : Heap σ) (older : List (Nat × Nat)) :
    Heap σ → List (Nat × Nat) → Prop
  | start : OwnRun bound h0 older h0 []
  | kmalloc {h h' : Heap σ} {own : List (Nat × Nat)} {fuel size p : Nat} :
      OwnRun bound h0 older h own → size ≤ bound →
      kmalloc A pool fuel h size = some (p, h') →
      OwnRun bound h0 older h' (allocated own p size)
  | kfree {h : Heap σ} {own : List (Nat × Nat)} {x : Nat × Nat} :
      OwnRun bound h0 older h own → x ∈ own → OwnRun bound h0 older (kfree h x.1) (own.erase x)
  | kfreeNull {h : Heap σ} {own : List (Nat × Nat)} :
      OwnRun bound h0 older h own → OwnRun bound h0 older (kfree h 0) own
  | krealloc {h h' : Heap σ} {own : List (Nat × Nat)} {x : Nat × Nat} {fuel size q : Nat} :
      OwnRun bound h0 older h own → x ∈ own → size ≤ bound →
      krealloc A pool fuel h x.1 size = some (q, h') →
      OwnRun bound h0 older h' (reallocated own x q size)
  | kreallocNull {h h' : Heap σ} {own : List (Nat × Nat)} {fuel size p : Nat} :
      OwnRun bound h0 older h own → size ≤ bound →
      krealloc A pool fuel h 0 size = some (p, h') →
      OwnRun bound h0 older h' (allocated own p size)
  | kreallocOlder {h h' : Heap σ} {own : List (Nat × Nat)} {x : Nat × Nat} {fuel size q : Nat} :
      OwnRun bound h0 older h own → x ∈ older → size ≠ 0 → size ≤ bound →
      krealloc A pool fuel h x.1 size = some (q, h') → q = 0 ∨ q = x.1 →
      OwnRun bound h0 older h' own
  | store {h : Heap σ} {own : List (Nat × Nat)} {x : Nat × Nat} {m : Mem} :
      OwnRun bound h0 older h own → x ∈ own ++ older →
      (∀ a, a < x.1 ∨ x.1 + blockSize h x.1 ≤ a → m a = h.mem a) →
      OwnRun bound h0 older { h with mem := m } own

end Runs

section OwnRun

variable {σ : Type} {A : FrameAllocator σ} {pool : TablePool} {h0 h : Heap σ}
  {cells0 : List Cell} {older own : List (Nat × Nat)} {bound : Nat}

theorem allocated_append (own older : List (Nat × Nat)) (p size : Nat) :
    allocated (own ++ older) p size = allocated own p size ++ older := by
  unfold allocated
  split <;> rfl

theorem reallocated_append {x : Nat × Nat} (hx : x ∈ own) (older : List (Nat × Nat))
    (q size : Nat) : reallocated (own ++ older) x q size = reallocated own x q size ++ older := by
  unfold reallocated
  rw [List.erase_append_left older hx]
  split
  · rfl
  · split <;> rfl

/-- An older payload is not that of one of the run's own pointers. -/
theorem Covers.older_ne {x y : Nat × Nat} {pay pay0 : List (Nat × Nat)}
    (hcov : Covers pay (own ++ older)) (hcov0 : Covers pay0 older) (hx : x ∈ own) (hy : y ∈ pay0) :
    y.1 ≠ x.1 := by
  obtain ⟨n, hn⟩ := hcov0.live_of y hy
  have hnodup := hcov.nodup
  rw [List.map_append, List.nodup_append] at hnodup
  have hkey : y.1 ∈ older.map Prod.fst := List.mem_map.mpr ⟨(y.1, n), hn, rfl⟩
  exact fun heq => hnodup.2.2 x.1 (List.mem_map_of_mem hx) y.1 hkey heq.symm

/-- A reallocation that keeps the pointer keeps the payloads. -/
theorem Reallocates.stays {size p q s : Nat} {old new : List (Nat × Nat)}
    (hre : Reallocates size p q old new) (hmem : (p, s) ∈ old) (hsize : size ≠ 0)
    (hq : q = 0 ∨ q = p) : new = old := by
  rcases hre with ⟨h0, -, -⟩ | ⟨-, -, heq⟩ | ⟨-, -, -, -, heq⟩ | ⟨-, hne, mid, hnodup, halloc, -⟩
  · exact absurd h0 hsize
  · exact heq
  · exact heq
  · -- a new block would have the address of the old one
    obtain ⟨h0, -⟩ | ⟨-, before, after, t, -, rfl, rfl⟩ := halloc
    · exact absurd h0 hne
    · obtain rfl := hq.resolve_left hne
      rw [List.map_append, List.map_cons, List.nodup_middle, List.nodup_cons,
        ← List.map_append] at hnodup
      exact absurd (List.mem_map_of_mem hmem) hnodup.1

/-- Through a run the block list is intact and coalesced, the blocks in use are
the older ones and the run's own, and the older payloads stay. -/
structure OwnInv (pool : TablePool) (cells0 : List Cell) (h : Heap σ)
    (live : List (Nat × Nat)) (cells : List Cell) : Prop where
  ok : HeapOk pool h cells
  coalesced : Coalesced cells
  span_le : span cells0 ≤ span cells
  covers : Covers (payloads kheapBase cells) live
  kept : ∀ y ∈ payloads kheapBase cells0, y ∈ payloads kheapBase cells

theorem OwnRun.inv (hbound : bound + 4111 < 2 ^ 32) (hok0 : HeapOk pool h0 cells0)
    (hcov0 : Covers (payloads kheapBase cells0) older) (hcoal0 : Coalesced cells0)
    (hrun : OwnRun A pool bound h0 older h own) :
    ∃ cells, OwnInv pool cells0 h (own ++ older) cells := by
  induction hrun with
  | start => exact ⟨cells0, hok0, hcoal0, le_refl _, hcov0, fun y hy => hy⟩
  | kmalloc _ hsize hcall ih =>
      obtain ⟨cells, hok, hcoal, hspan, hcov, hkept⟩ := ih
      obtain ⟨cells', hok', halloc, hev⟩ := kmalloc_ok hok (by omega) hcall
      rw [← allocated_append]
      exact ⟨cells', hok', hev.coalesced hcoal, hspan.trans hev.span_le,
        hcov.allocates (payloads_nodup _ _) halloc, fun y hy => halloc.mem (hkept y hy)⟩
  | @kfree h own x _ hx ih =>
      obtain ⟨cells, hok, hcoal, hspan, hcov, hkept⟩ := ih
      have hx' : x ∈ own ++ older := List.mem_append_left _ hx
      obtain ⟨s, hs, -⟩ := hcov.payload x hx'
      obtain ⟨cells', hok', hrel, hev⟩ := kfree_ok hok hs
      rw [← List.erase_append_left older hx]
      exact ⟨cells', hok', hev.coalesced hcoal, hspan.trans hev.span_le,
        hcov.releases (payloads_nodup _ _) hx' hrel,
        fun y hy => hrel.mem (hkept y hy) (hcov.older_ne hcov0 hx hy)⟩
  | kfreeNull _ ih => rwa [Kheap.kfree, if_pos (Or.inr rfl)]
  | @krealloc h h' own x fuel size q _ hx hsize hcall ih =>
      obtain ⟨cells, hok, hcoal, hspan, hcov, hkept⟩ := ih
      have hx' : x ∈ own ++ older := List.mem_append_left _ hx
      obtain ⟨s, hs, -⟩ := hcov.payload x hx'
      obtain ⟨cells', hok', hre, hev, -⟩ := krealloc_ok hok hs (by omega) hcall
      rw [← reallocated_append hx]
      exact ⟨cells', hok', hev.coalesced hcoal, hspan.trans hev.span_le,
        hcov.reallocates (payloads_nodup _ _) hx' hre,
        fun y hy => hre.mem (hkept y hy) (hcov.older_ne hcov0 hx hy)⟩
  | kreallocNull _ hsize hcall ih =>
      obtain ⟨cells, hok, hcoal, hspan, hcov, hkept⟩ := ih
      rw [Kheap.krealloc, if_pos rfl] at hcall
      obtain ⟨cells', hok', halloc, hev⟩ := kmalloc_ok hok (by omega) hcall
      rw [← allocated_append]
      exact ⟨cells', hok', hev.coalesced hcoal, hspan.trans hev.span_le,
        hcov.allocates (payloads_nodup _ _) halloc, fun y hy => halloc.mem (hkept y hy)⟩
  | @kreallocOlder h h' own x fuel size q _ hx h0 hsize hcall hq ih =>
      obtain ⟨cells, hok, hcoal, hspan, hcov, hkept⟩ := ih
      obtain ⟨s, hs, -⟩ := hcov.payload x (List.mem_append_right _ hx)
      obtain ⟨cells', hok', hre, hev, -⟩ := krealloc_ok hok hs (by omega) hcall
      have hsame := hre.stays hs h0 hq
      exact ⟨cells', hok', hev.coalesced hcoal, hspan.trans hev.span_le, hsame ▸ hcov,
        hsame ▸ hkept⟩
  | @store h own x m _ hx hm ih =>
      obtain ⟨cells, hok, hcoal, hspan, hcov, hkept⟩ := ih
      obtain ⟨s, hs, -⟩ := hcov.payload x hx
      have hsize := (hok.payload_block hs).2.2
      exact ⟨cells, hok.write hs fun a ha => hm a (by omega), hcoal, hspan, hcov, hkept⟩

/-- The payloads of a run that has freed its own. -/
theorem OwnInv.payloads_eq {cells : List Cell} (hinv : OwnInv pool cells0 h older cells)
    (hcov0 : Covers (payloads kheapBase cells0) older) :
    payloads kheapBase cells = payloads kheapBase cells0 := by
  have hmem : ∀ y, y ∈ payloads kheapBase cells ↔ y ∈ payloads kheapBase cells0 := by
    refine fun y => ⟨fun hy => ?_, hinv.kept y⟩
    obtain ⟨n, hn⟩ := hinv.covers.live_of y hy
    obtain ⟨s, hs, -⟩ := hcov0.payload _ hn
    rwa [List.inj_on_of_nodup_map (payloads_nodup _ _) hy (hinv.kept _ hs) rfl]
  have hperm : (payloads kheapBase cells).Perm (payloads kheapBase cells0) :=
    (List.perm_ext_iff_of_nodup (.of_map _ (payloads_nodup _ _))
      (.of_map _ (payloads_nodup _ _))).mpr hmem
  refine hperm.eq_of_pairwise (fun x y _ _ hxy hyx => ?_) (payloads_pairwise _ _).1
    (payloads_pairwise _ _).1
  simp only [blockOverhead] at hxy hyx
  omega

end OwnRun

/-! ## Coalescing and balance -/

/-- No two neighbours on the block list are free. -/
def NoFreeNeighbours {σ : Type} (h : Heap σ) : Prop :=
  ∀ b, OnList h b → (headerAt h.mem b).next ≠ 0 →
    ¬ ((headerAt h.mem b).free ≠ 0 ∧ (headerAt h.mem (headerAt h.mem b).next).free ≠ 0)

/-- The block list of a heap: the headers from `g_head` on. -/
structure BlockList {σ : Type} (h : Heap σ) (cells : List Cell) : Prop where
  head_eq : h.head = link kheapBase cells 0
  layout : Layout h.mem kheapBase cells

/-- The second heap has the block list of the first, but for free space at its
end, of which it may have more. -/
def SameButTail {σ : Type} (h h' : Heap σ) : Prop :=
  ∃ front tail tail', BlockList h (front ++ tail) ∧ BlockList h' (front ++ tail') ∧
    TailGrown tail tail'

/-- `heap_get_stats` reports as many free bytes of the second heap as of the
first, or more. -/
def FreeBytesLe {σ : Type} (h h' : Heap σ) : Prop :=
  ∃ least, ∀ fuel ≥ least, ∃ st st', heapGetStats fuel h = some st ∧
    heapGetStats fuel h' = some st' ∧ st.freeBytes ≤ st'.freeBytes

section Balance

variable {σ : Type} {pool : TablePool} {h : Heap σ} {cells : List Cell}

theorem HeapOk.blockList (hok : HeapOk pool h cells) : BlockList h cells :=
  ⟨by rw [link_of_ne hok.nonempty, hok.head_eq], hok.layout⟩

theorem HeapOk.noFreeNeighbours (hok : HeapOk pool h cells) (hcoal : Coalesced cells) :
    NoFreeNeighbours h := by
  rintro b hb hnext ⟨hfree, hfree'⟩
  obtain ⟨pre, c, post, rfl, rfl⟩ := hok.cut_of_onList hb
  rw [hok.layout.headerAt_cell] at hnext hfree hfree'
  cases post with
  | nil => exact hnext rfl
  | cons d post =>
      have hd := (List.append_cons pre c (d :: post) ▸ hok.layout :
        Layout h.mem kheapBase ((pre ++ [c]) ++ d :: post)).headerAt_cell
      rw [span_append, span_cons, span_nil] at hd
      simp only [link, blockOverhead] at hfree' hd
      rw [show kheapBase + span pre + 16 + c.size = kheapBase + (span pre + (16 + c.size + 0)) by
        omega, hd] at hfree'
      have hused := hcoal.head_used (flag_ne_zero.mp hfree) d (by simp)
      exact absurd (flag_ne_zero.mp hfree') (by simp [hused])

end Balance

/-- A run that has freed what it allocated leaves the block list as it was, the free space
at the end apart. -/
theorem OwnRun.sameButTail {σ : Type} {A : FrameAllocator σ} {boot : Boot σ} {h h' : Heap σ}
    {live : List (Nat × Nat)} (hreach : HeapReach A boot kheapMaxSize h live)
    (hrun : OwnRun A boot.pool kheapMaxSize h live h' []) :
    SameButTail h h' ∧ FreeBytesLe h h' := by
  obtain ⟨cells, hok, hcov, hcoal⟩ := hreach.cells (by decide)
  obtain ⟨cells', hinv⟩ := hrun.inv (by decide) hok hcov hcoal
  obtain ⟨front, tail, tail', rfl, rfl, htail, htail'⟩ :=
    cells_determined hcoal hinv.coalesced rfl (hinv.payloads_eq hcov)
  have hgrown := htail.grown htail' hinv.span_le
  refine ⟨⟨front, tail, tail', hok.blockList, hinv.ok.blockList, hgrown⟩,
    (front ++ tail).length + (front ++ tail').length + 1, fun fuel hfuel => ?_⟩
  obtain ⟨st, hst, hbytes⟩ := hok.stats fuel (by omega)
  obtain ⟨st', hst', hbytes'⟩ := hinv.ok.stats fuel (by omega)
  exact ⟨st, st', hst, hst', by rw [hbytes, hbytes']; exact hgrown.freeBytes_le⟩

/-- The heap is always coalesced, and a run that has freed what it allocated
leaves the block list as it was, the free space at the end apart. -/
theorem heap_balanced {σ : Type} {A : FrameAllocator σ} {boot : Boot σ} {h : Heap σ}
    {live : List (Nat × Nat)} (hreach : HeapReach A boot kheapMaxSize h live) :
    NoFreeNeighbours h ∧ ∀ h', OwnRun A boot.pool kheapMaxSize h live h' [] →
      SameButTail h h' ∧ FreeBytesLe h h' := by
  obtain ⟨cells, hok, -, hcoal⟩ := hreach.cells (by decide)
  exact ⟨hok.noFreeNeighbours hcoal, fun h' hrun => hrun.sameButTail hreach⟩

/-- With one block live, two more are allocated, the second by growing the heap, and both
freed. -/
theorem heap_balanced_example :
    SameButTail exampleAlloc.2 (kfree (kfree exampleGrown.2 (kheapBase + 144)) (kheapBase + 368)) ∧
      FreeBytesLe exampleAlloc.2
        (kfree (kfree exampleGrown.2 (kheapBase + 144)) (kheapBase + 368)) := by
  refine (heap_balanced exampleAlloc_reach.2).2 _ ?_
  have hrun : OwnRun bumpAllocator exampleBoot.pool kheapMaxSize exampleAlloc.2
      [(kheapBase + 16, 100)] exampleGrown.2
      [(kheapBase + 368, 20000), (kheapBase + 144, 200)] :=
    (OwnRun.start.kmalloc (by decide) exampleSecond_run).kmalloc (by decide) exampleGrown_run
  have hfreed := hrun.kfree (x := (kheapBase + 144, 200)) (by decide)
  exact hfreed.kfree (x := (kheapBase + 368, 20000)) (by decide)

end RoninOS.Kheap
