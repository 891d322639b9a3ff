/-
RoninOS.Kheap.HeapTheorems — what `kmalloc`, `kfree` and `krealloc` do to the list of cells.

`HeapOk h cells` is the heap invariant: memory holds the block list `cells`
from `KHEAP_BASE` on, the list ends at or below `g_heap_end`, and every page up
to there is mapped. Each operation is described by what it does to the list of
payloads, so that the caller's view (which pointers are live) never mentions a
free block.
-/
import RoninOS.Kheap.Payloads
import RoninOS.Mem.PagingTheorems

namespace RoninOS.Kheap

open RoninOS.Lib RoninOS.Mem

/-! ## The heap invariant -/

/-- The heap window's pages up to `g_heap_end` are mapped. -/
structure PagesOk {σ : Type} (pool : TablePool) (h : Heap σ) : Prop where
  limit_eq : h.limit = kheapBase + kheapMaxSize
  end_aligned : h.end % 4096 = 0
  end_le : h.end ≤ h.limit
  paging : PagingOk pool h.paging
  mapped : ∀ page, kheapBase / 4096 ≤ page → page < h.end / 4096 →
    ∃ frame, frame ≠ 0 ∧ pageMap h.paging page = some frame

/-- The heap's globals, block list and pages fit together. -/
structure HeapOk {σ : Type} (pool : TablePool) (h : Heap σ) (cells : List Cell) : Prop where
  ready : h.ready = true
  head_eq : h.head = kheapBase
  layout : Layout h.mem kheapBase cells
  nonempty : cells ≠ []
  span_le : kheapBase + span cells ≤ h.end
  pages : PagesOk pool h

section Ops

variable {σ : Type} {A : FrameAllocator σ} {pool : TablePool} {h h' : Heap σ} {cells : List Cell}

theorem PagesOk.end_lt (hok : PagesOk pool h) : h.end ≤ 0x19000000 := by
  have h1 := hok.end_le
  rw [hok.limit_eq] at h1
  exact h1

theorem HeapOk.end_lt (hok : HeapOk pool h cells) : h.end ≤ 0x19000000 := hok.pages.end_lt

/-- The invariant speaks of memory through the block list only. -/
theorem HeapOk.withMem (hok : HeapOk pool h cells) {m : Mem} {cells' : List Cell}
    (hlayout : Layout m kheapBase cells') (hne : cells' ≠ [])
    (hspan : kheapBase + span cells' ≤ h.end) : HeapOk pool { h with mem := m } cells' :=
  ⟨hok.ready, hok.head_eq, hlayout, hne, hspan, hok.pages.limit_eq, hok.pages.end_aligned,
    hok.pages.end_le, hok.pages.paging, hok.pages.mapped⟩

/-! ## Growing -/

/-- One round of `heap_expand`'s page loop: a frame cannot be had, or the page
cannot be added, or one page is added. -/
theorem expandPages_cases (hok : PagesOk pool h) {rounds : Nat} {ret : Int}
    (hexp : expandPages A pool (rounds + 1) h = some (ret, h')) :
    (ret = -1 ∧ (A.alloc h.frames).1 = 0 ∧ h' = { h with frames := (A.alloc h.frames).2 }) ∨
    (ret = -1 ∧ (A.alloc h.frames).1 ≠ 0 ∧
      (h.limit < h.end + 4096 ∨ (A.alloc h.frames).1 % 4096 ≠ 0) ∧
      h' = { h with frames := A.free (A.alloc h.frames).2 (A.alloc h.frames).1 }) ∨
    ∃ paging, (A.alloc h.frames).1 ≠ 0 ∧ (A.alloc h.frames).1 % 4096 = 0 ∧
      h.end + 4096 ≤ h.limit ∧ PagingOk pool paging ∧
      pageMap paging = Function.update (pageMap h.paging) (h.end / 4096)
        (some (A.alloc h.frames).1) ∧
      expandPages A pool rounds
        { h with frames := (A.alloc h.frames).2, paging, «end» := h.end + 4096 } = some (ret, h') := by
  have hend := hok.end_lt
  have halign := hok.end_aligned
  have hlt := A.alloc_lt h.frames
  have hnext : add32 h.end pmmFrameSize = h.end + 4096 :=
    add32_of_lt (by simp only [pmmFrameSize]; omega)
  rw [expandPages] at hexp
  generalize A.alloc h.frames = alloc at hexp hlt ⊢
  obtain ⟨frame, frames⟩ := alloc
  simp only [hnext] at hexp hlt ⊢
  by_cases h0 : frame = 0
  · rw [if_pos h0, Option.some.injEq, Prod.mk.injEq] at hexp
    exact Or.inl ⟨hexp.1.symm, h0, hexp.2.symm⟩
  · rw [if_neg h0] at hexp
    by_cases hroom : h.end + 4096 > h.limit
    · rw [if_pos hroom, Option.some.injEq, Prod.mk.injEq] at hexp
      exact Or.inr (Or.inl ⟨hexp.1.symm, h0, Or.inl hroom, hexp.2.symm⟩)
    · rw [if_neg hroom, Option.bind_eq_some_iff] at hexp
      obtain ⟨⟨r, paging⟩, hmap, hrest⟩ := hexp
      rcases mapPage_spec hok.paging (by omega) hlt hmap with
        ⟨rfl, rfl, hbad⟩ | ⟨rfl, -, hframe16, hpok, hupdate⟩
      · simp only [ne_eq, Int.reduceNeg, Int.neg_eq_zero, one_ne_zero, not_false_eq_true, if_true,
          Option.some.injEq, Prod.mk.injEq] at hrest
        exact Or.inr (Or.inl ⟨hrest.1.symm, h0, Or.inr (by omega), hrest.2.symm⟩)
      · simp only [ne_eq, not_true_eq_false, if_false] at hrest
        exact Or.inr (Or.inr ⟨paging, h0, hframe16, by omega, hpok, hupdate, hrest⟩)

/-- The state after one page is added. -/
theorem PagesOk.addPage (hok : PagesOk pool h) {paging : Paging} {frame : Nat} {frames : σ}
    (h0 : frame ≠ 0) (hroom : h.end + 4096 ≤ h.limit) (hpok : PagingOk pool paging)
    (hupdate : pageMap paging = Function.update (pageMap h.paging) (h.end / 4096) (some frame)) :
    PagesOk pool { h with frames, paging, «end» := h.end + 4096 } := by
  have halign := hok.end_aligned
  refine ⟨hok.limit_eq, by simp only; omega, hroom, hpok, fun page h1 h2 => ?_⟩
  simp only at h2 ⊢
  rw [hupdate]
  by_cases hpage : page = h.end / 4096
  · exact ⟨frame, h0, by rw [hpage, Function.update_self]⟩
  · rw [Function.update_of_ne hpage]
    exact hok.mapped page h1 (by omega)

/-- The page loop keeps the pages in order and changes nothing but `g_heap_end`,
the page tables and the frames. -/
theorem expandPages_ok : ∀ {rounds : Nat} {h h' : Heap σ} {ret : Int}, PagesOk pool h →
    expandPages A pool rounds h = some (ret, h') →
    PagesOk pool h' ∧ h.end ≤ h'.end ∧ (ret = 0 → h'.end = h.end + 4096 * rounds) ∧
      h' = { h with «end» := h'.end, paging := h'.paging, frames := h'.frames }
  | 0, h, h', ret, hok, hexp => by
      obtain ⟨rfl, rfl⟩ := Prod.mk.inj (Option.some.inj hexp)
      exact ⟨hok, le_refl _, fun _ => by omega, rfl⟩
  | rounds + 1, h, h', ret, hok, hexp => by
      have hframes : ∀ frames : σ, PagesOk pool { h with frames } := fun _ =>
        ⟨hok.limit_eq, hok.end_aligned, hok.end_le, hok.paging, hok.mapped⟩
      rcases expandPages_cases hok hexp with ⟨rfl, -, rfl⟩ | ⟨rfl, -, -, rfl⟩ |
        ⟨paging, h0, -, hroom, hpok, hupdate, hrest⟩
      · exact ⟨hframes _, le_refl _, fun hret => absurd hret (by decide), rfl⟩
      · exact ⟨hframes _, le_refl _, fun hret => absurd hret (by decide), rfl⟩
      · obtain ⟨hok', hle, hend, heq⟩ := expandPages_ok (hok.addPage h0 hroom hpok hupdate) hrest
        refine ⟨hok', Nat.le_trans (Nat.le_add_right _ _) hle, fun hret => ?_, heq⟩
        rw [hend hret]
        simp only
        omega

/-- `needed` of `heap_expand`, for a request that does not wrap. -/
theorem needed_eq {minBytes : Nat} (hfit : minBytes + 4111 < 2 ^ 32) :
    alignUp (add32 minBytes blockOverhead) pmmFrameSize = (minBytes + 4111) / 4096 * 4096 := by
  rw [blockOverhead, add32_of_lt (by omega : minBytes + 16 < 2 ^ 32),
    show pmmFrameSize = 2 ^ 12 from rfl, alignUp_eq (by decide) (by omega)]
  omega

/-- `heap_expand` keeps the blocks in use; when it returns 0 some free block is
large enough, and otherwise the list is as it was. -/
theorem heapExpand_ok {fuel minBytes : Nat} {ret : Int} (hok : HeapOk pool h cells)
    (hmin : minBytes % 16 = 0) (hfit : minBytes + 4111 < 2 ^ 32)
    (hexp : heapExpand A pool fuel h minBytes = some (ret, h')) :
    ∃ cells', HeapOk pool h' cells' ∧ payloads kheapBase cells' = payloads kheapBase cells ∧
      (ret = 0 → (∃ c ∈ cells', c.Fits minBytes) ∧ cells'.length ≤ cells.length + 1) ∧
      (ret ≠ 0 → cells' = cells ∧ h'.mem = h.mem) ∧ Evolves h.mem h'.mem cells cells' := by
  obtain ⟨needed, hN⟩ : ∃ n, n = (minBytes + 4111) / 4096 * 4096 := ⟨_, rfl⟩
  rw [heapExpand, needed_eq hfit, ← hN, Option.bind_eq_some_iff] at hexp
  obtain ⟨⟨r, h1⟩, hpages, hrest⟩ := hexp
  obtain ⟨hpages1, hend0, hend1, heq1⟩ := expandPages_ok hok.pages hpages
  have hmem1 : h1.mem = h.mem := by rw [heq1]
  have hok1 : HeapOk pool h1 cells := by
    refine ⟨?_, ?_, ?_, hok.nonempty, Nat.le_trans hok.span_le hend0, hpages1⟩
    · rw [heq1]
      exact hok.ready
    · rw [heq1]
      exact hok.head_eq
    · rw [hmem1]
      exact hok.layout
  simp only at hrest
  by_cases hr : r = 0
  · subst hr
    have hend1 := hend1 rfl
    have hneeded : 4096 * (needed / pmmFrameSize) = needed := by
      simp only [pmmFrameSize]
      omega
    have hneeded16 : needed % 16 = 0 := by omega
    have hmin' : minBytes + 16 ≤ needed := by omega
    have hspan := hok.span_le
    have hend := hok1.end_lt
    rw [if_neg (by simp), Option.map_eq_some_iff] at hrest
    obtain ⟨tail, hlast, hrest⟩ := hrest
    rw [hok1.head_eq] at hlast
    obtain ⟨mid, c, rfl, rfl⟩ :=
      lastBlock_spec hok1.layout.linked hok1.layout.base_pos hok1.nonempty hlast
    obtain ⟨hb, hc, hfitc⟩ := hok1.layout.cell_addr
    have hbase : kheapBase = 0x18000000 := rfl
    rw [if_neg (by omega), hok1.layout.headerAt_cell] at hrest
    simp only [flag_ne_zero] at hrest
    have hspan' : span (mid ++ [c]) = span mid + 16 + c.size := by
      simp only [span_append, span_cons, span_nil, blockOverhead]
      omega
    by_cases hfree : c.free = true
    · -- the tail grows
      rw [if_pos hfree, add32_of_lt (by omega)] at hrest
      obtain ⟨rfl, rfl⟩ := Prod.mk.inj hrest
      refine ⟨mid ++ [⟨c.size + needed, c.free⟩], hok1.withMem
        (hok1.layout.growTail hneeded16 (by omega)) (by simp) ?_, ?_, ?_, fun hne => absurd rfl hne,
        fun hcoal => hcoal.resize _, ?_, ?_⟩
      · simp only [span_append, span_cons, span_nil, blockOverhead]
        omega
      · simp [payloads_append, payloads, hfree]
      · exact fun _ => ⟨⟨⟨c.size + needed, c.free⟩, by simp, hfree, by simp only; omega⟩, by simp⟩
      · simp only [span_append, span_cons, span_nil]
        omega
      · intro y hy _
        rw [← hmem1]
        exact growTail_same h1.mem mid c kheapBase _ y hy
    · -- a new tail
      have hused : c.free = false := by simpa using hfree
      rw [if_neg hfree, blockOverhead, add32_of_lt (by omega : kheapBase + span mid + 16 < 2 ^ 32),
        add32_of_lt (by omega : kheapBase + span mid + 16 + c.size < 2 ^ 32),
        sub32_of_le (by omega : 16 ≤ needed) (by omega)] at hrest
      obtain ⟨rfl, rfl⟩ := Prod.mk.inj hrest
      refine ⟨mid ++ [c, ⟨needed - 16, true⟩], hok1.withMem
        (hok1.layout.appendTail (by omega) (by omega) rfl) (by simp) ?_, ?_, ?_,
        fun hne => absurd rfl hne, fun hcoal => ?_, ?_, ?_⟩
      · simp only [span_append, span_cons, span_nil, blockOverhead]
        omega
      · simp [payloads_append, payloads, hused]
      · exact fun _ => ⟨⟨⟨needed - 16, true⟩, by simp, rfl, by simp only; omega⟩, by simp⟩
      · obtain ⟨s, f⟩ := c
        obtain rfl : f = false := hused
        exact coalesced_used hcoal.left (List.isChain_singleton _)
      · simp only [span_append, span_cons, span_nil]
        omega
      · intro y hy _
        rw [← hmem1]
        exact appendTail_same rfl y hy
  · rw [if_pos hr, Option.some.injEq, Prod.mk.injEq] at hrest
    obtain ⟨rfl, rfl⟩ := hrest
    exact ⟨cells, hok1, rfl, fun h0 => absurd h0 (by decide), fun _ => ⟨rfl, hmem1⟩,
      hmem1 ▸ Evolves.refl _ _⟩

/-! ## `kmalloc` -/

/-- Taking a fitting free block: it becomes a block in use, split if it is large. -/
theorem HeapOk.take {pre post : List Cell} {c : Cell} {wanted : Nat}
    (hok : HeapOk pool h (pre ++ c :: post)) (hwanted : wanted % 16 = 0) (hc : c.Fits wanted) :
    ∃ cells' s, wanted ≤ s ∧
      HeapOk pool { h with
        mem := (setFree (splitBlock h.mem (kheapBase + span pre) wanted) (kheapBase + span pre) 0) }
        cells' ∧
      payloads kheapBase cells' = payloads kheapBase pre ++
        (kheapBase + span pre + 16, s) ::
          payloads (kheapBase + span pre + 16 + c.size) post ∧
      Evolves h.mem (setFree (splitBlock h.mem (kheapBase + span pre) wanted)
        (kheapBase + span pre) 0) (pre ++ c :: post) cells' := by
  obtain ⟨hfree, hsize⟩ := hc
  obtain ⟨-, -, hfit⟩ := hok.layout.cell_addr
  have hov : blockOverhead = 16 := rfl
  have hspan := hok.span_le
  have hend := hok.end_lt
  have hbase : kheapBase = 0x18000000 := rfl
  simp only [span_append, span_cons, blockOverhead] at hspan
  -- the second store is into a header as well
  have hflag : ∀ {m : Mem}, SamePayloads (payloads kheapBase (pre ++ c :: post)) h.mem m →
      SamePayloads (payloads kheapBase (pre ++ c :: post)) h.mem
        (setFree m (kheapBase + span pre) 0) := fun hm =>
    hm.trans (setFree_same _ pre post c kheapBase 0)
  by_cases hbig : wanted + 32 < c.size
  · -- the block is cut and the rest stays free
    have hsplit := hok.layout.splitBlock hwanted hbig
    simp only [List.cons_append, List.nil_append] at hsplit
    refine ⟨pre ++ ⟨wanted, false⟩ :: ⟨c.size - wanted - 16, true⟩ :: post, wanted, le_refl _,
      hok.withMem (hsplit.setFree false) (by simp) ?_, ?_, fun hcoal => ?_, ?_, fun y hy _ => ?_⟩
    · simp only [span_append, span_cons, blockOverhead]
      omega
    · rw [payloads_append, payloads, payloads]
      simp only [Bool.false_eq_true, if_false, if_true, blockOverhead]
      rw [show kheapBase + span pre + 16 + wanted + 16 + (c.size - wanted - 16)
        = kheapBase + span pre + 16 + c.size by omega]
    · exact coalesced_used hcoal.left (coalesced_free (List.isChain_nil)
        (Coalesced.right (List.append_cons pre c post ▸ hcoal)) (by simp) (hcoal.head_used hfree))
    · simp only [span_append, span_cons, blockOverhead]
      omega
    · exact hflag (hok.layout.splitBlock_same hfree hwanted hbig) y hy
  · have hsmall : splitBlock h.mem (kheapBase + span pre) wanted = h.mem := by
      refine splitBlock_small (by omega) ?_
      rw [hok.layout.headerAt_cell]
      simp only
      omega
    rw [hsmall]
    refine ⟨pre ++ ⟨c.size, false⟩ :: post, c.size, hsize, ?_, ?_, fun hcoal => ?_, ?_,
      fun y hy _ => ?_⟩
    · refine hok.withMem (hok.layout.setFree false) (by simp) ?_
      simp only [span_append, span_cons, blockOverhead]
      omega
    · rw [payloads_append, payloads]
      simp [blockOverhead]
    · exact coalesced_used hcoal.left (Coalesced.right (List.append_cons pre c post ▸ hcoal))
    · simp only [span_append, span_cons]
      exact le_refl _
    · exact hflag (SamePayloads.refl _ _) y hy

/-- What an allocation does to the blocks in use: one more at `p`, or none when
`p` is null. -/
def Allocates (wanted p : Nat) (old new : List (Nat × Nat)) : Prop :=
  (p = 0 ∧ new = old) ∨
  (p ≠ 0 ∧ ∃ before after s, wanted ≤ s ∧ old = before ++ after ∧ new = before ++ (p, s) :: after)

theorem kmallocLoop_ok {fuel wanted : Nat} (hwanted : wanted % 16 = 0)
    (hfit : wanted + 4111 < 2 ^ 32) : ∀ {retries : Nat} {h h' : Heap σ} {cells : List Cell} {p : Nat},
    HeapOk pool h cells → kmallocLoop A pool fuel wanted retries h = some (p, h') →
    ∃ cells', HeapOk pool h' cells' ∧
      Allocates wanted p (payloads kheapBase cells) (payloads kheapBase cells') ∧
      Evolves h.mem h'.mem cells cells'
  | 0, _, _, _, _, _, hrun => by simp [kmallocLoop] at hrun
  | retries + 1, h, h', cells, p, hok, hrun => by
      have hbase : kheapBase = 0x18000000 := rfl
      have hend := hok.end_lt
      have hspan := hok.span_le
      rw [kmallocLoop, Option.bind_eq_some_iff] at hrun
      obtain ⟨cur, hscan, hrun⟩ := hrun
      rw [hok.head_eq] at hscan
      rcases findFree_spec hok.layout hok.nonempty hscan with
        ⟨rfl, -⟩ | ⟨mid, c, post, rfl, rfl, hc, -⟩
      · -- nothing fits: grow and try again, or give up
        rw [if_neg (by simp), Option.bind_eq_some_iff] at hrun
        obtain ⟨⟨ret, h1⟩, hexp, hrun⟩ := hrun
        obtain ⟨cells1, hok1, hpay, -, -, hev1⟩ := heapExpand_ok hok hwanted hfit hexp
        simp only at hrun
        split at hrun
        · obtain ⟨cells', hok', halloc, hev'⟩ := kmallocLoop_ok hwanted hfit hok1 hrun
          exact ⟨cells', hok', hpay ▸ halloc, hev1.trans hev' fun y hy _ => hpay ▸ hy⟩
        · obtain ⟨rfl, rfl⟩ := Prod.mk.inj (Option.some.inj hrun)
          exact ⟨cells1, hok1, Or.inl ⟨rfl, hpay⟩, hev1⟩
      · simp only [span_append, span_cons, blockOverhead] at hspan
        rw [if_pos (by omega), Option.some.injEq, Prod.mk.injEq, blockOverhead,
          add32_of_lt (by omega)] at hrun
        obtain ⟨rfl, rfl⟩ := hrun
        obtain ⟨cells', s, hs, hok', hpay, hev⟩ := hok.take hwanted hc
        refine ⟨cells', hok', Or.inr ⟨by omega, payloads kheapBase mid,
          payloads (kheapBase + span mid + 16 + c.size) post, s, hs, ?_, hpay⟩, hev⟩
        rw [payloads_cut, hc.1]
        rfl

/-- `wanted` of `kmalloc`, for a request that does not wrap. -/
theorem wanted_eq {size : Nat} (hfit : size + 15 < 2 ^ 32) :
    add32 size (heapAlign - 1) &&& not32 (heapAlign - 1) = (size + 15) / 16 * 16 := by
  rw [heapAlign, add32_of_lt (by omega : size + (16 - 1) < 2 ^ 32)]
  exact and_not32_mask (k := 4) (by decide) (by omega)

/-- `kmalloc` keeps the invariant and adds at most one block in use, which is
at least as large as the request. -/
theorem kmalloc_ok {fuel size p : Nat} (hok : HeapOk pool h cells) (hfit : size + 4111 < 2 ^ 32)
    (hrun : kmalloc A pool fuel h size = some (p, h')) :
    ∃ cells', HeapOk pool h' cells' ∧
      Allocates size p (payloads kheapBase cells) (payloads kheapBase cells') ∧
      Evolves h.mem h'.mem cells cells' := by
  rw [kmalloc] at hrun
  split at hrun
  · obtain ⟨rfl, rfl⟩ := Prod.mk.inj (Option.some.inj hrun)
    exact ⟨cells, hok, Or.inl ⟨rfl, rfl⟩, Evolves.refl _ _⟩
  · rw [wanted_eq (by omega)] at hrun
    obtain ⟨cells', hok', halloc, hev⟩ := kmallocLoop_ok (by omega) (by omega) hok hrun
    refine ⟨cells', hok', halloc.imp_right fun ⟨hp, before, after, s, hs, h1, h2⟩ => ?_, hev⟩
    exact ⟨hp, before, after, s, by omega, h1, h2⟩

/-! ## `kfree` -/

/-- Two free neighbours and the block they become hold no payload. -/
theorem payloads_merged (base : Nat) (pre post : List Cell) {c d : Cell} (hc : c.free = true)
    (hd : d.free = true) :
    payloads base (pre ++ ⟨c.size + 16 + d.size, c.free⟩ :: post)
      = payloads base (pre ++ c :: d :: post) := by
  rw [payloads_cut, payloads_cut, payloads, if_pos hd]
  simp only [hc, if_true, List.nil_append, blockOverhead]
  congr 2
  omega

/-- The forward merge of a freed block takes a free next block in. -/
theorem Layout.mergeNext_freed {m : Mem} {a : Nat} {pre post : List Cell}
    (h : Layout m kheapBase (pre ++ ⟨a, true⟩ :: post)) : ∃ size post',
      Layout (Kheap.mergeNext m (kheapBase + span pre)) kheapBase (pre ++ ⟨size, true⟩ :: post') ∧
      size + span post' = a + span post ∧
      payloads kheapBase (pre ++ ⟨size, true⟩ :: post')
        = payloads kheapBase (pre ++ ⟨a, true⟩ :: post) ∧
      SamePayloads (payloads kheapBase (pre ++ ⟨a, true⟩ :: post)) m
        (Kheap.mergeNext m (kheapBase + span pre)) ∧
      (Coalesced post → Coalesced post' ∧ ∀ y ∈ post'.head?, y.free = false) := by
  cases post with
  | nil =>
      rw [h.mergeNext_used (by simp)]
      exact ⟨a, [], h, rfl, rfl, .refl _ _, fun hc => ⟨hc, by simp⟩⟩
  | cons d es =>
      cases hd : d.free with
      | true =>
          refine ⟨a + 16 + d.size, es, h.mergeNext hd, ?_,
            @payloads_merged kheapBase pre es ⟨a, true⟩ d rfl hd, h.mergeNext_same hd,
            fun hc => ⟨?_, ?_⟩⟩
          · rw [span_cons, blockOverhead]
            omega
          · exact @Coalesced.right _ [d] hc
          · exact @Coalesced.head_used [] _ _ hc hd
      | false =>
          rw [h.mergeNext_used (by rintro e fs heq; obtain ⟨rfl, -⟩ := List.cons.inj heq; exact hd)]
          exact ⟨a, d :: es, h, rfl, rfl, .refl _ _, fun hc => ⟨hc, by simpa using hd⟩⟩

/-- `kfree` of a block leaves the payloads before and behind it. -/
theorem kfree_cell {pre post : List Cell} {c : Cell} (hok : HeapOk pool h (pre ++ c :: post)) :
    ∃ cells', HeapOk pool (kfree h (kheapBase + span pre + 16)) cells' ∧
      payloads kheapBase cells' = payloads kheapBase pre ++
        payloads (kheapBase + span pre + 16 + c.size) post ∧
      Evolves h.mem (kfree h (kheapBase + span pre + 16)).mem (pre ++ c :: post) cells' := by
  have hbase : kheapBase = 0x18000000 := rfl
  have hov : blockOverhead = 16 := rfl
  have hspan := hok.span_le
  have hend := hok.end_lt
  simp only [span_append, span_cons, blockOverhead] at hspan
  rw [kfree, if_neg (by simp [hok.ready]), blockOverhead,
    sub32_of_le (by omega) (by omega), Nat.add_sub_cancel]
  simp only
  have h1 := hok.layout.setFree true
  rw [show flag true = 1 from rfl] at h1
  generalize hpayP : payloads kheapBase pre ++
    payloads (kheapBase + span pre + 16 + c.size) post = P
  have hpay1 : payloads kheapBase (pre ++ ⟨c.size, true⟩ :: post) = P := by
    rw [payloads_cut, blockOverhead, ← hpayP]
    rfl
  have hsame1 : SamePayloads P h.mem (setFree h.mem (kheapBase + span pre) 1) :=
    hpay1 ▸ setFree_same h.mem pre post ⟨c.size, true⟩ kheapBase 1
  obtain ⟨size, post', hmerged, hsize, hpay, hsame, hcoal⟩ := h1.mergeNext_freed
  rw [hpay1] at hpay hsame
  replace hsame := hsame1.trans hsame
  generalize mergeNext (setFree h.mem (kheapBase + span pre) 1) (kheapBase + span pre) = m
    at hmerged hsame
  rw [hmerged.headerAt_cell]
  simp only
  have hspan' : span (pre ++ ⟨size, true⟩ :: post') = span (pre ++ c :: post) := by
    simp only [span_append, span_cons, blockOverhead]
    omega
  have hkeep : HeapOk pool { h with mem := m } (pre ++ ⟨size, true⟩ :: post') :=
    hok.withMem hmerged (by simp) (hspan' ▸ hok.span_le)
  -- the backward merge
  rcases List.eq_nil_or_concat pre with rfl | ⟨pre', d, rfl⟩
  · simp only [lastAddr, ne_eq, not_true_eq_false, false_and, if_false]
    refine ⟨_, hkeep, hpay, fun hc => ?_, hspan'.ge, fun y _ hy => hsame y (hpay ▸ hy)⟩
    obtain ⟨hpost, hhead⟩ := hcoal (@Coalesced.right _ [c] hc)
    exact @coalesced_free [] _ _ List.isChain_nil hpost (by simp) hhead
  · rw [List.concat_eq_append] at *
    have hcut : pre' ++ [d] ++ ⟨size, true⟩ :: post' = pre' ++ d :: ⟨size, true⟩ :: post' := by simp
    rw [lastAddr_concat]
    rw [hcut] at hmerged hkeep hpay hspan'
    rw [hmerged.headerAt_cell]
    simp only [flag_ne_zero]
    have hcoal' : Coalesced (pre' ++ [d] ++ c :: post) →
        Coalesced post' ∧ ∀ y ∈ post'.head?, y.free = false := fun hc =>
      hcoal (Coalesced.right (List.append_cons (pre' ++ [d]) c post ▸ hc))
    by_cases hd : d.free = true
    · rw [if_pos ⟨by omega, hd⟩]
      have hpay' : payloads kheapBase (pre' ++ ⟨d.size + 16 + size, d.free⟩ :: post') = P :=
        (payloads_merged _ _ _ hd rfl).trans hpay
      have hspan'' : span (pre' ++ ⟨d.size + 16 + size, d.free⟩ :: post')
          = span (pre' ++ [d] ++ c :: post) := by
        rw [← hspan']
        simp only [span_append, span_cons, blockOverhead]
        omega
      refine ⟨_, hok.withMem (hmerged.mergeNext rfl) (by simp) (hspan'' ▸ hok.span_le), hpay',
        fun hc => ?_, hspan''.ge, fun y _ hy => ?_⟩
      · obtain ⟨hpost, hhead⟩ := hcoal' hc
        have hc' : Coalesced (pre' ++ d :: c :: post) := by simpa using hc
        rw [hd]
        exact coalesced_free hc'.left hpost (hc'.last_used hd) hhead
      · exact (hsame.trans (hpay ▸ hmerged.mergeNext_same rfl)) y (hpay' ▸ hy)
    · rw [if_neg (fun hc => hd hc.2)]
      refine ⟨_, hkeep, hpay, fun hc => ?_, hspan'.ge, fun y _ hy => hsame y (hpay ▸ hy)⟩
      obtain ⟨hpost, hhead⟩ := hcoal' hc
      have hused : d.free = false := by simpa using hd
      rw [← hcut]
      exact coalesced_free hc.left hpost (by simpa using hused) hhead

/-- What a release does to the blocks in use: the one at `p` goes. -/
def Releases (p : Nat) (old new : List (Nat × Nat)) : Prop :=
  ∃ before s after, old = before ++ (p, s) :: after ∧ new = before ++ after

theorem Releases.mem {p : Nat} {old new : List (Nat × Nat)} (h : Releases p old new)
    {y : Nat × Nat} (hy : y ∈ old) (hne : y.1 ≠ p) : y ∈ new := by
  obtain ⟨before, s, after, rfl, rfl⟩ := h
  rcases List.mem_append.mp hy with hy | hy
  · exact List.mem_append_left _ hy
  · rcases List.mem_cons.mp hy with rfl | hy
    · exact absurd rfl hne
    · exact List.mem_append_right _ hy

/-- `kfree` of a live pointer removes its block from the blocks in use. -/
theorem kfree_ok {p s : Nat} (hok : HeapOk pool h cells) (hp : (p, s) ∈ payloads kheapBase cells) :
    ∃ cells', HeapOk pool (kfree h p) cells' ∧
      Releases p (payloads kheapBase cells) (payloads kheapBase cells') ∧
      Evolves h.mem (kfree h p).mem cells cells' := by
  obtain ⟨pre, c, post, rfl, hfree, rfl, rfl⟩ := mem_payloads hp
  obtain ⟨cells', hok', hpay, hev⟩ := kfree_cell hok
  refine ⟨cells', hok', ⟨_, c.size, _, ?_, hpay⟩, hev⟩
  rw [payloads_cut, hfree]
  rfl

/-! ## `krealloc` -/

/-- Writing inside a payload leaves the block list alone. -/
theorem HeapOk.write {p s : Nat} {m : Mem} (hok : HeapOk pool h cells)
    (hp : (p, s) ∈ payloads kheapBase cells) (hm : ∀ x, x < p ∨ p + s ≤ x → m x = h.mem x) :
    HeapOk pool { h with mem := m } cells := by
  obtain ⟨pre', c', post', hcut', -, rfl, rfl⟩ := mem_payloads hp
  refine hok.withMem ⟨?_, hok.layout.aligned, hok.layout.base_aligned, hok.layout.base_pos,
    hok.layout.fits⟩ hok.nonempty hok.span_le
  refine hok.layout.linked.congr_cells fun pre c post hcut => headerAt_congr fun k hk => hm _ ?_
  have hov : blockOverhead = 16 := rfl
  rcases cut_cases (hcut.symm.trans hcut') with hbefore | ⟨rfl, rfl⟩ | hbehind <;> omega

/-- The size word of a live pointer's block. -/
theorem HeapOk.headerAt_payload {p s : Nat} (hok : HeapOk pool h cells)
    (hp : (p, s) ∈ payloads kheapBase cells) :
    p ≠ 0 ∧ p < 2 ^ 32 ∧ (headerAt h.mem (sub32 p blockOverhead)).size = s := by
  obtain ⟨pre, c, post, rfl, hfree, rfl, rfl⟩ := mem_payloads hp
  obtain ⟨-, -, hfit⟩ := hok.layout.cell_addr
  have hov : blockOverhead = 16 := rfl
  rw [sub32_of_le (by omega) (by omega), Nat.add_sub_cancel, hok.layout.headerAt_cell]
  exact ⟨by omega, by omega, rfl⟩

/-- What `krealloc p newSize` does to the blocks in use when it returns `q`. -/
def Reallocates (newSize p q : Nat) (old new : List (Nat × Nat)) : Prop :=
  (newSize = 0 ∧ q = 0 ∧ Releases p old new) ∨
  (newSize ≠ 0 ∧ q = 0 ∧ new = old) ∨
  (newSize ≠ 0 ∧ q ≠ 0 ∧ q = p ∧ (∃ s, (p, s) ∈ old ∧ newSize ≤ s) ∧ new = old) ∨
  (newSize ≠ 0 ∧ q ≠ 0 ∧ ∃ mid, (mid.map Prod.fst).Nodup ∧ Allocates newSize q old mid ∧
    Releases p mid new)

/-- A payload that is new in the list shares no byte with the old ones. -/
theorem fresh_payload {cells1 : List Cell} {before after : List (Nat × Nat)} {q s : Nat}
    (hold : payloads kheapBase cells = before ++ after)
    (hnew : payloads kheapBase cells1 = before ++ (q, s) :: after) :
    (q, s) ∈ payloads kheapBase cells1 ∧ ∀ y ∈ payloads kheapBase cells,
      y ∈ payloads kheapBase cells1 ∧ y.1 ≠ q ∧ (y.1 + y.2 ≤ q ∨ q + s ≤ y.1) := by
  have hmem : (q, s) ∈ payloads kheapBase cells1 := by rw [hnew]; simp
  refine ⟨hmem, fun y hy => ?_⟩
  have hkept : y ∈ payloads kheapBase cells1 := by
    rw [hold] at hy
    rw [hnew]
    simp only [List.mem_append, List.mem_cons] at hy ⊢
    tauto
  have hfresh : y.1 ≠ q := by
    intro heq
    have hnodup := payloads_nodup cells1 kheapBase
    rw [hnew, List.map_append, List.map_cons, List.nodup_middle, List.nodup_cons,
      ← List.map_append, ← hold] at hnodup
    exact hnodup.1 (List.mem_map.mpr ⟨y, hy, heq⟩)
  refine ⟨hkept, hfresh, ?_⟩
  obtain ⟨pre, c, post, hcut, -, rfl, rfl⟩ := mem_payloads hmem
  have hov : blockOverhead = 16 := rfl
  rcases payload_apart hkept hcut with hbefore | hbehind | ⟨hin, -, -⟩
  · exact Or.inl (by omega)
  · exact Or.inr (by omega)
  · exact absurd hin hfresh

/-- `krealloc` of a live pointer, for a `kmalloc` that allocates: the payload at
the result begins with the bytes of the old one. -/
theorem krealloc_ok_of {fuel p s newSize q : Nat} (hok : HeapOk pool h cells)
    (hp : (p, s) ∈ payloads kheapBase cells)
    (hkmalloc : s < newSize → ∀ np h1, kmalloc A pool fuel h newSize = some (np, h1) →
      ∃ cells1, HeapOk pool h1 cells1 ∧
        Allocates newSize np (payloads kheapBase cells) (payloads kheapBase cells1) ∧
        Evolves h.mem h1.mem cells cells1)
    (hrun : krealloc A pool fuel h p newSize = some (q, h')) :
    ∃ cells', HeapOk pool h' cells' ∧
      Reallocates newSize p q (payloads kheapBase cells) (payloads kheapBase cells') ∧
      Evolves h.mem h'.mem cells cells' ∧
      (q ≠ 0 → ∀ i < min s newSize, h'.mem (q + i) = h.mem (p + i)) := by
  obtain ⟨hp0, -, hsize⟩ := hok.headerAt_payload hp
  rw [krealloc, if_neg hp0] at hrun
  split at hrun
  · rename_i hzero
    obtain ⟨rfl, rfl⟩ := Prod.mk.inj (Option.some.inj hrun)
    obtain ⟨cells', hok', hrel, hev⟩ := kfree_ok hok hp
    exact ⟨cells', hok', Or.inl ⟨hzero, rfl, hrel⟩, hev, fun hne => absurd rfl hne⟩
  · rename_i hzero
    simp only [hsize] at hrun
    split at hrun
    · rename_i hle
      obtain ⟨rfl, rfl⟩ := Prod.mk.inj (Option.some.inj hrun)
      exact ⟨cells, hok, Or.inr (Or.inr (Or.inl ⟨hzero, hp0, rfl, ⟨s, hp, hle⟩, rfl⟩)),
        Evolves.refl _ _, fun _ _ _ => rfl⟩
    · rename_i hlarge
      rw [Option.map_eq_some_iff] at hrun
      obtain ⟨⟨np, h1⟩, hmalloc, hrun⟩ := hrun
      obtain ⟨cells1, hok1, halloc, hev1⟩ := hkmalloc (Nat.not_le.mp hlarge) np h1 hmalloc
      simp only at hrun
      split at hrun
      · rename_i hnp
        obtain ⟨rfl, rfl⟩ := Prod.mk.inj hrun
        rcases halloc with ⟨-, hsame⟩ | ⟨hne, -⟩
        · exact ⟨cells1, hok1, Or.inr (Or.inl ⟨hzero, rfl, hsame⟩), hev1, fun hne => absurd rfl hne⟩
        · exact absurd hnp hne
      · rename_i hnp
        obtain ⟨rfl, rfl⟩ := Prod.mk.inj hrun
        rcases halloc with ⟨hnp0, -⟩ | ⟨-, before, after, s', hs', hold, hnew⟩
        · exact absurd hnp0 hnp
        · obtain ⟨hmem, hold'⟩ := fresh_payload hold hnew
          have hkept := fun y hy => (hold' y hy).1
          have hfresh := fun y hy => (hold' y hy).2.1
          have hdisjoint := fun y hy => (hold' y hy).2.2
          have hp1 := hkept _ hp
          have hps := hdisjoint _ hp
          simp only at hps
          rw [(hok1.headerAt_payload hp1).2.2, if_neg (by omega)]
          -- the copy stays inside the new payload
          have hcopy : ∀ x, x < np ∨ np + s' ≤ x → copyBytes h1.mem np p s x = h1.mem x :=
            fun x hx => copyBytes_of_disjoint _ _ _ (by omega)
          have hok2 := hok1.write (m := copyBytes h1.mem np p s) hmem hcopy
          obtain ⟨cells', hok', hrel, hev⟩ := kfree_ok hok2 hp1
          refine ⟨cells', hok', Or.inr (Or.inr (Or.inr ⟨hzero, hnp, _,
            payloads_nodup cells1 kheapBase, Or.inr ⟨hnp, before, after, s', hs', hold, hnew⟩, hrel⟩)),
            ⟨fun hc => hev.coalesced (hev1.coalesced hc), Nat.le_trans hev1.span_le hev.span_le,
              fun y hy hy' x h1' h2' => ?_⟩, fun _ i hi => ?_⟩
          · have hout := hdisjoint y hy
            have hcopied : copyBytes h1.mem np p s x = h1.mem x := hcopy x (by omega)
            exact ((hev.same y (hkept y hy) hy' x h1' h2').trans hcopied).trans
              (hev1.same y hy (hkept y hy) x h1' h2')
          · have hmem' := hrel.mem hmem (hfresh (p, s) hp).symm
            have hi' : i < s := by omega
            have hcopied : copyBytes h1.mem np p s (np + i) = h1.mem (p + i) :=
              copyBytes_of_lt h1.mem (by omega) hi'
            exact ((hev.same _ hmem hmem' (np + i) (Nat.le_add_right _ _)
              (by simp only; omega)).trans hcopied).trans
              (hev1.same _ hp hp1 (p + i) (Nat.le_add_right _ _) (by simp only; omega))

/-- `krealloc` for sizes that do not wrap. -/
theorem krealloc_ok {fuel p s newSize q : Nat} (hok : HeapOk pool h cells)
    (hp : (p, s) ∈ payloads kheapBase cells) (hfit : newSize + 4111 < 2 ^ 32)
    (hrun : krealloc A pool fuel h p newSize = some (q, h')) :
    ∃ cells', HeapOk pool h' cells' ∧
      Reallocates newSize p q (payloads kheapBase cells) (payloads kheapBase cells') ∧
      Evolves h.mem h'.mem cells cells' ∧
      (q ≠ 0 → ∀ i < min s newSize, h'.mem (q + i) = h.mem (p + i)) :=
  krealloc_ok_of hok hp (fun _ _ _ hmalloc => kmalloc_ok hok hfit hmalloc) hrun

/-! ## `heap_init` -/

/-- The page loop of `heap_init` maps `rounds` pages behind `end`. -/
theorem initPages_ok : ∀ {rounds : Nat} {h h' : Heap σ}, PagingOk pool h.paging →
    h.end % 4096 = 0 → h.end + 4096 * rounds < 2 ^ 32 →
    (∀ page, kheapBase / 4096 ≤ page → page < h.end / 4096 →
      ∃ frame, frame ≠ 0 ∧ pageMap h.paging page = some frame) →
    initPages A pool rounds h = some h' →
    PagingOk pool h'.paging ∧ h' = { h with
      «end» := h.end + 4096 * rounds, paging := h'.paging, frames := h'.frames } ∧
    ∀ page, kheapBase / 4096 ≤ page → page < h'.end / 4096 →
      ∃ frame, frame ≠ 0 ∧ pageMap h'.paging page = some frame
  | 0, h, h', hpok, _, _, hmapped, hinit => by
      obtain rfl := Option.some.inj hinit
      exact ⟨hpok, rfl, hmapped⟩
  | rounds + 1, h, h', hpok, halign, hfit, hmapped, hinit => by
      have hle : h.end + 4096 ≤ h.end + 4096 * (rounds + 1) := by omega
      have hlt : h.end + 4096 < 2 ^ 32 := Nat.lt_of_le_of_lt hle hfit
      have hnext : add32 h.end pmmFrameSize = h.end + 4096 := add32_of_lt hlt
      have hframe := A.alloc_lt h.frames
      rw [initPages] at hinit
      generalize A.alloc h.frames = alloc at hinit hframe
      obtain ⟨frame, frames⟩ := alloc
      simp only [hnext] at hinit hframe
      split at hinit
      · simp at hinit
      · rename_i h0
        rw [Option.bind_eq_some_iff] at hinit
        obtain ⟨⟨r, paging⟩, hmap, hrest⟩ := hinit
        rcases mapPage_spec hpok (by omega) hframe hmap with
          ⟨rfl, -, -⟩ | ⟨rfl, -, -, hpok', hupdate⟩
        · simp at hrest
        · simp only [ne_eq, not_true_eq_false, if_false] at hrest
          have hmapped' : ∀ page, kheapBase / 4096 ≤ page → page < (h.end + 4096) / 4096 →
              ∃ frame, frame ≠ 0 ∧ pageMap paging page = some frame := by
            intro page h1 h2
            rw [hupdate]
            by_cases hpage : page = h.end / 4096
            · exact ⟨frame, h0, by rw [hpage, Function.update_self]⟩
            · rw [Function.update_of_ne hpage]
              exact hmapped page h1 (by omega)
          have hfit' : h.end + 4096 + 4096 * rounds < 2 ^ 32 := by
            rw [Nat.mul_succ] at hfit
            omega
          obtain ⟨hpok'', heq, hmapped''⟩ :=
            initPages_ok (h := { h with frames, paging, «end» := h.end + 4096 })
              hpok' (by simp only; omega) hfit' hmapped' hrest
          refine ⟨hpok'', ?_, hmapped''⟩
          rw [heq, Nat.mul_succ]
          simp only [Heap.mk.injEq, true_and, and_true]
          omega

/-- `heap_init` builds a heap of one free block. -/
theorem heapInit_ok {mem : Mem} {paging : Paging} {frames : σ} (hpok : PagingOk pool paging)
    (hinit : heapInit A pool mem paging frames = some h) :
    HeapOk pool h [⟨heapInitialPages * 4096 - 16, true⟩] ∧
      h.end = kheapBase + 4096 * heapInitialPages := by
  rw [heapInit, Option.map_eq_some_iff] at hinit
  obtain ⟨h1, hpages, rfl⟩ := hinit
  obtain ⟨hpok1, heq, hmapped⟩ := initPages_ok hpok
    (show kheapBase % 4096 = 0 by decide)
    (show kheapBase + 4096 * heapInitialPages < 2 ^ 32 by decide)
    (fun page h1 h2 => absurd h1 (by simp only at h2; omega)) hpages
  rw [heq] at hmapped ⊢
  have hsize : sub32 (sub32 (kheapBase + 4096 * heapInitialPages) kheapBase) blockOverhead
      = heapInitialPages * 4096 - 16 := by decide
  simp only [hsize]
  refine ⟨⟨rfl, rfl, ⟨⟨?_, trivial⟩, by simp [Aligned, heapInitialPages], by decide, by decide,
    by decide⟩, by simp, show kheapBase + span [⟨heapInitialPages * 4096 - 16, true⟩]
      ≤ kheapBase + 4096 * heapInitialPages by decide,
    rfl, show (kheapBase + 4096 * heapInitialPages) % 4096 = 0 by decide,
    show kheapBase + 4096 * heapInitialPages ≤ add32 kheapBase kheapMaxSize by decide, hpok1,
    hmapped⟩, trivial⟩
  rw [headerAt_setPrev (by decide) (by decide) (by decide), if_pos rfl,
    headerAt_setNext (by decide) (by decide) (by decide), if_pos rfl,
    headerAt_setFree (by decide) (by decide) (by decide), if_pos rfl,
    headerAt_setSize (by decide) (by decide) (by decide), if_pos rfl]
  rfl

end Ops

end RoninOS.Kheap
