/-
RoninOS.Kheap.HeapReuse — what `kfree` gives back can be had again.

A freed block becomes part of one free cell: in a coalesced heap the cells in use leave
no other way to fill the gap (`fits_of_gap`). So the next `kmalloc` that asks for no more
than the block had succeeds, and takes no page (`freed_is_reusable`). Where nothing was
freed the calls cut one block after the other from the free tail (`HeapOk.kmalloc_tail`).
-/
import RoninOS.Kheap.HeapSizes

namespace RoninOS.Kheap

open RoninOS.Lib RoninOS.Mem

/-- A gap between the cells in use, header and all, is inside one free cell. -/
theorem fits_of_gap {q n : Nat} : ∀ {cells : List Cell} {a : Nat}, Coalesced cells → a ≤ q →
    q + 16 + n ≤ a + span cells →
    (∀ y ∈ payloads a cells, y.1 + y.2 ≤ q ∨ q + 16 + n + 16 ≤ y.1) →
    ∃ c ∈ cells, c.Fits n := by
  intro cells
  induction cells with
  | nil =>
      intro a _ hle hend _
      rw [span_nil] at hend
      omega
  | cons c cs ih =>
      intro a hcoal hle hend hused
      have hov : blockOverhead = 16 := rfl
      rw [span_cons] at hend
      rw [payloads] at hused
      by_cases hbehind : a + blockOverhead + c.size ≤ q
      · -- the gap is behind the first cell
        obtain ⟨d, hd, hfits⟩ := @ih (a + blockOverhead + c.size) (@Coalesced.right _ [c] hcoal)
          hbehind (by omega) fun y hy => hused y (by split <;> simp [hy])
        exact ⟨d, List.mem_cons_of_mem c hd, hfits⟩
      · cases hfree : c.free with
        | false =>
            have hc := hused (a + blockOverhead, c.size) (by rw [hfree]; simp)
            simp only at hc
            omega
        | true =>
            by_cases hin : q + 16 + n ≤ a + blockOverhead + c.size
            · exact ⟨c, List.mem_cons_self, hfree, by omega⟩
            · -- the cell behind a free one is in use, and starts in the gap
              cases cs with
              | nil =>
                  rw [span_nil] at hend
                  omega
              | cons d ds =>
                  have hd : d.free = false := @Coalesced.head_used [] (d :: ds) c hcoal hfree d rfl
                  have hy := hused (a + blockOverhead + c.size + blockOverhead, d.size)
                    (by rw [hfree, payloads, hd]; simp)
                  simp only at hy
                  omega

/-- Behind cells in use the one free cell is the last. -/
theorem free_cell_last {used mid post : List Cell} {c d : Cell}
    (hused : ∀ c ∈ used, c.free = false) (hcut : used ++ [d] = mid ++ c :: post)
    (hfree : c.free = true) : mid = used := by
  cases post with
  | nil => exact (List.append_inj' hcut rfl).1.symm
  | cons e es =>
      have hlast := congrArg List.dropLast hcut
      rw [List.dropLast_concat, List.dropLast_append_of_ne_nil (List.cons_ne_nil _ _)] at hlast
      have hmem : c ∈ used := by
        rw [hlast]
        simp
      exact absurd hfree (by rw [hused c hmem]; exact Bool.false_ne_true)

section Reuse

variable {σ : Type} {A : FrameAllocator σ} {pool : TablePool} {h : Heap σ} {cells : List Cell}

/-- A size that a block holds is at most the block's size when rounded. -/
theorem wantedBytes_le {size s : Nat} (hle : size ≤ s) (hmod : s % 16 = 0) :
    wantedBytes size ≤ s := by
  have hround : wantedBytes size = add32 size (heapAlign - 1) / 16 * 16 :=
    and_not32_mask (k := 4) (by decide) (add32_lt _ _)
  rw [hround]
  unfold add32 heapAlign
  omega

/-- After `kfree` of a block some free cell fits what the block could hold. -/
theorem kfree_fits {p s size : Nat} (hok : HeapOk pool h cells) (hcoal : Coalesced cells)
    (hp : (p, s) ∈ payloads kheapBase cells) (hle : size ≤ s) :
    ∃ cells', HeapOk pool (kfree h p) cells' ∧ ∃ c ∈ cells', c.Fits (wantedBytes size) := by
  have hov : blockOverhead = 16 := rfl
  obtain ⟨pre, c, post, rfl, -, rfl, rfl⟩ := mem_payloads hp
  obtain ⟨cells', hok', hpay, hev⟩ := kfree_cell hok
  have hspan := hev.span_le
  simp only [span_append, span_cons] at hspan
  have hwanted : wantedBytes size ≤ c.size :=
    wantedBytes_le hle (hok.layout.aligned c (by simp))
  have hgap : ∀ y ∈ payloads kheapBase cells', y.1 + y.2 ≤ kheapBase + span pre ∨
      kheapBase + span pre + 16 + c.size + 16 ≤ y.1 := by
    intro y hy
    rw [hpay] at hy
    rcases List.mem_append.mp hy with hbefore | hafter
    · exact Or.inl (payload_le hbefore).2
    · have hle := (payload_le hafter).1
      exact Or.inr (by omega)
  obtain ⟨d, hd, hfits⟩ := fits_of_gap (hev.coalesced hcoal)
    (Nat.le_add_right kheapBase (span pre)) (by omega) hgap
  exact ⟨cells', hok', d, hd, hfits.1, hwanted.trans hfits.2⟩

/-- `kmalloc` takes a cell that fits, and no page. -/
theorem HeapOk.kmalloc_fits (hok : HeapOk pool h cells) {size fuel : Nat} (hsize : 0 < size)
    (hfits : ∃ c ∈ cells, c.Fits (wantedBytes size)) (hfuel : cells.length < fuel) :
    ∃ p m, kmalloc A pool fuel h size = some (p, { h with mem := m }) ∧ p ≠ 0 := by
  rcases hok.scan (wantedBytes size) fuel hfuel with ⟨-, cur, hscan, hpos, hlt⟩ | ⟨hnone, -⟩
  · obtain ⟨fuel', rfl⟩ := Nat.exists_eq_succ_of_ne_zero (Nat.ne_zero_of_lt hfuel)
    rw [hok.kmalloc_eq (Nat.pos_iff_ne_zero.mp hsize), kmallocLoop, hscan, Option.bind_some,
      if_pos (Nat.pos_iff_ne_zero.mp hpos)]
    refine ⟨_, _, rfl, ?_⟩
    rw [blockOverhead, add32_of_lt hlt]
    omega
  · obtain ⟨c, hc, hfit⟩ := hfits
    exact absurd hfit (hnone c hc)

/-- Where only the last cell is free and is large, `kmalloc` cuts it. -/
theorem HeapOk.kmalloc_tail {used : List Cell} {s size : Nat}
    (hok : HeapOk pool h (used ++ [⟨s, true⟩])) (hused : ∀ c ∈ used, c.free = false)
    (hsize : 0 < size) (hbig : wantedBytes size + 32 < s) :
    ∃ m, (∀ fuel > used.length + 1, kmalloc A pool fuel h size =
        some (kheapBase + span used + 16, { h with mem := m })) ∧
      HeapOk pool { h with mem := m }
        ((used ++ [⟨wantedBytes size, false⟩]) ++ [⟨s - wantedBytes size - 16, true⟩]) := by
  have hbase : kheapBase = 0x18000000 := rfl
  have hspan := hok.span_le
  have hend := hok.end_lt
  simp only [span_append, span_cons, span_nil, blockOverhead] at hspan
  have hsplit := hok.layout.splitBlock (wantedBytes_mod size).1 hbig
  simp only [List.cons_append, List.nil_append] at hsplit
  refine ⟨setFree (splitBlock h.mem (kheapBase + span used) (wantedBytes size))
    (kheapBase + span used) 0, fun fuel hfuel => ?_, ?_⟩
  · obtain ⟨r, hr⟩ := @findFree_total _ (wantedBytes size) _ _ _ fuel hok.layout.linked
      hok.layout.base_pos (by rw [List.length_append, List.length_singleton]; exact hfuel)
    rw [link_of_ne hok.nonempty] at hr
    have htail : r = kheapBase + span used := by
      rcases findFree_spec hok.layout hok.nonempty hr with
        ⟨-, hnone⟩ | ⟨mid, c, post, hcut, rfl, hc, -⟩
      · exact absurd ⟨rfl, show wantedBytes size ≤ s by omega⟩ (hnone ⟨s, true⟩ (by simp))
      · rw [free_cell_last hused hcut hc.1]
    obtain ⟨n, rfl⟩ := Nat.exists_eq_succ_of_ne_zero (Nat.ne_zero_of_lt hfuel)
    rw [hok.kmalloc_eq (Nat.pos_iff_ne_zero.mp hsize), kmallocLoop, hok.head_eq, hr,
      Option.bind_some, htail, if_pos (by omega), blockOverhead, add32_of_lt (by omega)]
  · rw [List.append_assoc, List.singleton_append]
    refine hok.withMem (hsplit.setFree false) (by simp) ?_
    simp only [span_append, span_cons, span_nil, blockOverhead]
    omega

end Reuse

/-- **Reuse.** In every reachable heap, after `kfree` of a live pointer the next `kmalloc`
of a size up to the block's succeeds, and takes neither a frame nor a page. -/
theorem freed_is_reusable {σ : Type} {A : FrameAllocator σ} {boot : Boot σ} {h : Heap σ}
    {live : List (Nat × Nat)} (hreach : HeapReach A boot kheapMaxSize h live) {x : Nat × Nat}
    (hx : x ∈ live) {size : Nat} (hpos : 0 < size) (hle : size ≤ blockSize h x.1) :
    ∃ least, ∀ fuel ≥ least, ∃ p m,
      kmalloc A boot.pool fuel (kfree h x.1) size = some (p, { kfree h x.1 with mem := m }) ∧
        p ≠ 0 := by
  obtain ⟨cells, hok, hcov, hcoal⟩ := hreach.cells (by decide)
  obtain ⟨s, hs, -⟩ := hcov.payload x hx
  rw [(hok.payload_inside hs).1] at hle
  obtain ⟨cells', hok', hfits⟩ := kfree_fits hok hcoal hs hle
  exact ⟨cells'.length + 1, fun fuel hfuel => hok'.kmalloc_fits hpos hfits hfuel⟩

/-- The 112 bytes of the block that `kmalloc(100)` returned. -/
theorem freed_is_reusable_example : ∃ least, ∀ fuel ≥ least, ∃ p m,
    kmalloc bumpAllocator exampleBoot.pool fuel (kfree exampleAlloc.2 (kheapBase + 16)) 112
      = some (p, { kfree exampleAlloc.2 (kheapBase + 16) with mem := m }) ∧ p ≠ 0 :=
  freed_is_reusable exampleAlloc_reach.2 (List.mem_singleton_self (kheapBase + 16, 100)) (by decide)
    (by decide)

end RoninOS.Kheap
