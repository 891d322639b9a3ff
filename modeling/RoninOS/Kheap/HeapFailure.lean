/-
RoninOS.Kheap.HeapFailure — what a failed `kmalloc` leaves behind.

`heap_expand` adds its pages one at a time and does not take them back when a
later one fails. With the kernel's own frame allocator the loop gets exactly
`min needed pagesAvailable` pages, so a failing call leaves the heap as it was
when not even the first page could be had, and otherwise leaves `g_heap_end`
moved and the frames gone. `NoPartialGrowth` is that condition on the state
before the call.

Requests so large that `needed` wraps to 0 never fail: they loop or succeed.
-/
import RoninOS.Kheap.HeapIdentity

namespace RoninOS.Kheap

open RoninOS.Lib RoninOS.Mem

/-! ## The condition -/

/-- `wanted` of `kmalloc`. -/
def wantedBytes (size : Nat) : Nat := add32 size (heapAlign - 1) &&& not32 (heapAlign - 1)

/-- The pages `heap_expand` tries to add for a request. -/
def pagesNeeded (size : Nat) : Nat :=
  alignUp (add32 (wantedBytes size) blockOverhead) pmmFrameSize / pmmFrameSize

/-- The pages `heap_expand` can get. -/
def pagesAvailable (h : Heap Pmm) : Nat := min h.frames.freeFrames ((h.limit - h.end) / 4096)

/-- The page loop does not stop part-way: nothing is asked for, a free block is
large enough, or all pages or none can be had. -/
def NoPartialGrowth (h : Heap Pmm) (size : Nat) : Prop :=
  size = 0 ∨
  (∃ b, OnList h b ∧ (headerAt h.mem b).free ≠ 0 ∧ wantedBytes size ≤ (headerAt h.mem b).size) ∨
  pagesAvailable h = 0 ∨ pagesNeeded size ≤ pagesAvailable h

/-- The call left the block list, `g_heap_end` and the number of free frames as
they were, and every request that would have succeeded still does. -/
structure Unharmed (pool : TablePool) (h h' : Heap Pmm) : Prop where
  mem_eq : h'.mem = h.mem
  head_eq : h'.head = h.head
  end_eq : h'.end = h.end
  free_eq : h'.frames.freeFrames = h.frames.freeFrames
  later : ∀ fuel size p g, kmalloc pmmAllocator pool fuel h size = some (p, g) → p ≠ 0 →
    ∃ p' g', kmalloc pmmAllocator pool fuel h' size = some (p', g') ∧ p' ≠ 0

theorem Unharmed.refl (pool : TablePool) (h : Heap Pmm) : Unharmed pool h h :=
  ⟨rfl, rfl, rfl, rfl, fun _ _ p g hrun hp => ⟨p, g, hrun, hp⟩⟩

/-! ## Sizes -/

/-- `wanted` for every 32-bit size: it is a multiple of 16 that fits 32 bits. -/
theorem wantedBytes_mod (size : Nat) : wantedBytes size % 16 = 0 ∧ wantedBytes size < 2 ^ 32 := by
  have hlt := add32_lt size (heapAlign - 1)
  have heq : wantedBytes size = add32 size (heapAlign - 1) / 16 * 16 :=
    and_not32_mask (k := 4) (by decide) hlt
  rw [heq]
  omega

/-- A request that wraps asks for no page. -/
theorem needed_wrap {wanted : Nat} (hwanted : wanted % 16 = 0) (hlt : wanted < 2 ^ 32)
    (hwrap : 2 ^ 32 ≤ wanted + 4111) : alignUp (add32 wanted blockOverhead) pmmFrameSize = 0 := by
  have hsmall : add32 (add32 wanted 16) 4095 < 4096 := by
    unfold add32
    omega
  have heq : alignUp (add32 wanted blockOverhead) pmmFrameSize
      = add32 (add32 wanted 16) 4095 / 4096 * 4096 :=
    and_not32_mask (k := 12) (by decide) (add32_lt _ _)
  rw [heq]
  omega

section Failure

variable {start : Pmm} {pool : TablePool} {h h' : Heap Pmm} {cells : List Cell}

/-! ## The page loop with the kernel's allocator -/

/-- The loop gets `min rounds pagesAvailable` pages. -/
theorem expandPages_pmm : ∀ {rounds : Nat} {h h' : Heap Pmm} {ret : Int}, PagesOk pool h →
    FramesOk start h.frames → expandPages pmmAllocator pool rounds h = some (ret, h') →
    (rounds ≤ pagesAvailable h ∧ ret = 0) ∨
    (pagesAvailable h < rounds ∧ ret = -1 ∧ h'.end = h.end + 4096 * pagesAvailable h ∧
      (pagesAvailable h = 0 → h' = h))
  | 0, h, h', ret, _, _, hexp => by
      obtain ⟨rfl, -⟩ := Prod.mk.inj (Option.some.inj hexp)
      exact Or.inl ⟨Nat.zero_le _, rfl⟩
  | rounds + 1, h, h', ret, hok, hframes, hexp => by
      have hend := hok.end_le
      rcases hframes.alloc with ⟨f, -, -, hne, hpos, heq, hback, htake, hfree⟩ | ⟨h0, heq⟩
      · have halloc : pmmAllocator.alloc h.frames = (f * pmmFrameSize, h.frames.takeFrame f) := heq
        rcases expandPages_cases hok hexp with ⟨-, hzero, -⟩ | ⟨rfl, -, hfull, rfl⟩ |
          ⟨paging, hframe0, -, hroom, hpok, hupdate, hrest⟩
        · rw [halloc] at hzero
          simp only [pmmFrameSize] at hzero
          omega
        · -- no room: the frame goes back and nothing has changed
          rw [halloc] at hfull ⊢
          have hfull : h.limit < h.end + 4096 := by
            simp only [pmmFrameSize] at hfull
            omega
          have havail : pagesAvailable h = 0 := by
            unfold pagesAvailable
            omega
          have hsame : pmmAllocator.free (h.frames.takeFrame f) (f * pmmFrameSize) = h.frames := hback
          refine Or.inr ⟨by omega, rfl, by rw [havail]; rfl, fun _ => ?_⟩
          rw [hsame]
        · have hok' := @PagesOk.addPage _ _ _ hok _ _ (pmmAllocator.alloc h.frames).2 hframe0 hroom hpok
            hupdate
          simp only [halloc] at hrest hok'
          have havail : pagesAvailable h = pagesAvailable { h with
              frames := h.frames.takeFrame f, paging, «end» := h.end + 4096 } + 1 := by
            simp only [pagesAvailable, hfree]
            omega
          rcases expandPages_pmm hok' htake hrest with ⟨hle, hret⟩ | ⟨hlt, hret, hend', -⟩
          · exact Or.inl ⟨by omega, hret⟩
          · refine Or.inr ⟨by omega, hret, ?_, fun hzero => by omega⟩
            rw [hend', havail, Nat.mul_succ]
            simp only
            omega
      · have halloc : pmmAllocator.alloc h.frames = (0, h.frames) := heq
        have havail : pagesAvailable h = 0 := by
          unfold pagesAvailable
          omega
        rcases expandPages_cases hok hexp with ⟨rfl, -, rfl⟩ | ⟨-, hne, -, -⟩ | ⟨_, hne, -⟩
        · rw [halloc]
          exact Or.inr ⟨by omega, rfl, by rw [havail]; rfl, fun _ => rfl⟩
        · exact absurd (by rw [halloc]) hne
        · exact absurd (by rw [halloc]) hne

/-- With tables left the loop does not panic. -/
theorem expandPages_total : ∀ {rounds : Nat} {h : Heap Pmm}, PagesOk pool h →
    FramesOk start h.frames → TablesLeft h.paging →
    ∃ ret h', expandPages pmmAllocator pool rounds h = some (ret, h')
  | 0, h, _, _, _ => ⟨0, h, rfl⟩
  | rounds + 1, h, hok, hframes, hleft => by
      have hend := hok.end_lt
      have halign := hok.end_aligned
      have hnext : add32 h.end pmmFrameSize = h.end + 4096 :=
        add32_of_lt (by simp only [pmmFrameSize]; omega)
      by_cases hfree : 0 < h.frames.freeFrames
      · obtain ⟨frame, frames', paging', halloc, h0, hmap, hleft', hframes', -⟩ :=
          @alloc_map_total _ _ pool _ _ hframes hleft hfree (by omega) halign
        by_cases hroom : h.end + 4096 > h.limit
        · rw [expandPages, halloc]
          simp only [if_neg h0, hnext, if_pos hroom]
          exact ⟨_, _, rfl⟩
        · have hlt : frame < 2 ^ 32 := by
            have := pmmAllocator.alloc_lt h.frames
            rwa [halloc] at this
          rcases mapPage_spec hok.paging (by omega) hlt hmap with ⟨hret, -⟩ |
            ⟨-, -, -, hpok, hupdate⟩
          · exact absurd hret (by decide)
          · have hok' := @PagesOk.addPage _ _ _ hok _ _ frames' h0 (by omega) hpok hupdate
            obtain ⟨ret, h', hrest⟩ := @expandPages_total rounds _ hok' hframes' hleft'
            refine ⟨ret, h', ?_⟩
            rw [expandPages, halloc]
            simp only [if_neg h0, hnext, if_neg hroom, hmap, Option.bind_some, ne_eq,
              not_true_eq_false, if_false]
            exact hrest
      · rcases hframes.alloc with ⟨f, -, -, -, hpos, -⟩ | ⟨-, heq⟩
        · omega
        · have halloc : pmmAllocator.alloc h.frames = (0, h.frames) := heq
          rw [expandPages, halloc]
          exact ⟨_, _, rfl⟩

/-! ## When `kmalloc` does not fail -/

/-- With a fitting block the scan succeeds. -/
theorem kmallocLoop_fits {σ : Type} {A : FrameAllocator σ} {g g' : Heap σ} {fuel wanted retries p : Nat}
    (hok : HeapOk pool g cells) (hfits : ∃ c ∈ cells, c.Fits wanted)
    (hrun : kmallocLoop A pool fuel wanted retries g = some (p, g')) : p ≠ 0 := by
  cases retries with
  | zero => simp [kmallocLoop] at hrun
  | succ n =>
      have hend := hok.end_lt
      have hspan := hok.span_le
      rw [kmallocLoop, Option.bind_eq_some_iff] at hrun
      obtain ⟨cur, hscan, hrun⟩ := hrun
      rw [hok.head_eq] at hscan
      have hbase : kheapBase = 0x18000000 := rfl
      rcases findFree_spec hok.layout hok.nonempty hscan with ⟨-, hnone⟩ | ⟨mid, c, post, rfl, rfl, -⟩
      · obtain ⟨c, hc, hfit⟩ := hfits
        exact absurd hfit (hnone c hc)
      · simp only [span_append, span_cons, blockOverhead] at hspan
        rw [if_pos (by omega), Option.some.injEq, Prod.mk.injEq, blockOverhead,
          add32_of_lt (by omega)] at hrun
        omega

/-- `heap_expand` for a request whose `needed` wraps to 0: it adds no page, and a
block of 2^32 - 16 bytes if the tail is in use. -/
theorem heapExpand_wrap {σ : Type} {A : FrameAllocator σ} {g g' : Heap σ} {fuel wanted : Nat}
    {ret : Int} (hok : HeapOk pool g cells) (hwanted : wanted % 16 = 0) (hlt : wanted < 2 ^ 32)
    (hwrap : 2 ^ 32 ≤ wanted + 4111) (hexp : heapExpand A pool fuel g wanted = some (ret, g')) :
    ret = 0 ∧ g'.end = g.end ∧ g'.head = g.head ∧ ∃ mid c, cells = mid ++ [c] ∧
      (c.free = true ∧ HeapOk pool g' cells ∨
        c.free = false ∧ Linked g'.mem 0 0 kheapBase (cells ++ [⟨2 ^ 32 - 16, true⟩])) := by
  have hend := hok.end_lt
  have hspan := hok.span_le
  have hbase : kheapBase = 0x18000000 := rfl
  rw [heapExpand, needed_wrap hwanted hlt hwrap] at hexp
  simp only [Nat.zero_div, expandPages, Option.bind_some, ne_eq, not_true_eq_false, if_false] at hexp
  rw [Option.map_eq_some_iff] at hexp
  obtain ⟨tail, hlast, hgrow⟩ := hexp
  rw [hok.head_eq] at hlast
  obtain ⟨mid, c, rfl, rfl⟩ :=
    lastBlock_spec hok.layout.linked hok.layout.base_pos hok.nonempty hlast
  obtain ⟨hb, hc, hfitc⟩ := hok.layout.cell_addr
  rw [if_neg (by omega), hok.layout.headerAt_cell] at hgrow
  simp only [flag_ne_zero] at hgrow
  have hspan' : span (mid ++ [c]) = span mid + 16 + c.size := by
    simp only [span_append, span_cons, span_nil, blockOverhead]
    omega
  by_cases hfree : c.free = true
  · rw [if_pos hfree, add32_of_lt (by omega)] at hgrow
    obtain ⟨rfl, rfl⟩ := Prod.mk.inj hgrow
    refine ⟨rfl, rfl, rfl, mid, c, rfl, Or.inl ⟨hfree, hok.withMem ?_ (by simp) hspan⟩⟩
    exact @Layout.growTail _ _ _ _ 0 hok.layout rfl (by omega)
  · rw [if_neg hfree, blockOverhead, add32_of_lt (by omega : kheapBase + span mid + 16 < 2 ^ 32),
      add32_of_lt (by omega : kheapBase + span mid + 16 + c.size < 2 ^ 32),
      show sub32 0 16 = 2 ^ 32 - 16 from rfl] at hgrow
    obtain ⟨rfl, rfl⟩ := Prod.mk.inj hgrow
    refine ⟨rfl, rfl, rfl, mid, c, rfl, Or.inr ⟨by simpa using hfree, ?_⟩⟩
    have hheaders := fun b hb' => @headerAt_appendTail g.mem _
      (kheapBase + span mid + 16 + c.size) (2 ^ 32 - 16) b hb (by omega) (by omega)
      (by omega) (by omega) (by decide) hb'
    simp only
    generalize setNext _ _ _ = m at hheaders
    obtain ⟨hpre, hlast'⟩ := linked_append.mp hok.layout.linked
    have halpre : Aligned mid := fun d hd => hok.layout.aligned d (by simp [hd])
    -- the list now ends at the made-up block
    have hcut : mid ++ [c] ++ [⟨2 ^ 32 - 16, true⟩] = mid ++ [c, ⟨2 ^ 32 - 16, true⟩] := by simp
    rw [hcut]
    refine linked_append.mpr ⟨?_, ?_, ?_, trivial⟩
    · exact hpre.congr hok.layout.base_aligned halpre fun b hb' h1 h2 => by
        rw [hheaders b hb', if_neg (by omega), if_neg (by omega)]
    · rw [hheaders _ hb, if_pos rfl, hok.layout.headerAt_cell]
      rfl
    · rw [blockOverhead, hheaders _ (by omega), if_neg (by omega), if_pos rfl]
      rfl

/-- Whatever the scan finds in a list that ends at the made-up block, its pointer
is not null. -/
theorem findFree_made {m : Mem} {fuel wanted cur : Nat}
    (hlinked : Linked m 0 0 kheapBase (cells ++ [⟨2 ^ 32 - 16, true⟩]))
    (hspan : kheapBase + span cells ≤ 0x19000000) (hwanted : wanted ≤ 2 ^ 32 - 16)
    (hscan : findFree m wanted fuel kheapBase = some cur) : 0 < cur ∧ cur + 16 < 2 ^ 32 := by
  have hbase : kheapBase = 0x18000000 := rfl
  rw [← @link_of_ne kheapBase 0 (cells ++ [⟨2 ^ 32 - 16, true⟩]) (by simp)] at hscan
  rcases findFree_linked hlinked (by omega) hscan with ⟨hnone, -⟩ | ⟨mid, d, post, hcut, rfl, -⟩
  · exact absurd ⟨rfl, hwanted⟩ (hnone ⟨2 ^ 32 - 16, true⟩ (by simp))
  · have hle : span mid ≤ span cells := by
      rcases cut_cases hcut with hbefore | ⟨rfl, -⟩ | hbehind
      · simp only at hbefore
        -- the made-up block is the last one
        have hlast := congrArg span hcut
        simp only [span_append, span_cons, span_nil, blockOverhead] at hlast hbefore
        omega
      · exact le_refl _
      · omega
    omega

/-- Such a request never fails: with a free tail the retry goes on forever, and
otherwise it finds the block that `heap_expand` just made up. -/
theorem kmallocLoop_wrap {σ : Type} {A : FrameAllocator σ} {fuel wanted : Nat}
    (hwanted : wanted % 16 = 0) (hlt : wanted < 2 ^ 32) (hwrap : 2 ^ 32 ≤ wanted + 4111) :
    ∀ {retries p : Nat} {h h' : Heap σ} {cells : List Cell}, HeapOk pool h cells →
    kmallocLoop A pool fuel wanted retries h = some (p, h') → p ≠ 0
  | 0, _, _, _, _, _, hrun => by simp [kmallocLoop] at hrun
  | retries + 1, p, h, h', cells, hok, hrun => by
      by_cases hfits : ∃ c ∈ cells, c.Fits wanted
      · exact kmallocLoop_fits hok hfits hrun
      have hend := hok.end_lt
      have hspan := hok.span_le
      rw [kmallocLoop, Option.bind_eq_some_iff] at hrun
      obtain ⟨cur, hscan, hrun⟩ := hrun
      rw [hok.head_eq] at hscan
      rcases findFree_spec hok.layout hok.nonempty hscan with ⟨rfl, -⟩ | ⟨mid, c, post, rfl, -, hc, -⟩
      · rw [if_neg (by simp), Option.bind_eq_some_iff] at hrun
        obtain ⟨⟨ret, h1⟩, hexp, hrun⟩ := hrun
        obtain ⟨rfl, -, hhead, mid, c, -, ⟨-, hok1⟩ | ⟨-, hlinked⟩⟩ :=
          heapExpand_wrap hok hwanted hlt hwrap hexp
        · simp only [if_true] at hrun
          exact kmallocLoop_wrap hwanted hlt hwrap hok1 hrun
        · simp only [if_true] at hrun
          cases retries with
          | zero => simp [kmallocLoop] at hrun
          | succ n =>
              rw [kmallocLoop, Option.bind_eq_some_iff] at hrun
              obtain ⟨cur, hscan, hrun⟩ := hrun
              rw [hhead, hok.head_eq] at hscan
              have hcur := findFree_made hlinked (by omega) (by omega) hscan
              rw [if_pos (by omega), Option.some.injEq, Prod.mk.injEq, blockOverhead,
                add32_of_lt hcur.2] at hrun
              omega
      · exact absurd ⟨c, by simp, hc⟩ hfits

/-! ## The failing call -/

/-- The condition on the free blocks, in terms of cells. -/
theorem fits_iff {σ : Type} {g : Heap σ} (hok : HeapOk pool g cells) (wanted : Nat) :
    (∃ b, OnList g b ∧ (headerAt g.mem b).free ≠ 0 ∧ wanted ≤ (headerAt g.mem b).size) ↔
      ∃ c ∈ cells, c.Fits wanted := by
  constructor
  · rintro ⟨b, hb, hfree, hsize⟩
    obtain ⟨pre, c, post, rfl, rfl⟩ := hok.cut_of_onList hb
    rw [hok.layout.headerAt_cell] at hfree hsize
    exact ⟨c, by simp, flag_ne_zero.mp hfree, hsize⟩
  · rintro ⟨c, hc, hfree, hsize⟩
    obtain ⟨pre, post, rfl⟩ := List.append_of_mem hc
    refine ⟨_, hok.onList pre rfl, ?_, ?_⟩
    · rw [hok.layout.headerAt_cell]
      exact flag_ne_zero.mpr hfree
    · rw [hok.layout.headerAt_cell]
      exact hsize

/-- Without partial growth, a `kmalloc` that returns null changes nothing. -/
theorem kmalloc_fails_clean {fuel size : Nat} (hok : HeapOk pool h cells)
    (hframes : FramesOk start h.frames) (hcond : NoPartialGrowth h size)
    (hrun : kmalloc pmmAllocator pool fuel h size = some (0, h')) : h' = h := by
  obtain ⟨hmod, hlt⟩ := wantedBytes_mod size
  rw [kmalloc] at hrun
  split at hrun
  · exact (Prod.mk.inj (Option.some.inj hrun)).2.symm
  · rename_i hgo
    rw [hok.ready] at hgo
    change kmallocLoop pmmAllocator pool fuel (wantedBytes size) fuel h = some (0, h') at hrun
    rcases hcond with hzero | hfits | hpages
    · simp [hzero] at hgo
    · exact absurd rfl (kmallocLoop_fits hok ((fits_iff hok _).mp hfits) hrun)
    · by_cases hwrap : 2 ^ 32 ≤ wantedBytes size + 4111
      · exact absurd rfl (kmallocLoop_wrap hmod hlt hwrap hok hrun)
      · by_cases hfits : ∃ c ∈ cells, c.Fits (wantedBytes size)
        · exact absurd rfl (kmallocLoop_fits hok hfits hrun)
        cases fuel with
        | zero => simp [kmallocLoop] at hrun
        | succ n =>
            rw [kmallocLoop, Option.bind_eq_some_iff] at hrun
            obtain ⟨cur, hscan, hrun⟩ := hrun
            rw [hok.head_eq] at hscan
            rcases findFree_spec hok.layout hok.nonempty hscan with
              ⟨rfl, -⟩ | ⟨mid, c, post, rfl, -, hc, -⟩
            · rw [if_neg (by simp), Option.bind_eq_some_iff] at hrun
              obtain ⟨⟨ret, h1⟩, hexp, hrun⟩ := hrun
              simp only at hrun
              split at hrun
              · -- the expansion succeeded, so the next scan finds a block
                rename_i hret
                obtain ⟨cells', hok', -, hfits', -⟩ := heapExpand_ok hok hmod (by omega) hexp
                exact absurd rfl (kmallocLoop_fits hok' (hfits' hret).1 hrun)
              · rename_i hret
                obtain ⟨-, rfl⟩ := Prod.mk.inj (Option.some.inj hrun)
                rw [heapExpand, Option.bind_eq_some_iff] at hexp
                obtain ⟨⟨r, h2⟩, hloop, hrest⟩ := hexp
                change expandPages pmmAllocator pool (pagesNeeded size) h = some (r, h2) at hloop
                simp only at hrest
                rcases expandPages_pmm hok.pages hframes hloop with ⟨-, rfl⟩ | ⟨hshort, rfl, -, hsame⟩
                · -- all pages came: the call after the loop returns 0
                  obtain ⟨hpages2, -, -, heq2⟩ := expandPages_ok hok.pages hloop
                  rw [if_neg (by simp), Option.map_eq_some_iff] at hrest
                  obtain ⟨tail, hlast, hrest⟩ := hrest
                  rw [heq2] at hlast
                  simp only [hok.head_eq] at hlast
                  obtain ⟨mid, c, -, rfl⟩ :=
                    lastBlock_spec hok.layout.linked hok.layout.base_pos hok.nonempty hlast
                  have hbase : kheapBase = 0x18000000 := rfl
                  rw [if_neg (by omega)] at hrest
                  split at hrest
                  · exact absurd (Prod.mk.inj hrest).1.symm hret
                  · exact absurd (Prod.mk.inj hrest).1.symm hret
                · rw [if_pos (by decide), Option.some.injEq, Prod.mk.injEq] at hrest
                  rw [← hrest.2]
                  rcases hpages with h0 | hle
                  · exact hsame h0
                  · omega
            · exact absurd ⟨c, by simp, hc⟩ hfits

/-- With partial growth and tables left, `kmalloc` returns null and has moved
`g_heap_end`. -/
theorem kmalloc_leaks {size : Nat} (hok : HeapOk pool h cells) (hframes : FramesOk start h.frames)
    (hleft : TablesLeft h.paging) (hcond : ¬ NoPartialGrowth h size) :
    ∃ fuel h', kmalloc pmmAllocator pool fuel h size = some (0, h') ∧ h.end < h'.end := by
  simp only [NoPartialGrowth, fits_iff hok, not_or] at hcond
  obtain ⟨hsize, hfits, havail, hneeded⟩ := hcond
  refine ⟨cells.length + 1, ?_⟩
  rw [kmalloc, if_neg (by simp [hok.ready, hsize])]
  change ∃ h', kmallocLoop pmmAllocator pool (cells.length + 1) (wantedBytes size)
    (cells.length + 1) h = some (0, h') ∧ _
  obtain ⟨r, hscan⟩ := @findFree_total _ (wantedBytes size) _ _ _ _ hok.layout.linked
    hok.layout.base_pos (Nat.lt_succ_self cells.length)
  rw [link_of_ne hok.nonempty] at hscan
  rcases findFree_spec hok.layout hok.nonempty hscan with ⟨rfl, -⟩ | ⟨mid, c, post, rfl, -, hc, -⟩
  · obtain ⟨ret, h1, hloop⟩ :=
      @expandPages_total _ _ (pagesNeeded size) _ hok.pages hframes hleft
    rcases expandPages_pmm hok.pages hframes hloop with ⟨hle, -⟩ | ⟨-, rfl, hend, -⟩
    · omega
    · have hexp : heapExpand pmmAllocator pool (cells.length + 1) h (wantedBytes size)
          = some (-1, h1) := by
        rw [heapExpand]
        change (expandPages pmmAllocator pool (pagesNeeded size) h).bind _ = _
        rw [hloop]
        rfl
      refine ⟨h1, ?_, by omega⟩
      rw [kmallocLoop, hok.head_eq, hscan, Option.bind_some, if_neg (by simp), hexp]
      rfl
  · exact absurd ⟨c, by simp, hc⟩ hfits

end Failure

/-! ## Over runs -/

/-- The frame allocator stays in order over a run. -/
theorem HeapReach.framesOk {kb : KernelBoot} {bound : Nat} {h : Heap Pmm} {live : List (Nat × Nat)}
    (hreach : HeapReach pmmAllocator kb.toBoot bound h live) : FramesOk kb.frames h.frames := by
  obtain ⟨paging, hpaging, hsteps⟩ := hreach.steps
  exact (hsteps.induct (I := fun g => FramesOk kb.frames g.frames)
    (initialHeap_pagesOk (Boot.paging_spec hpaging).1) kb.framesOk
    fun _ _ _ hframes hstep => hframes.step hstep).2

/-- In every state reached by requests that do not wrap, and for every request
size: a `kmalloc` that returns null leaves the kernel's memory state intact if
no growth can stop part-way, and only then (as long as tables are left). -/
theorem kmalloc_failure_iff {kb : KernelBoot} {h : Heap Pmm} {live : List (Nat × Nat)}
    (hreach : HeapReach pmmAllocator kb.toBoot (2 ^ 32 - 4112) h live) (size : Nat) :
    (NoPartialGrowth h size → ∀ fuel h', kmalloc pmmAllocator kb.pool fuel h size = some (0, h') →
      Unharmed kb.pool h h') ∧
    (TablesLeft h.paging →
      (∀ fuel h', kmalloc pmmAllocator kb.pool fuel h size = some (0, h') →
        Unharmed kb.pool h h') → NoPartialGrowth h size) := by
  obtain ⟨cells, hok, -⟩ := hreach.inv (by decide)
  have hframes := hreach.framesOk
  refine ⟨fun hcond fuel h' hrun => ?_, fun hleft hall => ?_⟩
  · rw [kmalloc_fails_clean hok hframes hcond hrun]
    exact Unharmed.refl kb.pool h
  · by_contra hcond
    obtain ⟨fuel, h', hrun, hend⟩ := kmalloc_leaks hok hframes hleft hcond
    have := (hall fuel h' hrun).end_eq
    omega

/-- On a booted heap with a free frame left, 17 MiB stop part-way. -/
theorem partialGrowth_huge {kb : KernelBoot} {h : Heap Pmm}
    (hheap : kb.toBoot.heap pmmAllocator = some h) (hfree : 0 < h.frames.freeFrames) :
    ¬ NoPartialGrowth h 0x1100000 := by
  obtain ⟨hok, hend⟩ := Boot.heap_ok hheap
  have hroom : (h.limit - h.end) / 4096 = 0xffc := by
    rw [hok.pages.limit_eq, hend]
    decide
  have hneeded : pagesNeeded 0x1100000 = 0x1101 := by decide
  rintro (hzero | hfits | havail | hall)
  · exact absurd hzero (by decide)
  · obtain ⟨c, hc, -, hle⟩ := (fits_iff hok _).mp hfits
    rw [List.mem_singleton.mp hc] at hle
    exact absurd hle (by decide)
  · simp only [pagesAvailable, hroom] at havail
    omega
  · simp only [pagesAvailable, hroom, hneeded] at hall
    omega

/-- Both cases on one booted heap: 16 bytes come from the first block, 17 MiB
stop part-way. -/
theorem kmalloc_failure_window : ∃ (kb : KernelBoot) (h : Heap Pmm),
    kb.toBoot.heap pmmAllocator = some h ∧
      (∀ fuel h', kmalloc pmmAllocator kb.pool fuel h 16 = some (0, h') → Unharmed kb.pool h h') ∧
      ¬ ∀ fuel h', kmalloc pmmAllocator kb.pool fuel h 0x1100000 = some (0, h') →
        Unharmed kb.pool h h' := by
  obtain ⟨kb, h, -, -, hheap, hleft, hfree⟩ := windowModule_boot
  have hreach : HeapReach pmmAllocator kb.toBoot (2 ^ 32 - 4112) h [] := HeapReach.start hheap
  obtain ⟨hok, -⟩ := Boot.heap_ok hheap
  have hfits : NoPartialGrowth h 16 :=
    Or.inr (Or.inl ((fits_iff hok _).mpr ⟨_, List.mem_singleton_self _, rfl, by decide⟩))
  exact ⟨kb, h, hheap, (kmalloc_failure_iff hreach 16).1 hfits, fun hall =>
    partialGrowth_huge hheap hfree ((kmalloc_failure_iff hreach 0x1100000).2 hleft hall)⟩

/-- `kmalloc(17 MiB)` on the booted heap: the heap grows to its limit and the
call returns null. -/
theorem kmalloc_leaks_pages : ∃ (kb : KernelBoot) (h h' : Heap Pmm) (fuel : Nat),
    HeapReach pmmAllocator kb.toBoot kheapMaxSize h [] ∧
      kmalloc pmmAllocator kb.pool fuel h 0x1100000 = some (0, h') ∧ ¬ Unharmed kb.pool h h' := by
  obtain ⟨kb, h, -, -, hheap, hleft, hfree⟩ := windowModule_boot
  have hreach : HeapReach pmmAllocator kb.toBoot kheapMaxSize h [] := HeapReach.start hheap
  obtain ⟨fuel, h', hrun, hend⟩ := kmalloc_leaks (Boot.heap_ok hheap).1 hreach.framesOk hleft
    (partialGrowth_huge hheap hfree)
  refine ⟨kb, h, h', fuel, hreach, hrun, fun hsafe => ?_⟩
  have := hsafe.end_eq
  omega

end RoninOS.Kheap
