/-
RoninOS.Kheap.HeapSizes — `kmalloc` for every 32-bit size.

The size is rounded up and a header is added modulo 2^32. From 2^32 - 4111 on
the sum wraps, and the retry loop goes on forever or finds a block that
`heap_expand` made up; from 2^32 - 15 on the rounded size itself is 0, and any
free block will do. `SizeServed` are the sizes at which the call is correct all
the same: those that do not wrap, and the last fifteen where nothing is free and
not one page can be had.
-/
import RoninOS.Kheap.HeapFailure

namespace RoninOS.Kheap

open RoninOS.Lib RoninOS.Mem

section Statement

variable {σ : Type} (A : FrameAllocator σ) (pool : TablePool)

/-- The retry loop of `kmalloc` ends, after finitely many calls of `heap_expand`:
a block is found, an expansion fails, or one panics. -/
inductive RetryEnds (wanted : Nat) : Heap σ → Prop
  | found {h : Heap σ} {fuel cur : Nat} :
      findFree h.mem wanted fuel h.head = some cur → cur ≠ 0 → RetryEnds wanted h
  | failed {h h' : Heap σ} {fuel fuel' : Nat} {ret : Int} :
      findFree h.mem wanted fuel h.head = some 0 →
      heapExpand A pool fuel' h wanted = some (ret, h') → ret ≠ 0 → RetryEnds wanted h
  | panicked {h : Heap σ} {fuel : Nat} : findFree h.mem wanted fuel h.head = some 0 →
      expandPages A pool (alignUp (add32 wanted blockOverhead) pmmFrameSize / pmmFrameSize) h
        = none → RetryEnds wanted h
  | retried {h h' : Heap σ} {fuel fuel' : Nat} : findFree h.mem wanted fuel h.head = some 0 →
      heapExpand A pool fuel' h wanted = some (0, h') → RetryEnds wanted h' → RetryEnds wanted h

/-- What is asked of `kmalloc size`: it ends, and a block that it returns is large
enough and inside the heap. -/
structure KmallocCorrect (h : Heap σ) (size : Nat) : Prop where
  ends : h.ready = true → size ≠ 0 → RetryEnds A pool (wantedBytes size) h
  payload : ∀ fuel p h', kmalloc A pool fuel h size = some (p, h') → p ≠ 0 →
    size ≤ blockSize h' p ∧ h'.start ≤ p ∧ p + blockSize h' p ≤ h'.end

/-- `heap_expand` cannot add one page. -/
def NoPage (h : Heap σ) : Prop :=
  (A.alloc h.frames).1 = 0 ∨ add32 h.end pmmFrameSize > h.limit ∨
    ∀ paging, mapPage pool h.paging h.end (A.alloc h.frames).1 pageWrite ≠ some (0, paging)

/-- The sizes that do not wrap, and those that wrap to 0 where there is nothing to
be had. -/
def SizeServed (h : Heap σ) (size : Nat) : Prop :=
  size + 4112 ≤ 2 ^ 32 ∨
  (2 ^ 32 ≤ size + 15 ∧ (∀ b, OnList h b → (headerAt h.mem b).free = 0) ∧ NoPage A pool h)

end Statement

/-! ## What an operation keeps -/

section Start

variable {σ : Type} {A : FrameAllocator σ} {pool : TablePool}

theorem expandPages_start : ∀ {rounds : Nat} {h h' : Heap σ} {ret : Int},
    expandPages A pool rounds h = some (ret, h') → h'.start = h.start := by
  intro rounds
  induction rounds with
  | zero =>
      intro h h' ret hexp
      obtain ⟨-, rfl⟩ := Prod.mk.inj (Option.some.inj hexp)
      rfl
  | succ rounds ih =>
      intro h h' ret hexp
      rw [expandPages] at hexp
      generalize A.alloc h.frames = alloc at hexp
      obtain ⟨frame, frames⟩ := alloc
      simp only at hexp
      split at hexp
      · obtain ⟨-, rfl⟩ := Prod.mk.inj (Option.some.inj hexp)
        rfl
      · split at hexp
        · obtain ⟨-, rfl⟩ := Prod.mk.inj (Option.some.inj hexp)
          rfl
        · rw [Option.bind_eq_some_iff] at hexp
          obtain ⟨⟨r, paging⟩, -, hexp⟩ := hexp
          simp only at hexp
          split at hexp
          · obtain ⟨-, rfl⟩ := Prod.mk.inj (Option.some.inj hexp)
            rfl
          · have hrest := ih hexp
            exact hrest

theorem heapExpand_start {h h' : Heap σ} {fuel minBytes : Nat} {ret : Int}
    (hexp : heapExpand A pool fuel h minBytes = some (ret, h')) : h'.start = h.start := by
  rw [heapExpand, Option.bind_eq_some_iff] at hexp
  obtain ⟨⟨r, h1⟩, hpages, hexp⟩ := hexp
  have hstart := expandPages_start hpages
  simp only at hexp
  split at hexp
  · obtain ⟨-, rfl⟩ := Prod.mk.inj (Option.some.inj hexp)
    exact hstart
  · rw [Option.map_eq_some_iff] at hexp
    obtain ⟨tail, -, hexp⟩ := hexp
    split at hexp
    · obtain ⟨-, rfl⟩ := Prod.mk.inj hexp
      exact hstart
    · split at hexp
      · obtain ⟨-, rfl⟩ := Prod.mk.inj hexp
        exact hstart
      · obtain ⟨-, rfl⟩ := Prod.mk.inj hexp
        exact hstart

theorem kmallocLoop_start {fuel wanted : Nat} : ∀ {retries : Nat} {h h' : Heap σ} {p : Nat},
    kmallocLoop A pool fuel wanted retries h = some (p, h') → h'.start = h.start := by
  intro retries
  induction retries with
  | zero => intro h h' p hrun; simp [kmallocLoop] at hrun
  | succ retries ih =>
      intro h h' p hrun
      rw [kmallocLoop, Option.bind_eq_some_iff] at hrun
      obtain ⟨cur, -, hrun⟩ := hrun
      split at hrun
      · obtain ⟨-, rfl⟩ := Prod.mk.inj (Option.some.inj hrun)
        rfl
      · rw [Option.bind_eq_some_iff] at hrun
        obtain ⟨⟨ret, h1⟩, hexp, hrun⟩ := hrun
        have hstart := heapExpand_start hexp
        simp only at hrun
        split at hrun
        · exact (ih hrun).trans hstart
        · obtain ⟨-, rfl⟩ := Prod.mk.inj (Option.some.inj hrun)
          exact hstart

/-- `g_heap_start` never changes. -/
theorem kmalloc_start {h h' : Heap σ} {fuel size p : Nat}
    (hrun : kmalloc A pool fuel h size = some (p, h')) : h'.start = h.start := by
  rw [kmalloc] at hrun
  split at hrun
  · obtain ⟨-, rfl⟩ := Prod.mk.inj (Option.some.inj hrun)
    rfl
  · exact kmallocLoop_start hrun

theorem kfree_start (h : Heap σ) (p : Nat) : (kfree h p).start = h.start := by
  unfold kfree
  split <;> rfl

theorem krealloc_start {h h' : Heap σ} {fuel p size q : Nat}
    (hrun : krealloc A pool fuel h p size = some (q, h')) : h'.start = h.start := by
  rw [krealloc] at hrun
  split at hrun
  · exact kmalloc_start hrun
  · split at hrun
    · obtain ⟨-, rfl⟩ := Prod.mk.inj (Option.some.inj hrun)
      exact kfree_start h p
    · simp only at hrun
      split at hrun
      · obtain ⟨-, rfl⟩ := Prod.mk.inj (Option.some.inj hrun)
        rfl
      · rw [Option.map_eq_some_iff] at hrun
        obtain ⟨⟨np, h1⟩, hmalloc, hrun⟩ := hrun
        have hstart := kmalloc_start hmalloc
        simp only at hrun
        split at hrun
        · obtain ⟨-, rfl⟩ := Prod.mk.inj hrun
          exact hstart
        · obtain ⟨-, rfl⟩ := Prod.mk.inj hrun
          exact (kfree_start _ p).trans hstart

end Start

/-! ## Runs from an intact heap -/

section Intact

variable {σ : Type} {A : FrameAllocator σ} {pool : TablePool} {h h' : Heap σ} {cells : List Cell}
  {fuel wanted : Nat}

/-- One page cannot be had exactly where the page loop does not add it. -/
theorem noPage_iff : NoPage A pool h ↔ ∀ h', expandPages A pool 1 h ≠ some (0, h') := by
  unfold NoPage
  rw [expandPages]
  generalize A.alloc h.frames = alloc
  obtain ⟨frame, frames⟩ := alloc
  simp only
  split
  · rename_i h0
    exact iff_of_true (Or.inl h0) (by simp)
  rename_i h0
  split
  · rename_i hroom
    exact iff_of_true (Or.inr (Or.inl hroom)) (by simp)
  rename_i hroom
  cases hmap : mapPage pool h.paging h.end frame pageWrite with
  | none => exact iff_of_true (Or.inr (Or.inr (by simp))) (by simp)
  | some r =>
      obtain ⟨ret, paging⟩ := r
      by_cases hret : ret = 0
      · subst hret
        refine iff_of_false ?_ ?_
        · rintro (hno | hno | hno)
          · exact h0 hno
          · exact hroom hno
          · exact hno paging rfl
        · simp [expandPages]
      · refine iff_of_true (Or.inr (Or.inr ?_)) ?_
        · simp [hret]
        · simp [hret]

/-- The scan of the whole list. -/
theorem HeapOk.scan (hok : HeapOk pool h cells) (wanted fuel : Nat) (hfuel : cells.length < fuel) :
    ((∃ c ∈ cells, c.Fits wanted) ∧ ∃ cur, findFree h.mem wanted fuel h.head = some cur ∧
      0 < cur ∧ cur + 16 < 2 ^ 32) ∨
    ((∀ c ∈ cells, ¬ c.Fits wanted) ∧ findFree h.mem wanted fuel h.head = some 0) := by
  have hbase : kheapBase = 0x18000000 := rfl
  have hspan := hok.span_le
  have hend := hok.end_lt
  obtain ⟨r, hr⟩ := @findFree_total _ wanted _ _ _ _ hok.layout.linked hok.layout.base_pos hfuel
  rw [link_of_ne hok.nonempty] at hr
  rw [hok.head_eq, hr]
  rcases findFree_spec hok.layout hok.nonempty hr with
    ⟨rfl, hnone⟩ | ⟨mid, c, post, rfl, rfl, hc, -⟩
  · exact Or.inr ⟨hnone, rfl⟩
  · simp only [span_append, span_cons, blockOverhead] at hspan
    exact Or.inl ⟨⟨c, by simp, hc⟩, _, rfl, by omega, by omega⟩

/-- A scan that finds a block ends the loop. -/
theorem kmallocLoop_found {retries cur : Nat} (hscan : findFree h.mem wanted fuel h.head = some cur)
    (hpos : 0 < cur) (hlt : cur + 16 < 2 ^ 32) : ∃ h', h'.end = h.end ∧
    kmallocLoop A pool fuel wanted (retries + 1) h = some (cur + 16, h') := by
  refine ⟨{ h with mem := setFree (splitBlock h.mem cur wanted) cur 0 }, rfl, ?_⟩
  rw [kmallocLoop, hscan, Option.bind_some, if_pos (by omega), blockOverhead, add32_of_lt hlt]

/-- An expansion whose pages are had succeeds. -/
theorem heapExpand_grows {h1 : Heap σ} (wanted fuel : Nat) (hok : HeapOk pool h cells)
    (hpages : expandPages A pool
      (alignUp (add32 wanted blockOverhead) pmmFrameSize / pmmFrameSize) h = some (0, h1))
    (hfuel : cells.length ≤ fuel) : ∃ h', heapExpand A pool fuel h wanted = some (0, h') := by
  have hbase : kheapBase = 0x18000000 := rfl
  obtain ⟨-, -, -, heq⟩ := expandPages_ok hok.pages hpages
  obtain ⟨t, ht⟩ := lastBlock_total hok.layout.linked hok.layout.base_pos hok.nonempty hfuel
  obtain ⟨mid, c, -, htail⟩ :=
    lastBlock_spec hok.layout.linked hok.layout.base_pos hok.nonempty ht
  have hlast : lastBlock h1.mem fuel h1.head = some t := by
    rw [heq]
    simp only
    rw [hok.head_eq, ht]
  rw [heapExpand, hpages, Option.bind_some]
  simp only [ne_eq, not_true_eq_false, if_false, hlast, Option.map_some, if_neg (show t ≠ 0 by omega)]
  split <;> exact ⟨_, rfl⟩

/-- An expansion whose pages are not had fails. -/
theorem heapExpand_fails {h1 : Heap σ} {ret : Int} (fuel : Nat) (hret : ret ≠ 0)
    (hpages : expandPages A pool
      (alignUp (add32 wanted blockOverhead) pmmFrameSize / pmmFrameSize) h = some (ret, h1)) :
    heapExpand A pool fuel h wanted = some (-1, h1) := by
  rw [heapExpand, hpages, Option.bind_some]
  simp only [ne_eq, hret, not_false_eq_true, if_true]

/-- With a fitting block the loop ends at once. -/
theorem retryEnds_of_fits (hok : HeapOk pool h cells) (hfits : ∃ c ∈ cells, c.Fits wanted) :
    RetryEnds A pool wanted h := by
  rcases hok.scan wanted _ (Nat.lt_succ_self cells.length) with ⟨-, cur, hscan, hpos, -⟩ | ⟨hnone, -⟩
  · exact .found hscan (by omega)
  · obtain ⟨c, hc, hfit⟩ := hfits
    exact absurd hfit (hnone c hc)

/-- Without a wrap the loop ends after one expansion. -/
theorem retryEnds_of_fit (hok : HeapOk pool h cells) (hwanted : wanted % 16 = 0)
    (hfit : wanted + 4111 < 2 ^ 32) : RetryEnds A pool wanted h := by
  rcases hok.scan wanted _ (Nat.lt_succ_self cells.length) with ⟨hfits, -⟩ | ⟨-, hscan⟩
  · exact retryEnds_of_fits hok hfits
  cases hpages : expandPages A pool
      (alignUp (add32 wanted blockOverhead) pmmFrameSize / pmmFrameSize) h with
  | none => exact .panicked hscan hpages
  | some r =>
      obtain ⟨ret, h1⟩ := r
      by_cases hret : ret = 0
      · subst hret
        obtain ⟨h', hexp⟩ := heapExpand_grows _ _ hok hpages (le_refl _)
        obtain ⟨cells', hok', -, hfits, -, -⟩ := heapExpand_ok hok hwanted hfit hexp
        exact .retried hscan hexp (retryEnds_of_fits hok' (hfits rfl).1)
      · exact .failed hscan (heapExpand_fails 0 hret hpages) (by decide)

/-- With a free tail a request that wraps never gets out of the loop. -/
theorem not_retryEnds (hwanted : wanted % 16 = 0) (hlt : wanted < 2 ^ 32)
    (hwrap : 2 ^ 32 ≤ wanted + 4111) (hends : RetryEnds A pool wanted h) :
    ∀ {mid : List Cell} {c : Cell}, HeapOk pool h (mid ++ [c]) → c.free = true →
      (∀ d ∈ mid ++ [c], ¬ d.Fits wanted) → False := by
  have hround := needed_wrap hwanted hlt hwrap
  induction hends with
  | @found h fuel cur hscan hcur =>
      intro mid c hok _ hnone
      rw [hok.head_eq] at hscan
      rcases findFree_spec hok.layout hok.nonempty hscan with ⟨rfl, -⟩ | ⟨pre, d, post, hcut, -, hd, -⟩
      · exact hcur rfl
      · exact hnone d (by rw [hcut]; simp) hd
  | failed _ hexp hret =>
      intro mid c hok _ _
      exact hret (heapExpand_wrap hok hwanted hlt hwrap hexp).1
  | panicked _ hpages =>
      rw [hround, Nat.zero_div, expandPages] at hpages
      simp at hpages
  | retried _ hexp _ ih =>
      intro mid c hok hfree hnone
      obtain ⟨-, -, -, mid', c', hcut, ⟨-, hok'⟩ | ⟨hused, -⟩⟩ :=
        heapExpand_wrap hok hwanted hlt hwrap hexp
      · exact ih hok' hfree hnone
      · obtain ⟨-, hcc⟩ := List.append_inj' hcut rfl
        obtain rfl := (List.cons.inj hcc).1
        simp [hfree] at hused

/-- With a used tail it returns the block that `heap_expand` made up. -/
theorem kmallocLoop_made {mid : List Cell} {c : Cell} (hok : HeapOk pool h (mid ++ [c]))
    (hused : c.free = false) (hnone : ∀ d ∈ mid ++ [c], ¬ d.Fits wanted) (hwanted : wanted % 16 = 0)
    (hlt : wanted < 2 ^ 32) (hwrap : 2 ^ 32 ≤ wanted + 4111) {n : Nat}
    (hn : (mid ++ [c]).length ≤ n) : ∃ p h', p ≠ 0 ∧ h'.end = h.end ∧
      kmallocLoop A pool (n + 2) wanted (n + 2) h = some (p, h') := by
  have hspan := hok.span_le
  have hend := hok.end_lt
  rcases hok.scan wanted (n + 2) (by omega) with ⟨⟨d, hd, hfit⟩, -⟩ | ⟨-, hscan⟩
  · exact absurd hfit (hnone d hd)
  have hpages : expandPages A pool
      (alignUp (add32 wanted blockOverhead) pmmFrameSize / pmmFrameSize) h = some (0, h) := by
    rw [needed_wrap hwanted hlt hwrap]
    rfl
  obtain ⟨h1, hexp⟩ := heapExpand_grows _ (n + 2) hok hpages (by omega)
  obtain ⟨-, hend1, hhead, mid', c', hcut, ⟨hfree, -⟩ | ⟨-, hlinked⟩⟩ :=
    heapExpand_wrap hok hwanted hlt hwrap hexp
  · obtain ⟨-, hcc⟩ := List.append_inj' hcut rfl
    obtain rfl := (List.cons.inj hcc).1
    simp [hused] at hfree
  · have hlength : (mid ++ [c] ++ [(⟨2 ^ 32 - 16, true⟩ : Cell)]).length < n + 2 := by
      rw [List.length_append, List.length_singleton]
      omega
    obtain ⟨cur, hcur⟩ := @findFree_total _ wanted _ _ _ _ hlinked (by decide) hlength
    rw [link_of_ne (by simp)] at hcur
    obtain ⟨hpos, hcurlt⟩ := findFree_made hlinked (by omega) (by omega) hcur
    rw [← hok.head_eq, ← hhead] at hcur
    obtain ⟨h', hend', hrun⟩ := @kmallocLoop_found _ A pool _ _ _ n _ hcur hpos hcurlt
    refine ⟨cur + 16, h', by omega, hend'.trans hend1, ?_⟩
    rw [kmallocLoop, hscan, Option.bind_some, if_neg (by simp), hexp, Option.bind_some]
    exact hrun

/-! ## The sizes served -/

theorem wantedBytes_zero {size : Nat} (hsize : size < 2 ^ 32) (hlarge : 2 ^ 32 ≤ size + 15) :
    wantedBytes size = 0 := by
  have hround : wantedBytes size = add32 size (heapAlign - 1) / 16 * 16 :=
    and_not32_mask (k := 4) (by decide) (add32_lt _ _)
  have hsmall : add32 size (heapAlign - 1) < 16 := by
    unfold add32 heapAlign
    omega
  omega

/-- `kmalloc` of an intact heap is its loop. -/
theorem HeapOk.kmalloc_eq (hok : HeapOk pool h cells) {size : Nat} (h0 : size ≠ 0) :
    kmalloc A pool fuel h size = kmallocLoop A pool fuel (wantedBytes size) fuel h := by
  rw [kmalloc, hok.ready, if_neg (by simp [h0])]
  rfl

/-- A size that is served allocates as any other does. -/
theorem kmalloc_served {size p : Nat} (hok : HeapOk pool h cells) (hserved : SizeServed A pool h size)
    (hsize : size < 2 ^ 32) (hrun : kmalloc A pool fuel h size = some (p, h')) :
    ∃ cells', HeapOk pool h' cells' ∧
      Allocates size p (payloads kheapBase cells) (payloads kheapBase cells') ∧
      Evolves h.mem h'.mem cells cells' := by
  rcases hserved with hsmall | ⟨hlarge, hnone, hpage⟩
  · exact kmalloc_ok hok (by omega) hrun
  · rw [hok.kmalloc_eq (by omega), wantedBytes_zero hsize hlarge] at hrun
    cases fuel with
    | zero => simp [kmallocLoop] at hrun
    | succ n =>
        rw [kmallocLoop, Option.bind_eq_some_iff] at hrun
        obtain ⟨cur, hscan, hrun⟩ := hrun
        rw [hok.head_eq] at hscan
        rcases findFree_spec hok.layout hok.nonempty hscan with
          ⟨rfl, -⟩ | ⟨mid, c, post, rfl, -, ⟨hfree, -⟩, -⟩
        · rw [if_neg (by simp), Option.bind_eq_some_iff] at hrun
          obtain ⟨⟨ret, h1⟩, hexp, hrun⟩ := hrun
          obtain ⟨cells', hok', hpay, -, -, hev⟩ := heapExpand_ok hok (by decide) (by decide) hexp
          by_cases hret : ret = 0
          · -- the page that the expansion needs is not there
            rw [heapExpand, Option.bind_eq_some_iff] at hexp
            obtain ⟨⟨r, g⟩, hpages, hexp⟩ := hexp
            simp only at hexp
            split at hexp
            · obtain ⟨rfl, -⟩ := Prod.mk.inj (Option.some.inj hexp)
              simp at hret
            · rename_i hr
              obtain rfl : r = 0 := not_not.mp hr
              exact absurd hpages (noPage_iff.mp hpage g)
          · simp only [if_neg hret] at hrun
            obtain ⟨rfl, rfl⟩ := Prod.mk.inj (Option.some.inj hrun)
            exact ⟨cells', hok', Or.inl ⟨rfl, hpay⟩, hev⟩
        · have hfree0 := hnone _ (hok.onList mid rfl)
          rw [hok.layout.headerAt_cell] at hfree0
          simp [flag, hfree] at hfree0

/-- The block of a payload. -/
theorem HeapOk.payload_inside {p s : Nat} (hok : HeapOk pool h cells)
    (hmem : (p, s) ∈ payloads kheapBase cells) :
    blockSize h p = s ∧ kheapBase ≤ p ∧ p + s ≤ h.end := by
  have hspan := hok.span_le
  have hle := payload_le hmem
  obtain ⟨pre, c, post, rfl, -, rfl, rfl⟩ := mem_payloads hmem
  refine ⟨?_, by omega, by omega⟩
  rw [blockSize, blockOverhead, Nat.add_sub_cancel, hok.layout.headerAt_cell]

/-- A size of 2^32 - 4111 bytes or more has no correct allocation. -/
theorem KmallocCorrect.no_large {size p : Nat} (hcorrect : KmallocCorrect A pool h size)
    (hlarge : 2 ^ 32 ≤ size + 4111) (hrun : kmalloc A pool fuel h size = some (p, h')) (hp : p ≠ 0)
    (hend : h'.end ≤ 0x19000000) : False := by
  obtain ⟨hsize, -, hin⟩ := hcorrect.payload fuel p h' hrun hp
  omega

/-- Where a size that wraps to 0 is served correctly, nothing is to be had. -/
theorem KmallocCorrect.nothing {size : Nat} (hok : HeapOk pool h cells)
    (hcorrect : KmallocCorrect A pool h size) (hsize : size < 2 ^ 32) (hlarge : 2 ^ 32 ≤ size + 15) :
    (∀ c ∈ cells, ¬ c.Fits 0) ∧ NoPage A pool h := by
  have hend := hok.end_lt
  have hwanted := wantedBytes_zero hsize hlarge
  rcases hok.scan 0 (cells.length + 3) (by omega) with
    ⟨-, cur, hscan, hpos, hlt⟩ | ⟨hnone, hscan⟩
  · obtain ⟨h', hend', hrun⟩ :=
      @kmallocLoop_found _ A pool _ _ _ (cells.length + 2) _ hscan hpos hlt
    rw [← hwanted, ← hok.kmalloc_eq (by omega)] at hrun
    exact (hcorrect.no_large (by omega) hrun (by omega) (by omega)).elim
  · refine ⟨hnone, noPage_iff.mpr fun g hpages => ?_⟩
    obtain ⟨h1, hexp⟩ := heapExpand_grows 0 (cells.length + 3) hok hpages (by omega)
    obtain ⟨cells1, hok1, -, hgrown, -, -⟩ := heapExpand_ok hok (by decide) (by decide) hexp
    obtain ⟨⟨c, hc, hfit⟩, hlength⟩ := hgrown rfl
    rcases hok1.scan 0 (cells.length + 3) (by omega) with
      ⟨-, cur, hcur, hpos, hlt⟩ | ⟨hnone1, -⟩
    · obtain ⟨h', hend', hrun⟩ :=
        @kmallocLoop_found _ A pool _ _ _ (cells.length + 1) _ hcur hpos hlt
      have hend1 := hok1.end_lt
      have hrun' : kmalloc A pool (cells.length + 3) h size = some (cur + 16, h') := by
        rw [hok.kmalloc_eq (by omega), hwanted, kmallocLoop, hscan, Option.bind_some,
          if_neg (by simp), hexp, Option.bind_some]
        exact hrun
      exact hcorrect.no_large (by omega) hrun' (by omega) (by omega)
    · exact hnone1 c hc hfit

/-- On an intact heap `kmalloc` is correct for the sizes served and for no other. -/
theorem kmallocCorrect_iff {size : Nat} (hok : HeapOk pool h cells) (hstart : h.start = kheapBase)
    (hsize : size < 2 ^ 32) : KmallocCorrect A pool h size ↔ SizeServed A pool h size := by
  obtain ⟨hmod, hlt⟩ := wantedBytes_mod size
  constructor
  · intro hcorrect
    by_cases hlarge : 2 ^ 32 ≤ size + 15
    · obtain ⟨hnone, hpage⟩ := KmallocCorrect.nothing hok hcorrect hsize hlarge
      refine Or.inr ⟨hlarge, fun b hb => ?_, hpage⟩
      by_contra hfree
      obtain ⟨c, hc, hfit⟩ := (fits_iff hok 0).mp ⟨b, hb, hfree, Nat.zero_le _⟩
      exact hnone c hc hfit
    · refine Or.inl ?_
      by_contra hno
      have hwanted : wantedBytes size = (size + 15) / 16 * 16 := wanted_eq (by omega)
      have hspan := hok.span_le
      have hend := hok.end_lt
      have hnone : ∀ d ∈ cells, ¬ d.Fits (wantedBytes size) := by
        rintro d hd ⟨-, hfit⟩
        obtain ⟨pre, post, rfl⟩ := List.append_of_mem hd
        simp only [span_append, span_cons, blockOverhead] at hspan
        omega
      rcases List.eq_nil_or_concat cells with rfl | ⟨mid, c, rfl⟩
      · exact hok.nonempty rfl
      rw [List.concat_eq_append] at hok hnone
      by_cases hfree : c.free = true
      · exact not_retryEnds hmod hlt (by omega) (hcorrect.ends hok.ready (by omega)) hok hfree hnone
      · obtain ⟨p, h', hp, hend', hrun⟩ := kmallocLoop_made (A := A) hok (by simpa using hfree) hnone
          hmod hlt (by omega) (le_refl _)
        rw [← hok.kmalloc_eq (by omega)] at hrun
        exact hcorrect.no_large (by omega) hrun hp (by omega)
  · intro hserved
    have hfit : wantedBytes size + 4111 < 2 ^ 32 := by
      rcases hserved with hsmall | ⟨hlarge, -⟩
      · have hwanted : wantedBytes size = (size + 15) / 16 * 16 := wanted_eq (by omega)
        omega
      · rw [wantedBytes_zero hsize hlarge]
        omega
    refine ⟨fun _ _ => retryEnds_of_fit hok hmod hfit, fun fuel p h' hrun hp => ?_⟩
    obtain ⟨cells', hok', ⟨hp0, -⟩ | ⟨-, before, after, s, hs, -, hnew⟩, -⟩ :=
      kmalloc_served hok hserved hsize hrun
    · exact absurd hp0 hp
    · obtain ⟨hblock, hlow, hin⟩ := hok'.payload_inside (p := p) (s := s) (by rw [hnew]; simp)
      rw [hblock, kmalloc_start hrun, hstart]
      exact ⟨hs, hlow, hin⟩

end Intact

/-! ## Runs -/

/-- The states reached by calls whose sizes are all served, with the live pointers
and their requested sizes. -/
inductive ServedReach {σ : Type} (A : FrameAllocator σ) (boot : Boot σ) :
    Heap σ → List (Nat × Nat) → Prop
  | start {h : Heap σ} : boot.heap A = some h → ServedReach A boot h []
  | kmalloc {h h' : Heap σ} {live : List (Nat × Nat)} {fuel size p : Nat} :
      ServedReach A boot h live → size < 2 ^ 32 → SizeServed A boot.pool h size →
      kmalloc A boot.pool fuel h size = some (p, h') →
      ServedReach A boot h' (allocated live p size)
  | kfree {h : Heap σ} {live : List (Nat × Nat)} {x : Nat × Nat} :
      ServedReach A boot h live → x ∈ live → ServedReach A boot (kfree h x.1) (live.erase x)
  | kfreeNull {h : Heap σ} {live : List (Nat × Nat)} :
      ServedReach A boot h live → ServedReach A boot (kfree h 0) live
  | krealloc {h h' : Heap σ} {live : List (Nat × Nat)} {x : Nat × Nat} {fuel size q : Nat} :
      ServedReach A boot h live → x ∈ live → size < 2 ^ 32 →
      (blockSize h x.1 < size → SizeServed A boot.pool h size) →
      krealloc A boot.pool fuel h x.1 size = some (q, h') →
      ServedReach A boot h' (reallocated live x q size)
  | kreallocNull {h h' : Heap σ} {live : List (Nat × Nat)} {fuel size p : Nat} :
      ServedReach A boot h live → size < 2 ^ 32 → SizeServed A boot.pool h size →
      krealloc A boot.pool fuel h 0 size = some (p, h') →
      ServedReach A boot h' (allocated live p size)
  | store {h : Heap σ} {live : List (Nat × Nat)} {x : Nat × Nat} {m : Mem} :
      ServedReach A boot h live → x ∈ live →
      (∀ a, a < x.1 ∨ x.1 + x.2 ≤ a → m a = h.mem a) → ServedReach A boot { h with mem := m } live

section Runs

variable {σ : Type} {A : FrameAllocator σ} {boot : Boot σ} {h : Heap σ} {live : List (Nat × Nat)}

theorem Boot.heap_start (hheap : boot.heap A = some h) : h.start = kheapBase := by
  rw [Boot.heap, Option.bind_eq_some_iff] at hheap
  obtain ⟨paging, hpaging, hinit⟩ := hheap
  have hlimit := boot.physLimit_le
  obtain ⟨hpok, -, -⟩ := pagingInit_spec (by simp only [pmmMaxPhysAddr] at hlimit; omega) hpaging
  rw [heapInit, Option.map_eq_some_iff] at hinit
  obtain ⟨h1, hpages, rfl⟩ := hinit
  obtain ⟨-, heq, -⟩ := initPages_ok hpok (show kheapBase % 4096 = 0 by decide)
    (show kheapBase + 4096 * heapInitialPages < 2 ^ 32 by decide)
    (fun page h1 h2 => absurd h1 (by simp only at h2; omega)) hpages
  rw [heq]

/-- Sizes up to a bound that does not wrap are served in every state. -/
theorem HeapReach.served {bound : Nat} (hbound : bound + 4112 ≤ 2 ^ 32)
    (hreach : HeapReach A boot bound h live) : ServedReach A boot h live := by
  induction hreach with
  | start hheap => exact .start hheap
  | kmalloc _ hsize hrun ih => exact ih.kmalloc (by omega) (Or.inl (by omega)) hrun
  | kfree _ hx ih => exact ih.kfree hx
  | kfreeNull _ ih => exact ih.kfreeNull
  | krealloc _ hx hsize hrun ih =>
      exact ih.krealloc hx (by omega) (fun _ => Or.inl (by omega)) hrun
  | kreallocNull _ hsize hrun ih => exact ih.kreallocNull (by omega) (Or.inl (by omega)) hrun
  | store _ hx hm ih => exact ih.store hx hm

/-- The heap stays intact in a run whose sizes are all served. -/
theorem ServedReach.cells (hreach : ServedReach A boot h live) :
    h.start = kheapBase ∧ ∃ cells, HeapOk boot.pool h cells ∧ Covers (payloads kheapBase cells) live := by
  induction hreach with
  | start hheap => exact ⟨Boot.heap_start hheap, Boot.heap_inv hheap⟩
  | kmalloc _ hsize hserved hrun ih =>
      obtain ⟨hstart, cells, hok, hcov⟩ := ih
      obtain ⟨cells', hok', halloc, -⟩ := kmalloc_served hok hserved hsize hrun
      exact ⟨(kmalloc_start hrun).trans hstart, cells', hok', hcov.allocates (payloads_nodup _ _) halloc⟩
  | @kfree h live x _ hx ih =>
      obtain ⟨hstart, cells, hok, hcov⟩ := ih
      obtain ⟨s, hs, -⟩ := hcov.payload x hx
      obtain ⟨cells', hok', hrel, -⟩ := kfree_ok hok hs
      exact ⟨(kfree_start h x.1).trans hstart, cells', hok', hcov.releases (payloads_nodup _ _) hx hrel⟩
  | @kfreeNull h live _ ih =>
      rwa [Kheap.kfree, if_pos (Or.inr rfl)]
  | @krealloc h h' live x fuel size q _ hx hsize hserved hrun ih =>
      obtain ⟨hstart, cells, hok, hcov⟩ := ih
      obtain ⟨s, hs, -⟩ := hcov.payload x hx
      have hblock := (hok.payload_inside hs).1
      obtain ⟨cells', hok', hre, -, -⟩ := krealloc_ok_of hok hs
        (fun hlt _ _ hmalloc => kmalloc_served hok (hserved (hblock ▸ hlt)) hsize hmalloc) hrun
      exact ⟨(krealloc_start hrun).trans hstart, cells', hok',
        hcov.reallocates (payloads_nodup _ _) hx hre⟩
  | kreallocNull _ hsize hserved hrun ih =>
      obtain ⟨hstart, cells, hok, hcov⟩ := ih
      rw [Kheap.krealloc, if_pos rfl] at hrun
      obtain ⟨cells', hok', halloc, -⟩ := kmalloc_served hok hserved hsize hrun
      exact ⟨(kmalloc_start hrun).trans hstart, cells', hok', hcov.allocates (payloads_nodup _ _) halloc⟩
  | @store h live x m _ hx hm ih =>
      obtain ⟨hstart, cells, hok, hcov⟩ := ih
      obtain ⟨s, hs, hle⟩ := hcov.payload x hx
      exact ⟨hstart, cells, hok.write hs fun a ha => hm a (by omega), hcov⟩

end Runs

/-- In every run whose sizes are served, `kmalloc` is correct for the sizes that are
served, and for no other 32-bit size. -/
theorem kmalloc_correct_iff {σ : Type} {A : FrameAllocator σ} {boot : Boot σ} {h : Heap σ}
    {live : List (Nat × Nat)} (hreach : ServedReach A boot h live) {size : Nat}
    (hsize : size < 2 ^ 32) :
    KmallocCorrect A boot.pool h size ↔ SizeServed A boot.pool h size := by
  obtain ⟨hstart, cells, hok, -⟩ := hreach.cells
  exact kmallocCorrect_iff hok hstart hsize

theorem kmalloc_correct_example :
    KmallocCorrect bumpAllocator exampleBoot.pool exampleHeap 100 := by
  have hstart : ServedReach bumpAllocator exampleBoot exampleHeap [] :=
    ServedReach.start (Option.some_get _).symm
  exact (kmalloc_correct_iff hstart (by decide)).mpr (Or.inl (by decide))

/-- Right after boot `kmalloc(2^32 - 1)` returns a block of size 0, and
`kmalloc(2^32 - 16)` does not return. -/
theorem kmalloc_wraps : HeapReach bumpAllocator exampleBoot kheapMaxSize exampleHeap [] ∧
    ¬ KmallocCorrect bumpAllocator exampleBoot.pool exampleHeap (2 ^ 32 - 1) ∧
    ¬ KmallocCorrect bumpAllocator exampleBoot.pool exampleHeap (2 ^ 32 - 16) := by
  have hheap : exampleBoot.heap bumpAllocator = some exampleHeap := (Option.some_get _).symm
  obtain ⟨hok, hend⟩ := Boot.heap_ok hheap
  refine ⟨HeapReach.start hheap, fun hcorrect => ?_, fun hcorrect => ?_⟩
  · obtain ⟨hnone, -⟩ := KmallocCorrect.nothing hok hcorrect (by decide) (by decide)
    exact hnone _ (List.mem_singleton_self _) ⟨rfl, Nat.zero_le _⟩
  · obtain ⟨hmod, hlt⟩ := wantedBytes_mod (2 ^ 32 - 16)
    refine not_retryEnds hmod hlt (by decide) (hcorrect.ends hok.ready (by decide))
      (show HeapOk _ _ ([] ++ [⟨heapInitialPages * 4096 - 16, true⟩]) from hok) rfl ?_
    simp only [List.nil_append, List.mem_singleton, forall_eq, Cell.Fits, not_and]
    exact fun _ => by decide

end RoninOS.Kheap
