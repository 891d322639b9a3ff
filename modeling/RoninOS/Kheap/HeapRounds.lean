/-
RoninOS.Kheap.HeapRounds — the calls of the heap return.

The loops of `heap.c` have a number of rounds in the model. What a call returns does not
depend on it (`kmalloc_mono` and its like), and in an intact heap `kmalloc` of a size
that does not wrap returns, where `map_page` does not panic (`HeapOk.kmalloc_returns`).
Without a framebuffer it never does (`tables_suffice`).
-/
import RoninOS.Kheap.HeapBalance
import RoninOS.Kheap.HeapSizes
import RoninOS.Lib.Fuel

namespace RoninOS.Kheap

open RoninOS.Lib RoninOS.Mem

/-! ## More rounds -/

theorem findFree_mono (m : Mem) (wanted cur : Nat) :
    FuelMono fun fuel => findFree m wanted fuel cur := by
  intro n
  induction n generalizing cur with
  | zero => exact fun _ _ _ hrun => nomatch hrun
  | succ n ih =>
      intro k a hle hrun
      obtain ⟨k, rfl⟩ := Nat.exists_eq_succ_of_ne_zero (Nat.ne_zero_of_lt hle)
      simp only [findFree] at hrun ⊢
      split at hrun
      · rename_i hend
        rwa [if_pos hend]
      · rename_i hgo
        rw [if_neg hgo]
        split at hrun
        · rename_i hfits
          rwa [if_pos hfits]
        · rename_i hnext
          rw [if_neg hnext]
          exact ih _ k a (Nat.le_of_succ_le_succ hle) hrun

theorem lastBlock_mono (m : Mem) (cur : Nat) : FuelMono fun fuel => lastBlock m fuel cur := by
  intro n
  induction n generalizing cur with
  | zero => exact fun _ _ _ hrun => nomatch hrun
  | succ n ih =>
      intro k a hle hrun
      obtain ⟨k, rfl⟩ := Nat.exists_eq_succ_of_ne_zero (Nat.ne_zero_of_lt hle)
      simp only [lastBlock] at hrun ⊢
      split at hrun
      · rename_i hgo
        rw [if_pos hgo]
        exact ih _ k a (Nat.le_of_succ_le_succ hle) hrun
      · rename_i hend
        rwa [if_neg hend]

theorem statsLoop_mono (m : Mem) (cur : Nat) (stats : HeapStats) :
    FuelMono fun fuel => statsLoop m fuel cur stats := by
  intro n
  induction n generalizing cur stats with
  | zero => exact fun _ _ _ hrun => nomatch hrun
  | succ n ih =>
      intro k st hle hrun
      obtain ⟨k, rfl⟩ := Nat.exists_eq_succ_of_ne_zero (Nat.ne_zero_of_lt hle)
      simp only [statsLoop] at hrun ⊢
      split
      · rename_i hend
        rwa [if_pos hend] at hrun
      · rename_i hgo
        rw [if_neg hgo] at hrun
        exact ih _ _ k st (Nat.le_of_succ_le_succ hle) hrun

section Calls

variable {σ : Type} {A : FrameAllocator σ} {pool : TablePool}

theorem heapGetStats_mono (h : Heap σ) : FuelMono fun fuel => heapGetStats fuel h := by
  intro n k st hle hrun
  simp only [heapGetStats] at hrun ⊢
  split
  · rename_i hready
    rwa [if_pos hready] at hrun
  · rename_i hready
    rw [if_neg hready] at hrun
    exact statsLoop_mono _ _ _ n k st hle hrun

theorem heapExpand_mono (h : Heap σ) (minBytes : Nat) :
    FuelMono fun fuel => heapExpand A pool fuel h minBytes := by
  intro n k r hle hrun
  simp only [heapExpand, Option.bind_eq_some_iff] at hrun ⊢
  obtain ⟨⟨ret, h1⟩, hpages, hrun⟩ := hrun
  refine ⟨(ret, h1), hpages, ?_⟩
  split at hrun
  · rename_i hret
    rwa [if_pos hret]
  · rename_i hret
    rw [if_neg hret]
    obtain ⟨tail, htail, hr⟩ := Option.map_eq_some_iff.mp hrun
    exact Option.map_eq_some_iff.mpr ⟨tail, lastBlock_mono _ _ n k tail hle htail, hr⟩

theorem kmallocLoop_mono {n k wanted : Nat} (hle : n ≤ k) {r : Nat × Heap σ} :
    ∀ {retries retries' : Nat} {h : Heap σ}, retries ≤ retries' →
      kmallocLoop A pool n wanted retries h = some r →
      kmallocLoop A pool k wanted retries' h = some r := by
  intro retries
  induction retries with
  | zero => exact fun _ hrun => nomatch hrun
  | succ retries ih =>
      intro retries' h hretries hrun
      obtain ⟨retries', rfl⟩ := Nat.exists_eq_succ_of_ne_zero (Nat.ne_zero_of_lt hretries)
      simp only [kmallocLoop, Option.bind_eq_some_iff] at hrun ⊢
      obtain ⟨cur, hscan, hrun⟩ := hrun
      refine ⟨cur, findFree_mono _ _ _ n k cur hle hscan, ?_⟩
      split at hrun
      · rename_i hcur
        rwa [if_pos hcur]
      · rename_i hcur
        rw [if_neg hcur]
        obtain ⟨⟨ret, h1⟩, hexp, hrun⟩ := Option.bind_eq_some_iff.mp hrun
        refine Option.bind_eq_some_iff.mpr ⟨(ret, h1), heapExpand_mono _ _ n k _ hle hexp, ?_⟩
        simp only at hrun ⊢
        split at hrun
        · rename_i hret
          rw [if_pos hret]
          exact ih (Nat.le_of_succ_le_succ hretries) hrun
        · rename_i hret
          rwa [if_neg hret]

theorem kmalloc_mono (h : Heap σ) (size : Nat) :
    FuelMono fun fuel => kmalloc A pool fuel h size := by
  intro n k r hle hrun
  simp only [kmalloc] at hrun ⊢
  split
  · rename_i hnull
    rwa [if_pos hnull] at hrun
  · rename_i hloop
    rw [if_neg hloop] at hrun
    exact kmallocLoop_mono hle hle hrun

theorem krealloc_mono (h : Heap σ) (p size : Nat) :
    FuelMono fun fuel => krealloc A pool fuel h p size := by
  intro n k r hle hrun
  simp only [krealloc] at hrun ⊢
  split
  · rename_i hnull
    rw [if_pos hnull] at hrun
    exact kmalloc_mono h size n k r hle hrun
  rename_i hp
  rw [if_neg hp] at hrun
  split
  · rename_i hzero
    rwa [if_pos hzero] at hrun
  rename_i hsize
  rw [if_neg hsize] at hrun
  split
  · rename_i hroom
    rwa [if_pos hroom] at hrun
  rename_i hroom
  rw [if_neg hroom] at hrun
  exact (kmalloc_mono h size).map _ n k r hle hrun

/-! ## The calls return -/

variable {h : Heap σ} {cells : List Cell}

/-- `kmalloc` in an intact heap returns, or the expansion that it needs panics. -/
theorem HeapOk.kmalloc_returns (hok : HeapOk pool h cells) {size : Nat}
    (hsize : size ≤ kheapMaxSize) : (∃ rounds, expandPages A pool rounds h = none) ∨
      Returns fun fuel => kmalloc A pool fuel h size := by
  have hmax : kheapMaxSize = 16 * 1024 * 1024 := rfl
  by_cases h0 : size = 0
  · refine Or.inr ⟨0, (0, h), ?_⟩
    simp only [kmalloc, h0, or_true, if_true]
  have hfit : wantedBytes size + 4111 < 2 ^ 32 := by
    rw [wantedBytes, wanted_eq (by omega)]
    omega
  have hmod := (wantedBytes_mod size).1
  rcases hok.scan (wantedBytes size) (cells.length + 2) (by omega) with
    ⟨-, cur, hscan, hpos, hlt⟩ | ⟨-, hscan⟩
  · obtain ⟨h', -, hrun⟩ := @kmallocLoop_found _ A pool _ _ _ (cells.length + 1) _ hscan hpos hlt
    exact Or.inr ⟨cells.length + 2, _, (hok.kmalloc_eq h0).trans hrun⟩
  cases hpages : expandPages A pool
      (alignUp (add32 (wantedBytes size) blockOverhead) pmmFrameSize / pmmFrameSize) h with
  | none => exact Or.inl ⟨_, hpages⟩
  | some r =>
      obtain ⟨ret, h1⟩ := r
      right
      by_cases hret : ret = 0
      · -- after one expansion there is a block
        subst hret
        obtain ⟨h', hexp⟩ := heapExpand_grows _ (cells.length + 2) hok hpages (by omega)
        obtain ⟨cells', hok', -, hfits, -, -⟩ := heapExpand_ok hok hmod hfit hexp
        obtain ⟨hblock, hlength⟩ := hfits rfl
        rcases hok'.scan (wantedBytes size) (cells.length + 2) (by omega) with
          ⟨-, cur, hscan', hpos, hlt⟩ | ⟨hnone, -⟩
        · obtain ⟨h'', -, hrun⟩ :=
            @kmallocLoop_found _ A pool _ _ _ cells.length _ hscan' hpos hlt
          refine ⟨cells.length + 2, (cur + 16, h''), (hok.kmalloc_eq h0).trans ?_⟩
          rw [kmallocLoop, hscan, Option.bind_some, if_neg (by simp), hexp, Option.bind_some]
          exact hrun
        · obtain ⟨c, hc, hfit⟩ := hblock
          exact absurd hfit (hnone c hc)
      · refine ⟨cells.length + 2, (0, h1), (hok.kmalloc_eq h0).trans ?_⟩
        rw [kmallocLoop, hscan, Option.bind_some, if_neg (by simp),
          heapExpand_fails (cells.length + 2) hret hpages]
        rfl

/-- `krealloc` returns where `kmalloc` does. -/
theorem krealloc_returns {size : Nat} (p : Nat)
    (hret : Returns fun fuel => kmalloc A pool fuel h size) :
    Returns fun fuel => krealloc A pool fuel h p size := by
  unfold krealloc
  split
  · exact hret
  split
  · exact ⟨0, _, rfl⟩
  by_cases hroom : (headerAt h.mem (sub32 p blockOverhead)).size ≥ size
  · simp only [if_pos hroom]
    exact ⟨0, _, rfl⟩
  · simp only [if_neg hroom]
    exact (returns_map_iff _).mpr hret

/-! ## The page tables -/

/-- While a table is left for every directory entry without one, `map_page` below 512 MiB
does not panic, whatever the frame, and leaves such tables. -/
theorem mapPage_left {p : Paging} {virt phys flags : Nat} (hleft : TablesLeft p)
    (hv : virt < 2 ^ 29) :
    ∃ ret p', mapPage pool p virt phys flags = some (ret, p') ∧ TablesLeft p' := by
  unfold mapPage
  split
  · exact ⟨_, _, rfl, hleft⟩
  · obtain ⟨table, q, hget, hq⟩ := @getTable_total pool _ hleft _ hv
    rw [hget]
    exact ⟨_, _, rfl, hq⟩

theorem expandPages_left : ∀ {rounds : Nat} {h : Heap σ}, h.end ≤ h.limit → h.limit < 2 ^ 29 →
    TablesLeft h.paging →
    ∃ ret h', expandPages A pool rounds h = some (ret, h') ∧ TablesLeft h'.paging := by
  intro rounds
  induction rounds with
  | zero => exact fun _ _ hleft => ⟨0, _, rfl, hleft⟩
  | succ rounds ih =>
      intro h hle hlimit hleft
      rw [expandPages]
      simp only
      split
      · exact ⟨_, _, rfl, hleft⟩
      split
      · exact ⟨_, _, rfl, hleft⟩
      rename_i hroom
      obtain ⟨ret, paging, hmap, hleft'⟩ :=
        @mapPage_left pool _ h.end (A.alloc h.frames).1 pageWrite hleft (by omega)
      rw [hmap, Option.bind_some]
      simp only
      split
      · exact ⟨_, _, rfl, hleft'⟩
      · exact ih (not_lt.mp hroom) hlimit hleft'

theorem heapExpand_left {h' : Heap σ} {fuel minBytes : Nat} {ret : Int} (hok : PagesOk pool h)
    (hleft : TablesLeft h.paging)
    (hexp : heapExpand A pool fuel h minBytes = some (ret, h')) : TablesLeft h'.paging := by
  have hlimit : h.limit < 2 ^ 29 := hok.limit_eq ▸ by decide
  obtain ⟨r, h1, hpages, hleft1⟩ := @expandPages_left _ A pool
    (alignUp (add32 minBytes blockOverhead) pmmFrameSize / pmmFrameSize) h hok.end_le hlimit hleft
  rw [heapExpand, hpages, Option.bind_some] at hexp
  simp only at hexp
  split at hexp
  · obtain ⟨-, rfl⟩ := Prod.mk.inj (Option.some.inj hexp)
    exact hleft1
  · obtain ⟨tail, -, hexp⟩ := Option.map_eq_some_iff.mp hexp
    split at hexp
    · obtain ⟨-, rfl⟩ := Prod.mk.inj hexp
      exact hleft1
    split at hexp
    · obtain ⟨-, rfl⟩ := Prod.mk.inj hexp
      exact hleft1
    · obtain ⟨-, rfl⟩ := Prod.mk.inj hexp
      exact hleft1

theorem kmallocLoop_left {fuel wanted p : Nat} : ∀ {retries : Nat} {h h' : Heap σ},
    PagesOk pool h → TablesLeft h.paging →
    kmallocLoop A pool fuel wanted retries h = some (p, h') → TablesLeft h'.paging := by
  intro retries
  induction retries with
  | zero => exact fun _ _ hrun => nomatch hrun
  | succ retries ih =>
      intro h h' hok hleft hrun
      rw [kmallocLoop, Option.bind_eq_some_iff] at hrun
      obtain ⟨cur, -, hrun⟩ := hrun
      split at hrun
      · obtain ⟨-, rfl⟩ := Prod.mk.inj (Option.some.inj hrun)
        exact hleft
      · obtain ⟨⟨ret, h1⟩, hexp, hrun⟩ := Option.bind_eq_some_iff.mp hrun
        have hleft1 := heapExpand_left hok hleft hexp
        simp only at hrun
        split at hrun
        · exact ih ((heapExpand_steps hok hexp).pagesOk hok) hleft1 hrun
        · obtain ⟨-, rfl⟩ := Prod.mk.inj (Option.some.inj hrun)
          exact hleft1

theorem kmalloc_left {h' : Heap σ} {fuel size p : Nat} (hok : PagesOk pool h)
    (hleft : TablesLeft h.paging) (hrun : kmalloc A pool fuel h size = some (p, h')) :
    TablesLeft h'.paging := by
  rw [kmalloc] at hrun
  split at hrun
  · obtain ⟨-, rfl⟩ := Prod.mk.inj (Option.some.inj hrun)
    exact hleft
  · exact kmallocLoop_left hok hleft hrun

theorem kfree_paging (h : Heap σ) (p : Nat) : (kfree h p).paging = h.paging := by
  unfold kfree
  split <;> rfl

theorem krealloc_left {h' : Heap σ} {fuel size p q : Nat} (hok : PagesOk pool h)
    (hleft : TablesLeft h.paging) (hrun : krealloc A pool fuel h p size = some (q, h')) :
    TablesLeft h'.paging := by
  rw [krealloc] at hrun
  split at hrun
  · exact kmalloc_left hok hleft hrun
  split at hrun
  · obtain ⟨-, rfl⟩ := Prod.mk.inj (Option.some.inj hrun)
    rwa [kfree_paging]
  simp only at hrun
  split at hrun
  · obtain ⟨-, rfl⟩ := Prod.mk.inj (Option.some.inj hrun)
    exact hleft
  obtain ⟨⟨np, h1⟩, halloc, hrun⟩ := Option.map_eq_some_iff.mp hrun
  have hleft1 := kmalloc_left hok hleft halloc
  simp only at hrun
  split at hrun
  · obtain ⟨-, rfl⟩ := Prod.mk.inj hrun
    exact hleft1
  · obtain ⟨-, rfl⟩ := Prod.mk.inj hrun
    rwa [kfree_paging]

theorem initPages_left : ∀ {rounds : Nat} {h h' : Heap σ}, h.end + 4096 * rounds ≤ 2 ^ 29 →
    TablesLeft h.paging → initPages A pool rounds h = some h' → TablesLeft h'.paging := by
  intro rounds
  induction rounds with
  | zero =>
      intro h h' _ hleft hinit
      obtain rfl := Option.some.inj hinit
      exact hleft
  | succ rounds ih =>
      intro h h' hroom hleft hinit
      have hnext : add32 h.end pmmFrameSize = h.end + 4096 :=
        add32_of_lt (by simp only [pmmFrameSize]; omega)
      rw [initPages] at hinit
      simp only at hinit
      split at hinit
      · cases hinit
      obtain ⟨ret, paging, hmap, hleft'⟩ :=
        @mapPage_left pool _ h.end (A.alloc h.frames).1 pageWrite hleft (by omega)
      rw [hmap, Option.bind_some] at hinit
      simp only at hinit
      split at hinit
      · cases hinit
      · rw [hnext] at hinit
        exact ih (by simp only; omega) hleft' hinit

end Calls

section Tables

variable {σ : Type} {A : FrameAllocator σ} {boot : Boot σ}

/-- In some reachable heap an expansion panics in `map_page`: no page table is left. -/
def TablesRunOut (A : FrameAllocator σ) (boot : Boot σ) : Prop :=
  ∃ h live rounds, HeapReach A boot kheapMaxSize h live ∧ expandPages A boot.pool rounds h = none

/-- Without a framebuffer every reachable heap has the page tables that it can need. -/
theorem HeapReach.tablesLeft {h : Heap σ} {live : List (Nat × Nat)}
    (hfb : boot.framebuffer = none) (hreach : HeapReach A boot kheapMaxSize h live) :
    TablesLeft h.paging := by
  have hpages : ∀ {h : Heap σ} {live : List (Nat × Nat)},
      HeapReach A boot kheapMaxSize h live → PagesOk boot.pool h := by
    intro h live hreach
    obtain ⟨cells, hok, -⟩ := hreach.cells (by decide)
    exact hok.pages
  induction hreach with
  | start hheap =>
      obtain ⟨paging, hpaging, hleft⟩ := @pagingInit_total boot.pool boot.tables boot.physLimit
        boot.physLimit_le
      rw [Boot.heap, hfb, hpaging, Option.bind_some, heapInit, Option.map_eq_some_iff] at hheap
      obtain ⟨h1, hinit, rfl⟩ := hheap
      have hleft1 : TablesLeft h1.paging :=
        initPages_left (show kheapBase + 4096 * heapInitialPages ≤ 2 ^ 29 by decide) hleft hinit
      exact hleft1
  | kmalloc hbefore _ hrun ih => exact kmalloc_left (hpages hbefore) ih hrun
  | kfree _ _ ih => rwa [kfree_paging]
  | kfreeNull _ ih => rwa [kfree_paging]
  | krealloc hbefore _ _ hrun ih => exact krealloc_left (hpages hbefore) ih hrun
  | kreallocNull hbefore _ hrun ih => exact krealloc_left (hpages hbefore) ih hrun
  | store _ _ _ ih => exact ih

/-- So the heap never panics without a framebuffer. -/
theorem tables_suffice (hfb : boot.framebuffer = none) : ¬ TablesRunOut A boot := by
  rintro ⟨h, live, rounds, hreach, hnone⟩
  obtain ⟨cells, hok, -⟩ := hreach.cells (by decide)
  obtain ⟨ret, h', hsome, -⟩ := @expandPages_left _ A boot.pool rounds h hok.pages.end_le
    (hok.pages.limit_eq ▸ by decide) (hreach.tablesLeft hfb)
  rw [hnone] at hsome
  cases hsome

end Tables

end RoninOS.Kheap
