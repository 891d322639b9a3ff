/-
RoninOS.Apps.HeapTest — the self tests of the heap: `kernel/apps/app_heap_test.c` and
`memory_smoke_test` of `kernel/kernel.c`.

Both run on any reachable heap. What can fail in them are the allocations alone: the
contents, the addresses and the free bytes that they check are right in every state, and
a test that passes gives the heap back as it was (`heap_test_passes_iff`,
`smoke_test_passes`). At boot the smoke test has all that it asks for (`smoke_test_at_boot`).
-/
import RoninOS.Kheap.HeapBalance
import RoninOS.Kheap.HeapData
import RoninOS.Kheap.HeapReuse
import RoninOS.Kheap.HeapRounds
import RoninOS.Lib.CString
import RoninOS.Lib.Fuel
import RoninOS.Lib.MemMove

namespace RoninOS.Apps

open RoninOS.Lib RoninOS.Kheap

/-! ## `heap_test` -/

/-- `g_failures`, and what is printed. -/
structure TestLog where
  failures : Nat
  printed : List UInt8

/-- `ok`. -/
def TestLog.ok (log : TestLog) (msg : String) : TestLog :=
  { log with printed := log.printed ++ ascii "[ok] " ++ ascii msg ++ ascii "\n" }

/-- `fail`. -/
def TestLog.fail (log : TestLog) (msg : String) : TestLog where
  failures := log.failures + 1
  printed := log.printed ++ ascii "[fail] " ++ ascii msg ++ ascii "\n"

/-- `expect`. -/
def TestLog.expect (log : TestLog) (cond : Bool) (msg : String) : TestLog :=
  if cond then log.ok msg else log.fail msg

section Programs

variable {σ : Type} (A : FrameAllocator σ) (pool : Mem.TablePool)

/-- `if (p) memset(p, c, n)`. -/
def fillBlock (h : Heap σ) (p : Nat) (c : UInt8) (n : Nat) : Heap σ :=
  if p ≠ 0 then { h with mem := memset h.mem p c n } else h

/-- `app_heap_test_main`; `none` where a loop runs out of rounds or `map_page` panics. It
returns 0 where nothing failed, and else its `assert` halts. -/
def appHeapTestMain (fuel : Nat) (h : Heap σ) : Option (TestLog × Heap σ) :=
  (heapGetStats fuel h).bind fun before =>
  (kmalloc A pool fuel h 64).bind fun (p1, h) =>
  let log := TestLog.expect ⟨0, []⟩ (p1 ≠ 0) "kmalloc(64)"
  (kmalloc A pool fuel h 256).bind fun (p2, h) =>
  let log := log.expect (p2 ≠ 0) "kmalloc(256)"
  let h := fillBlock h p1 0xAA 64
  let h := fillBlock h p2 0xBB 256
  (krealloc A pool fuel h p2 512).bind fun (p3, h) =>
  let log := log.expect (p3 ≠ 0) "krealloc(256->512)"
  let log :=
    if p3 ≠ 0 then
      (log.expect (h.mem p3 = 0xBB) "krealloc preserves first byte").expect (h.mem (p3 + 10) = 0xBB)
        "krealloc preserves data"
    else log
  let h := kfree (kfree h p1) p3
  (heapGetStats fuel h).map fun after =>
    let log := log.expect (after.freeBytes ≥ before.freeBytes) "free bytes recovered"
    ({ log with printed := log.printed ++
        (if log.failures = 0 then ascii "heap_test: PASS\n" else ascii "heap_test: FAIL\n") }, h)

/-- A heap that a test gives back: the same pointers are live, with the bytes that they had,
and the block list is as it was, the free space at the end apart. -/
structure GivenBack (A : FrameAllocator σ) (boot : Boot σ) (h : Heap σ) (live : List (Nat × Nat))
    (h' : Heap σ) : Prop where
  reach : HeapReach A boot kheapMaxSize h' live
  sameButTail : SameButTail h h'
  kept : ∀ x ∈ live, BlockKept h h' x.1

/-- The allocations of the test succeed. -/
def HeapTestServed (fuel : Nat) (h : Heap σ) : Prop :=
  ∃ p1 h1 p2 h2 p3 h3, kmalloc A pool fuel h 64 = some (p1, h1) ∧ p1 ≠ 0 ∧
    kmalloc A pool fuel h1 256 = some (p2, h2) ∧ p2 ≠ 0 ∧
    krealloc A pool fuel (fillBlock (fillBlock h2 p1 0xAA 64) p2 0xBB 256) p2 512 = some (p3, h3) ∧
    p3 ≠ 0

/-! ## `memory_smoke_test` -/

/-- `memory_smoke_test`: the text of its panic, or the heap after it. -/
def memorySmokeTest (fuel : Nat) (h : Heap σ) : Option (Except String (Heap σ)) :=
  (kmalloc A pool fuel h 16).bind fun (a, h) =>
  (kmalloc A pool fuel h 4096).bind fun (b, h) =>
  (kmalloc A pool fuel h 8192).bind fun (c, h) =>
  if a = 0 ∨ b = 0 ∨ c = 0 then some (.error "memory smoke: allocation failed")
  else
    let h := fillBlock (fillBlock (fillBlock h a 0x11 1) b 0x22 1) c 0x33 1
    let h := kfree h b
    (kmalloc A pool fuel h 4096).map fun (d, h) =>
      if d = 0 then .error "memory smoke: realloc alloc failed"
      else
        let h := fillBlock h d 0x44 1
        if a = c ∨ a = d ∨ c = d then .error "memory smoke: overlap detected"
        else .ok (kfree (kfree (kfree h a) c) d)

end Programs

/-! ## Steps -/

theorem mem_allocated {own : List (Nat × Nat)} {p size : Nat} (hp : p ≠ 0) :
    (p, size) ∈ allocated own p size := by
  rw [allocated, if_neg hp]
  exact List.mem_cons_self

theorem mem_allocated_of_mem {own : List (Nat × Nat)} {p size : Nat} {y : Nat × Nat}
    (hy : y ∈ own) : y ∈ allocated own p size := by
  unfold allocated
  split
  · exact hy
  · exact List.mem_cons_of_mem _ hy

theorem TestLog.expect_failures {log : TestLog} {cond : Bool} {msg : String} :
    (log.expect cond msg).failures = 0 ↔ cond = true ∧ log.failures = 0 := by
  unfold expect
  cases cond with
  | true => simp [ok]
  | false => simp [fail]

section Steps

variable {σ : Type} {A : FrameAllocator σ} {boot : Boot σ} {h₀ h h' : Heap σ} {fuel : Nat}
  {older own : List (Nat × Nat)}

/-- A heap between two calls of a test: what was live at its start, with the bytes it had,
and the test's own pointers. -/
structure Testing (A : FrameAllocator σ) (boot : Boot σ) (h₀ : Heap σ) (older : List (Nat × Nat))
    (h : Heap σ) (own : List (Nat × Nat)) : Prop where
  reach : HeapReach A boot kheapMaxSize h (own ++ older)
  run : OwnRun A boot.pool kheapMaxSize h₀ older h own
  kept : ∀ y ∈ older, BlockKept h₀ h y.1

theorem Testing.start (hreach : HeapReach A boot kheapMaxSize h₀ older) :
    Testing A boot h₀ older h₀ [] := by
  refine ⟨hreach, .start, fun y hy => ?_⟩
  obtain ⟨cells, hok, hcov⟩ := hreach.inv (by decide)
  obtain ⟨s, hs, -⟩ := hcov.payload y hy
  obtain ⟨honList, hused, -⟩ := hok.payload_block hs
  exact ⟨honList, hused, rfl, fun _ _ => rfl⟩

/-- What `heap.c` keeps of the blocks. -/
theorem Testing.data (ht : Testing A boot h₀ older h own) :
    PreservesData A boot.pool h (own ++ older) := by
  obtain ⟨cells, hok, hcov⟩ := ht.reach.inv (by decide)
  exact preservesData_of_ok hok hcov

/-- The pointers of a test are distinct. -/
theorem Testing.nodup (ht : Testing A boot h₀ older h own) :
    (own.map Prod.fst ++ older.map Prod.fst).Nodup := by
  obtain ⟨cells, -, hcov⟩ := ht.reach.inv (by decide)
  rw [← List.map_append]
  exact hcov.nodup

/-- A test has other pointers than those that were live before. -/
theorem Testing.ne (ht : Testing A boot h₀ older h own) {x y : Nat × Nat} (hx : x ∈ own)
    (hy : y ∈ older) : y.1 ≠ x.1 := fun heq =>
  List.disjoint_of_nodup_append ht.nodup (List.mem_map_of_mem hx) (heq ▸ List.mem_map_of_mem hy)

theorem Testing.kmalloc (ht : Testing A boot h₀ older h own) {size p : Nat}
    (hsize : size ≤ kheapMaxSize) (hrun : kmalloc A boot.pool fuel h size = some (p, h')) :
    Testing A boot h₀ older h' (allocated own p size) := by
  have hreach := ht.reach.kmalloc hsize hrun
  have happend : allocated (own ++ older) p size = allocated own p size ++ older := by
    unfold allocated
    split <;> rfl
  rw [happend] at hreach
  exact ⟨hreach, ht.run.kmalloc hsize hrun, fun y hy => (ht.kept y hy).trans
    (ht.data.kmalloc_frame fuel size p h' hsize hrun y (List.mem_append_right own hy))⟩

theorem Testing.kmalloc_some (ht : Testing A boot h₀ older h own) {size p : Nat}
    (hsize : size ≤ kheapMaxSize) (hrun : Kheap.kmalloc A boot.pool fuel h size = some (p, h'))
    (hp : p ≠ 0) : Testing A boot h₀ older h' ((p, size) :: own) := by
  have ht' := ht.kmalloc hsize hrun
  rwa [allocated, if_neg hp] at ht'

/-- A block has the bytes that were asked for. -/
theorem Testing.size_le (ht : Testing A boot h₀ older h own) {p size : Nat}
    (hmem : (p, size) ∈ own) : size ≤ blockSize h p :=
  ((heapIntegrity_of_inv (ht.reach.inv (by decide))).live_block _
    (List.mem_append_left older hmem)).2.2

/-- A store inside a block of the test changes no other block. -/
theorem Testing.store (ht : Testing A boot h₀ older h own) {x : Nat × Nat} (hmem : x ∈ own)
    {m : Lib.Mem} (hm : ∀ a, a < x.1 ∨ x.1 + x.2 ≤ a → m a = h.mem a) :
    Testing A boot h₀ older { h with mem := m } own := by
  have hlive : x ∈ own ++ older := List.mem_append_left older hmem
  have hsize : x.2 ≤ blockSize h x.1 := ht.size_le hmem
  refine ⟨ht.reach.store hlive hm, ht.run.store hlive fun a ha => hm a (by omega),
    fun y hy => (ht.kept y hy).trans ?_⟩
  obtain ⟨cells, hok, hcov⟩ := ht.reach.inv (by decide)
  have hapart : x.1 + blockSize h x.1 ≤ y.1 ∨ y.1 + blockSize h y.1 ≤ x.1 :=
    (List.pairwise_append.mp (heapIntegrity_of_inv ⟨cells, hok, hcov⟩).live_disjoint).2.2 x hmem
      y hy
  obtain ⟨t, ht', -⟩ := hcov.payload x hlive
  have hok' : HeapOk boot.pool { h with mem := m } cells := hok.writes fun a ha => by
    have hout := ha _ ht'
    rw [← (hok.payload_block ht').2.2] at hout
    exact hm a (by omega)
  obtain ⟨s, hs, -⟩ := hcov.payload y (List.mem_append_right own hy)
  obtain ⟨honList, hused, hblock⟩ := hok'.payload_block hs
  rw [← (hok.payload_block hs).2.2] at hblock
  exact ⟨honList, hused, hblock, fun i hi => hm _ (by omega)⟩

/-- A fill of what was asked for stays inside the block. -/
theorem Testing.fill (ht : Testing A boot h₀ older h own) {p size n : Nat} {c : UInt8}
    (hmem : p ≠ 0 → (p, size) ∈ own) (hn : n ≤ size) :
    Testing A boot h₀ older (fillBlock h p c n) own := by
  by_cases hp : p = 0
  · rwa [fillBlock, if_neg (not_not.mpr hp)]
  rw [fillBlock, if_pos hp]
  refine ht.store (hmem hp) fun a ha => ?_
  simp only at ha
  rw [memset_apply, if_neg (by omega)]

theorem Testing.kfree (ht : Testing A boot h₀ older h own) {x : Nat × Nat} (hmem : x ∈ own) :
    Testing A boot h₀ older (kfree h x.1) (own.erase x) := by
  have hlive : x ∈ own ++ older := List.mem_append_left older hmem
  have hreach := ht.reach.kfree hlive
  rw [List.erase_append_left _ hmem] at hreach
  exact ⟨hreach, ht.run.kfree hmem, fun y hy => (ht.kept y hy).trans
    (ht.data.kfree_frame x hlive y (List.mem_append_right own hy) (ht.ne hmem hy))⟩

/-- A freed block can be allocated again. -/
theorem Testing.reuse_settles (ht : Testing A boot h₀ older h own) {x : Nat × Nat}
    (hmem : x ∈ own) (hpos : 0 < x.2) : ∃ p h' least, p ≠ 0 ∧
      ∀ fuel ≥ least, Kheap.kmalloc A boot.pool fuel (Kheap.kfree h x.1) x.2 = some (p, h') := by
  obtain ⟨cells, hok, hcov, hcoal⟩ := ht.reach.cells (by decide)
  obtain ⟨s, hs, hle⟩ := hcov.payload x (List.mem_append_left older hmem)
  obtain ⟨cells', hok', hfits⟩ := kfree_fits hok hcoal hs hle
  obtain ⟨p, m, hrun, hp⟩ := @HeapOk.kmalloc_fits _ A _ _ _ hok' _ _ hpos hfits
    (Nat.lt_succ_self cells'.length)
  exact ⟨p, _, _, hp, fun fuel hfuel => kmalloc_mono _ _ _ fuel _ hfuel hrun⟩

/-- A test that has freed all it allocated gives the heap back. -/
theorem Testing.balanced (ht : Testing A boot h₀ older h [])
    (hreach : HeapReach A boot kheapMaxSize h₀ older) :
    GivenBack A boot h₀ older h ∧ FreeBytesLe h₀ h :=
  ⟨⟨ht.reach, (ht.run.sameButTail hreach).1, ht.kept⟩, (ht.run.sameButTail hreach).2⟩

/-- The fill of a block that is moved is in the new block. -/
theorem Testing.moved (ht : Testing A boot h₀ older h own) {p q size n : Nat} {c : UInt8}
    (hmem : (p, size) ∈ own) (hp : p ≠ 0) (hle : size ≤ n) (hn : n ≤ kheapMaxSize)
    (hpos : 0 < size)
    (hrun : krealloc A boot.pool fuel (fillBlock h p c size) p n = some (q, h')) (hq : q ≠ 0) :
    Testing A boot h₀ older h' ((q, n) :: own.erase (p, size)) ∧
      ∀ i < size, h'.mem (q + i) = c := by
  have hfill := ht.fill (c := c) (fun _ => hmem) le_rfl
  have hlive : (p, size) ∈ own ++ older := List.mem_append_left _ hmem
  have hblock := hfill.size_le hmem
  have hreach := hfill.reach.krealloc hlive hn hrun
  have hown := hfill.run.krealloc hmem hn hrun
  rw [reallocated, if_neg (by omega), if_neg hq] at hreach hown
  rw [List.erase_append_left _ hmem] at hreach
  refine ⟨⟨hreach, hown, fun y hy => (hfill.kept y hy).trans (hfill.data.krealloc_frame _ hlive
    fuel n q h' hn hrun y (List.mem_append_right own hy) (hfill.ne hmem hy))⟩, fun i hi => ?_⟩
  have hin : i < min (blockSize (fillBlock h p c size) p) n := by omega
  have hbyte : h'.mem (q + i) = (fillBlock h p c size).mem (p + i) :=
    hfill.data.moved _ hlive fuel n q h' hn hrun hq i hin
  rw [hbyte, fillBlock, if_pos hp]
  simp only
  rw [memset_apply, if_pos (by omega)]

/-- `kfree` of what an allocation returned, be it null. -/
theorem Testing.kfree_returned (ht : Testing A boot h₀ older h own) {p size : Nat}
    (hmem : p ≠ 0 → (p, size) ∈ own) : ∃ own', Testing A boot h₀ older (Kheap.kfree h p) own' ∧
      ∀ y ∈ own, y ≠ (p, size) → y ∈ own' := by
  by_cases hp : p = 0
  · subst hp
    exact ⟨own, ⟨ht.reach.kfreeNull, ht.run.kfreeNull, fun y hy => (ht.kept y hy).trans
      (ht.data.kfreeNull_frame y (List.mem_append_right own hy))⟩, fun y hy _ => hy⟩
  · exact ⟨_, ht.kfree (hmem hp), fun y hy hne => (List.mem_erase_of_ne hne).mpr hy⟩

/-- `krealloc` of what an allocation returned, be it null. -/
theorem Testing.krealloc_returned (ht : Testing A boot h₀ older h own) {p size n q : Nat}
    (hmem : p ≠ 0 → (p, size) ∈ own) (hn : n ≤ kheapMaxSize) (hpos : n ≠ 0)
    (hrun : krealloc A boot.pool fuel h p n = some (q, h')) :
    ∃ own', Testing A boot h₀ older h' own' ∧ (q ≠ 0 → (q, n) ∈ own') ∧
      ∀ y ∈ own, y ≠ (p, size) → y ∈ own' := by
  by_cases hp : p = 0
  · rw [hp, krealloc, if_pos rfl] at hrun
    exact ⟨_, ht.kmalloc hn hrun, mem_allocated, fun y hy _ => mem_allocated_of_mem hy⟩
  have hreach := ht.reach.krealloc (List.mem_append_left older (hmem hp)) hn hrun
  have hown := ht.run.krealloc (hmem hp) hn hrun
  have hkept : ∀ y ∈ older, BlockKept h₀ h' y.1 := fun y hy =>
    (ht.kept y hy).trans (ht.data.krealloc_frame _ (List.mem_append_left older (hmem hp)) fuel n q
      h' hn hrun y (List.mem_append_right own hy) (ht.ne (hmem hp) hy))
  rw [reallocated, if_neg hpos] at hreach hown
  by_cases hq : q = 0
  · rw [if_pos hq] at hreach hown
    exact ⟨own, ⟨hreach, hown, hkept⟩, fun hne => absurd hq hne, fun y hy _ => hy⟩
  · rw [if_neg hq] at hreach hown
    rw [List.erase_append_left _ (hmem hp)] at hreach
    exact ⟨_, ⟨hreach, hown, hkept⟩, fun _ => List.mem_cons_self,
      fun y hy hne => List.mem_cons_of_mem _ ((List.mem_erase_of_ne hne).mpr hy)⟩

/-! ## The calls return -/

/-- `kmalloc` returns with enough rounds, and what it returns depends on no more. -/
theorem Testing.kmalloc_settles (ht : Testing A boot h₀ older h own) {size : Nat}
    (hsize : size ≤ kheapMaxSize) :
    TablesRunOut A boot ∨
      ∃ r least, ∀ fuel ≥ least, Kheap.kmalloc A boot.pool fuel h size = some r := by
  obtain ⟨cells, hok, -⟩ := ht.reach.cells (by decide)
  rcases @HeapOk.kmalloc_returns _ A _ _ _ hok size hsize with ⟨rounds, hnone⟩ | hret
  · exact Or.inl ⟨h, own ++ older, rounds, ht.reach, hnone⟩
  · exact Or.inr ((kmalloc_mono h size).settles hret)

theorem Testing.krealloc_settles (ht : Testing A boot h₀ older h own) {size : Nat} (p : Nat)
    (hsize : size ≤ kheapMaxSize) :
    TablesRunOut A boot ∨
      ∃ r least, ∀ fuel ≥ least, krealloc A boot.pool fuel h p size = some r := by
  obtain ⟨cells, hok, -⟩ := ht.reach.cells (by decide)
  rcases @HeapOk.kmalloc_returns _ A _ _ _ hok size hsize with ⟨rounds, hnone⟩ | hret
  · exact Or.inl ⟨h, own ++ older, rounds, ht.reach, hnone⟩
  · exact Or.inr ((krealloc_mono h p size).settles (krealloc_returns p hret))

theorem Testing.stats_settle (ht : Testing A boot h₀ older h own) :
    ∃ st least, ∀ fuel ≥ least, heapGetStats fuel h = some st := by
  obtain ⟨cells, hok, -⟩ := ht.reach.cells (by decide)
  obtain ⟨st, hst, -⟩ := hok.stats _ (Nat.lt_succ_self cells.length)
  exact (heapGetStats_mono h).settles ⟨_, st, hst⟩

theorem appHeapTestMain_settles (hreach : HeapReach A boot kheapMaxSize h₀ older) :
    TablesRunOut A boot ∨
      ∃ r least, ∀ fuel ≥ least, appHeapTestMain A boot.pool fuel h₀ = some r := by
  have ht0 := Testing.start hreach
  obtain ⟨before, n0, hbefore⟩ := ht0.stats_settle
  rcases ht0.kmalloc_settles (show 64 ≤ _ by decide) with hout | ⟨⟨p1, h1⟩, n1, hk1⟩
  · exact Or.inl hout
  have ht1 := ht0.kmalloc (by decide) (hk1 n1 le_rfl)
  rcases ht1.kmalloc_settles (show 256 ≤ _ by decide) with hout | ⟨⟨p2, h2⟩, n2, hk2⟩
  · exact Or.inl hout
  have ht2 := ht1.kmalloc (by decide) (hk2 n2 le_rfl)
  have hmem1 : p1 ≠ 0 → (p1, 64) ∈ allocated (allocated [] p1 64) p2 256 := fun hp1 =>
    mem_allocated_of_mem (mem_allocated hp1)
  have hfill := (ht2.fill (c := 0xAA) hmem1 le_rfl).fill (c := 0xBB) mem_allocated le_rfl
  rcases hfill.krealloc_settles p2 (show 512 ≤ _ by decide) with hout | ⟨⟨p3, h3⟩, n3, hk3⟩
  · exact Or.inl hout
  obtain ⟨own3, ht3, hmem3, hkept⟩ :=
    hfill.krealloc_returned mem_allocated (by decide) (by decide) (hk3 n3 le_rfl)
  have hmem1' : p1 ≠ 0 → (p1, 64) ∈ own3 := fun hp1 => hkept _ (hmem1 hp1) (by simp)
  obtain ⟨own4, ht4, hkept'⟩ := ht3.kfree_returned hmem1'
  have hmem3' : p3 ≠ 0 → (p3, 512) ∈ own4 := fun hp3 => hkept' _ (hmem3 hp3) (by simp)
  obtain ⟨own5, ht5, -⟩ := ht4.kfree_returned hmem3'
  obtain ⟨after, n4, hafter⟩ := ht5.stats_settle
  exact Or.inr ⟨_, n0 + n1 + n2 + n3 + n4, fun fuel hfuel =>
    Option.bind_eq_some_iff.mpr ⟨before, hbefore fuel (by omega),
      Option.bind_eq_some_iff.mpr ⟨(p1, h1), hk1 fuel (by omega),
        Option.bind_eq_some_iff.mpr ⟨(p2, h2), hk2 fuel (by omega),
          Option.bind_eq_some_iff.mpr ⟨(p3, h3), hk3 fuel (by omega),
            Option.map_eq_some_iff.mpr ⟨after, hafter fuel (by omega), rfl⟩⟩⟩⟩⟩⟩

theorem memorySmokeTest_mono (h : Heap σ) :
    FuelMono fun fuel => memorySmokeTest A boot.pool fuel h := by
  unfold memorySmokeTest
  refine (kmalloc_mono _ _).bind fun _ => (kmalloc_mono _ _).bind fun _ =>
    (kmalloc_mono _ _).bind fun r => ?_
  intro n k result hle hrun
  simp only at hrun ⊢
  split at hrun
  · rename_i hnull
    rwa [if_pos hnull]
  · rename_i hsome
    rw [if_neg hsome]
    exact (kmalloc_mono _ _).map _ n k result hle hrun

/-- With its first three allocations the smoke test passes: the fourth gets the freed block,
no two blocks are one, and all of them are freed. -/
theorem smoke_after_allocations (hreach : HeapReach A boot kheapMaxSize h₀ older) {a b c : Nat}
    {h1 h2 h3 : Heap σ} (hka : Kheap.kmalloc A boot.pool fuel h₀ 16 = some (a, h1)) (ha : a ≠ 0)
    (hkb : Kheap.kmalloc A boot.pool fuel h1 4096 = some (b, h2)) (hb : b ≠ 0)
    (hkc : Kheap.kmalloc A boot.pool fuel h2 8192 = some (c, h3)) (hc : c ≠ 0) :
    ∃ h' least, GivenBack A boot h₀ older h' ∧
      ∀ k ≥ least, memorySmokeTest A boot.pool k h₀ = some (.ok h') := by
  have ht1 := (Testing.start hreach).kmalloc_some (by decide) hka ha
  have ht2 := (ht1.kmalloc_some (by decide) hkb hb).kmalloc_some (by decide) hkc hc
  have hfillA := ht2.fill (c := 0x11) (n := 1) (fun _ => show (a, 16) ∈ _ by simp) (by decide)
  have hfillB := hfillA.fill (c := 0x22) (n := 1) (fun _ => show (b, 4096) ∈ _ by simp)
    (by decide)
  have hfill := hfillB.fill (c := 0x33) (n := 1) (fun _ => show (c, 8192) ∈ _ by simp)
    (by decide)
  have hfreed := hfill.kfree (x := (b, 4096)) (by simp)
  obtain ⟨d, h4, least, hd, hkd⟩ :=
    hfill.reuse_settles (show (b, 4096) ∈ _ by simp) (Nat.succ_pos 4095)
  have ht3 := hfreed.kmalloc_some (show 4096 ≤ _ by decide) (hkd least le_rfl) hd
  have ht4 := ht3.fill (c := 0x44) (n := 1) (fun _ => show (d, 4096) ∈ _ by simp) (by decide)
  have hapart : ¬ (a = c ∨ a = d ∨ c = d) := by
    have hnodup : [d, c, a].Nodup := by simpa using ht4.nodup.of_append_left
    simp only [List.nodup_cons, List.mem_cons, List.not_mem_nil, or_false, not_or] at hnodup
    obtain ⟨⟨hdc, hda⟩, hca, -⟩ := hnodup
    rintro (rfl | rfl | rfl)
    · exact hca rfl
    · exact hda rfl
    · exact hdc rfl
  have ht5 := ((ht4.kfree (x := (a, 16)) (by simp)).kfree (x := (c, 8192)) (by simp)).kfree
    (x := (d, 4096)) (by simp)
  obtain ⟨hback, -⟩ := Testing.balanced (by simpa using ht5) hreach
  refine ⟨_, max fuel least, hback, fun k hk => ?_⟩
  have hfuel : fuel ≤ k := (le_max_left fuel least).trans hk
  refine Option.bind_eq_some_iff.mpr ⟨(a, h1), kmalloc_mono _ _ _ k _ hfuel hka,
    Option.bind_eq_some_iff.mpr ⟨(b, h2), kmalloc_mono _ _ _ k _ hfuel hkb,
      Option.bind_eq_some_iff.mpr ⟨(c, h3), kmalloc_mono _ _ _ k _ hfuel hkc, ?_⟩⟩⟩
  simp only
  rw [if_neg (by simp [ha, hb, hc]), hkd k ((le_max_right fuel least).trans hk), Option.map_some,
    if_neg hd, if_neg hapart]

theorem memorySmokeTest_settles (hreach : HeapReach A boot kheapMaxSize h₀ older) :
    TablesRunOut A boot ∨
      ∃ r least, ∀ fuel ≥ least, memorySmokeTest A boot.pool fuel h₀ = some r := by
  have ht0 := Testing.start hreach
  rcases ht0.kmalloc_settles (show 16 ≤ _ by decide) with hout | ⟨⟨a, h1⟩, n1, hka⟩
  · exact Or.inl hout
  have ht1 := ht0.kmalloc (by decide) (hka n1 le_rfl)
  rcases ht1.kmalloc_settles (show 4096 ≤ _ by decide) with hout | ⟨⟨b, h2⟩, n2, hkb⟩
  · exact Or.inl hout
  have ht2 := ht1.kmalloc (by decide) (hkb n2 le_rfl)
  rcases ht2.kmalloc_settles (show 8192 ≤ _ by decide) with hout | ⟨⟨c, h3⟩, n3, hkc⟩
  · exact Or.inl hout
  by_cases hnull : a = 0 ∨ b = 0 ∨ c = 0
  · exact Or.inr ⟨_, n1 + n2 + n3, fun fuel hfuel =>
      Option.bind_eq_some_iff.mpr ⟨(a, h1), hka fuel (by omega),
        Option.bind_eq_some_iff.mpr ⟨(b, h2), hkb fuel (by omega),
          Option.bind_eq_some_iff.mpr ⟨(c, h3), hkc fuel (by omega), if_pos hnull⟩⟩⟩⟩
  · rw [not_or, not_or] at hnull
    obtain ⟨h', least, -, hrun⟩ := smoke_after_allocations hreach
      (hka (n1 + n2 + n3) (by omega)) hnull.1 (hkb (n1 + n2 + n3) (by omega)) hnull.2.1
      (hkc (n1 + n2 + n3) (by omega)) hnull.2.2
    exact Or.inr ⟨.ok h', least, hrun⟩

/-! ## What a run does -/

/-- What two calls of `heap_get_stats` report of heaps of which the second has more. -/
theorem stats_le (hle : FreeBytesLe h h') {st st' : HeapStats}
    (hst : heapGetStats fuel h = some st) (hst' : heapGetStats fuel h' = some st') :
    st.freeBytes ≤ st'.freeBytes := by
  obtain ⟨least, hstats⟩ := hle
  obtain ⟨s, s', hs, hs', hbytes⟩ := hstats least le_rfl
  rwa [(heapGetStats_mono h).unique hst hs, (heapGetStats_mono h').unique hst' hs']

/-- What the allocations of the test lead to. -/
theorem allocations_lead (hreach : HeapReach A boot kheapMaxSize h₀ older) {p1 p2 p3 : Nat}
    {h1 h2 h3 : Heap σ} (hk1 : Kheap.kmalloc A boot.pool fuel h₀ 64 = some (p1, h1)) (hp1 : p1 ≠ 0)
    (hk2 : Kheap.kmalloc A boot.pool fuel h1 256 = some (p2, h2)) (hp2 : p2 ≠ 0)
    (hk3 : krealloc A boot.pool fuel (fillBlock (fillBlock h2 p1 0xAA 64) p2 0xBB 256) p2 512
      = some (p3, h3)) (hp3 : p3 ≠ 0) :
    (∀ i < 256, h3.mem (p3 + i) = 0xBB) ∧
      Testing A boot h₀ older (Kheap.kfree (Kheap.kfree h3 p1) p3) [] := by
  have ht1 := (Testing.start hreach).kmalloc_some (by decide) hk1 hp1
  have ht2 := ht1.kmalloc_some (by decide) hk2 hp2
  have hfill := ht2.fill (c := 0xAA) (fun _ => show (p1, 64) ∈ _ by simp) le_rfl
  obtain ⟨ht3, hbytes⟩ := hfill.moved List.mem_cons_self hp2 (by decide) (by decide) (by decide)
    hk3 hp3
  refine ⟨hbytes, ?_⟩
  have ht4 := ht3.kfree (x := (p1, 64)) (by simp)
  have ht5 := ht4.kfree (x := (p3, 512)) (by simp)
  simpa using ht5

end Steps

/-! ## The tests -/

section Tests

variable {σ : Type} {A : FrameAllocator σ} {boot : Boot σ} {h h' : Heap σ} {fuel : Nat}
  {live : List (Nat × Nat)}

/-- **The self test.** In every reachable heap `heap_test` returns, where the page tables
suffice (as they do without a framebuffer, `tables_suffice`). A run passes exactly if its
allocations succeed, and then it leaves the heap as it was, the free space at the end apart. -/
theorem heap_test_passes_iff (hreach : HeapReach A boot kheapMaxSize h live) :
    (TablesRunOut A boot ∨
      ∃ r least, ∀ fuel ≥ least, appHeapTestMain A boot.pool fuel h = some r) ∧
    ∀ fuel log h', appHeapTestMain A boot.pool fuel h = some (log, h') →
      (log.failures = 0 ↔ HeapTestServed A boot.pool fuel h) ∧
        (log.failures = 0 → GivenBack A boot h live h') := by
  refine ⟨appHeapTestMain_settles hreach, fun fuel log h' hrun => ?_⟩
  obtain ⟨before, hbefore, hrun⟩ := Option.bind_eq_some_iff.mp hrun
  obtain ⟨⟨p1, h1⟩, hk1, hrun⟩ := Option.bind_eq_some_iff.mp hrun
  obtain ⟨⟨p2, h2⟩, hk2, hrun⟩ := Option.bind_eq_some_iff.mp hrun
  obtain ⟨⟨p3, h3⟩, hk3, hrun⟩ := Option.bind_eq_some_iff.mp hrun
  obtain ⟨after, hafter, hrun⟩ := Option.map_eq_some_iff.mp hrun
  obtain ⟨rfl, rfl⟩ := Prod.mk.inj hrun
  simp only at hk2 hk3 hafter ⊢
  by_cases hall : p1 ≠ 0 ∧ p2 ≠ 0 ∧ p3 ≠ 0
  · obtain ⟨hp1, hp2, hp3⟩ := hall
    obtain ⟨hbytes, htest⟩ := allocations_lead hreach hk1 hp1 hk2 hp2 hk3 hp3
    obtain ⟨hback, hfree⟩ := htest.balanced hreach
    have hfirst : h3.mem p3 = 0xBB := hbytes 0 (by decide)
    have hdata : h3.mem (p3 + 10) = 0xBB := hbytes 10 (by decide)
    have hmore := stats_le hfree hbefore hafter
    refine ⟨iff_of_true ?_
      ⟨p1, h1, p2, h2, p3, h3, hk1, hp1, hk2, hp2, hk3, hp3⟩, fun _ => hback⟩
    simp only [if_pos hp3, TestLog.expect_failures, decide_eq_true_eq]
    exact ⟨hmore, hdata, hfirst, hp3, hp2, hp1, trivial⟩
  · -- a null pointer is a failure
    have hnot : ¬ HeapTestServed A boot.pool fuel h := by
      rintro ⟨q1, g1, q2, g2, q3, g3, hq1, hp1, hq2, hp2, hq3, hp3⟩
      obtain ⟨rfl, rfl⟩ := Prod.mk.inj (Option.some.inj (hk1.symm.trans hq1))
      obtain ⟨rfl, rfl⟩ := Prod.mk.inj (Option.some.inj (hk2.symm.trans hq2))
      obtain ⟨rfl, rfl⟩ := Prod.mk.inj (Option.some.inj (hk3.symm.trans hq3))
      exact hall ⟨hp1, hp2, hp3⟩
    refine ⟨iff_of_false ?fails hnot, fun hzero => absurd hzero ?fails⟩
    intro hzero
    simp only [TestLog.expect_failures, decide_eq_true_eq] at hzero
    obtain ⟨-, hzero⟩ := hzero
    split at hzero
    · simp only [TestLog.expect_failures, decide_eq_true_eq] at hzero
      exact hall ⟨hzero.2.2.2.2.1, hzero.2.2.2.1, hzero.2.2.1⟩
    · simp only [TestLog.expect_failures, decide_eq_true_eq] at hzero
      exact hall ⟨hzero.2.2.1, hzero.2.1, hzero.1⟩

set_option maxRecDepth 20000 in
/-- The self test right after boot. -/
theorem heap_test_passes_iff_example : ∃ log h',
    appHeapTestMain bumpAllocator exampleBoot.pool 8 exampleHeap = some (log, h') ∧
      log.failures = 0 ∧ GivenBack bumpAllocator exampleBoot exampleHeap [] h' := by
  have hstart : HeapReach bumpAllocator exampleBoot kheapMaxSize exampleHeap [] :=
    HeapReach.start (Option.some_get _).symm
  have hpass : (appHeapTestMain bumpAllocator exampleBoot.pool 8 exampleHeap).map
      (·.1.failures) = some 0 := by
    decide +kernel
  obtain ⟨⟨log, h'⟩, hrun, hzero⟩ := Option.map_eq_some_iff.mp hpass
  exact ⟨log, h', hrun, hzero, ((heap_test_passes_iff hstart).2 8 log h' hrun).2 hzero⟩

/-- **The smoke test.** In every reachable heap `memory_smoke_test` returns, where the page
tables suffice; it panics only where one of its first three allocations fails, since the
fourth gets the freed block, and no two blocks are one. Else it leaves the heap as it was,
the free space at the end apart. -/
theorem smoke_test_passes (hreach : HeapReach A boot kheapMaxSize h live) :
    (TablesRunOut A boot ∨
      ∃ r least, ∀ fuel ≥ least, memorySmokeTest A boot.pool fuel h = some r) ∧
    ∀ fuel result, memorySmokeTest A boot.pool fuel h = some result →
      result = .error "memory smoke: allocation failed" ∨
        ∃ h', result = .ok h' ∧ GivenBack A boot h live h' := by
  refine ⟨memorySmokeTest_settles hreach, fun fuel result hrun => ?_⟩
  obtain ⟨⟨a, h1⟩, hka, hcont⟩ := Option.bind_eq_some_iff.mp hrun
  obtain ⟨⟨b, h2⟩, hkb, hcont⟩ := Option.bind_eq_some_iff.mp hcont
  obtain ⟨⟨c, h3⟩, hkc, hcont⟩ := Option.bind_eq_some_iff.mp hcont
  simp only at hkb hkc hcont
  split at hcont
  · exact Or.inl (Option.some.inj hcont).symm
  · rename_i hsome
    rw [not_or, not_or] at hsome
    obtain ⟨h', least, hback, hpass⟩ :=
      smoke_after_allocations hreach hka hsome.1 hkb hsome.2.1 hkc hsome.2.2
    exact Or.inr ⟨h', (memorySmokeTest_mono h).unique hrun (hpass least le_rfl), hback⟩

set_option maxRecDepth 20000 in
/-- The smoke test right after boot. -/
theorem smoke_test_passes_example : ∃ h',
    memorySmokeTest bumpAllocator exampleBoot.pool 8 exampleHeap = some (.ok h') ∧
      GivenBack bumpAllocator exampleBoot exampleHeap [] h' := by
  have hstart : HeapReach bumpAllocator exampleBoot kheapMaxSize exampleHeap [] :=
    HeapReach.start (Option.some_get _).symm
  have hpass : (memorySmokeTest bumpAllocator exampleBoot.pool 8 exampleHeap).map
      Except.toBool = some true := by
    decide +kernel
  obtain ⟨result, hrun, hok⟩ := Option.map_eq_some_iff.mp hpass
  rcases (smoke_test_passes hstart).2 8 result hrun with rfl | ⟨h', rfl, hback⟩
  · exact absurd hok Bool.false_ne_true
  · exact ⟨h', hrun, hback⟩

/-- **The smoke test at boot.** Right after `heap_init`, where `kmain` runs it,
`memory_smoke_test` always passes, with any frame allocator: its blocks fit in the first
pages of the heap. -/
theorem smoke_test_at_boot (hheap : boot.heap A = some h) : ∃ h' least,
    (∀ fuel ≥ least, memorySmokeTest A boot.pool fuel h = some (.ok h')) ∧
      GivenBack A boot h [] h' := by
  have hok : HeapOk boot.pool h ([] ++ [⟨heapInitialPages * 4096 - 16, true⟩]) :=
    (Boot.heap_ok hheap).1
  obtain ⟨m1, hka, hok1⟩ :=
    @HeapOk.kmalloc_tail _ A _ _ _ _ 16 hok (by simp) (by decide) (by decide)
  obtain ⟨m2, hkb, hok2⟩ :=
    @HeapOk.kmalloc_tail _ A _ _ _ _ 4096 hok1 (by simp) (by decide) (by decide)
  obtain ⟨m3, hkc, -⟩ :=
    @HeapOk.kmalloc_tail _ A _ _ _ _ 8192 hok2 (by simp) (by decide) (by decide)
  obtain ⟨h', least, hback, hpass⟩ :=
    smoke_after_allocations (HeapReach.start hheap) (hka 4 (by decide)) (Nat.succ_ne_zero _)
      (hkb 4 (by decide)) (Nat.succ_ne_zero _) (hkc 4 (by decide)) (Nat.succ_ne_zero _)
  exact ⟨h', least, hpass, hback⟩

theorem smoke_test_at_boot_example : ∃ h' least,
    (∀ fuel ≥ least, memorySmokeTest bumpAllocator exampleBoot.pool fuel exampleHeap
      = some (.ok h')) ∧
      GivenBack bumpAllocator exampleBoot exampleHeap [] h' :=
  smoke_test_at_boot (Option.some_get _).symm

end Tests

end RoninOS.Apps
