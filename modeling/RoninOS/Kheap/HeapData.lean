/-
RoninOS.Kheap.HeapData — what the heap operations leave of the callers' data.

The headers lie between the payloads, and every store of `heap.c` is to one of
them; only the copy of `krealloc` goes to a payload, the new one. So the blocks
behind the other live pointers keep their bytes (`BlockKept`), whatever the
callers stored there.
-/
import RoninOS.Kheap.HeapRuns

namespace RoninOS.Kheap

open RoninOS.Lib RoninOS.Mem

/-- The block at `p` is in use after a call as it was before, with the same size
and bytes. -/
structure BlockKept {σ : Type} (h h' : Heap σ) (p : Nat) : Prop where
  onList : OnList h' (p - 16)
  used : (headerAt h'.mem (p - 16)).free = 0
  size_eq : blockSize h' p = blockSize h p
  bytes : ∀ i < blockSize h p, h'.mem (p + i) = h.mem (p + i)

theorem BlockKept.trans {σ : Type} {h h' h'' : Heap σ} {p : Nat} (hk : BlockKept h h' p)
    (hk' : BlockKept h' h'' p) : BlockKept h h'' p where
  onList := hk'.onList
  used := hk'.used
  size_eq := hk'.size_eq.trans hk.size_eq
  bytes i hi := (hk'.bytes i (hk.size_eq.symm ▸ hi)).trans (hk.bytes i hi)

/-- What the calls do to the data behind the live pointers. -/
structure PreservesData {σ : Type} (A : FrameAllocator σ) (pool : TablePool) (h : Heap σ)
    (live : List (Nat × Nat)) : Prop where
  moved : ∀ x ∈ live, ∀ fuel n q h', n ≤ kheapMaxSize →
    krealloc A pool fuel h x.1 n = some (q, h') → q ≠ 0 →
    ∀ i < min (blockSize h x.1) n, h'.mem (q + i) = h.mem (x.1 + i)
  refused : ∀ x ∈ live, ∀ fuel n h', n ≤ kheapMaxSize → 0 < n →
    krealloc A pool fuel h x.1 n = some (0, h') → BlockKept h h' x.1
  kmalloc_frame : ∀ fuel n p h', n ≤ kheapMaxSize → kmalloc A pool fuel h n = some (p, h') →
    ∀ y ∈ live, BlockKept h h' y.1
  kfree_frame : ∀ x ∈ live, ∀ y ∈ live, y.1 ≠ x.1 → BlockKept h (kfree h x.1) y.1
  kfreeNull_frame : ∀ y ∈ live, BlockKept h (kfree h 0) y.1
  krealloc_frame : ∀ x ∈ live, ∀ fuel n q h', n ≤ kheapMaxSize →
    krealloc A pool fuel h x.1 n = some (q, h') → ∀ y ∈ live, y.1 ≠ x.1 → BlockKept h h' y.1
  kreallocNull_frame : ∀ fuel n p h', n ≤ kheapMaxSize →
    krealloc A pool fuel h 0 n = some (p, h') → ∀ y ∈ live, BlockKept h h' y.1

section Data

variable {σ : Type} {A : FrameAllocator σ} {pool : TablePool} {h h' : Heap σ}
  {cells cells' : List Cell} {live : List (Nat × Nat)}

/-! ## Other payloads -/

theorem Allocates.mem {size p : Nat} {old new : List (Nat × Nat)} (halloc : Allocates size p old new)
    {y : Nat × Nat} (hy : y ∈ old) : y ∈ new := by
  rcases halloc with ⟨-, rfl⟩ | ⟨-, before, after, s, -, rfl, rfl⟩
  · exact hy
  · simp only [List.mem_append, List.mem_cons] at hy ⊢
    tauto

theorem Reallocates.mem {size p q : Nat} {old new : List (Nat × Nat)}
    (hre : Reallocates size p q old new) {y : Nat × Nat} (hy : y ∈ old) (hne : y.1 ≠ p) : y ∈ new := by
  rcases hre with ⟨-, -, hrel⟩ | ⟨-, -, rfl⟩ | ⟨-, -, -, -, rfl⟩ | ⟨-, -, mid, -, halloc, hrel⟩
  · exact hrel.mem hy hne
  · exact hy
  · exact hy
  · exact hrel.mem (halloc.mem hy) hne

/-! ## Blocks -/

/-- The block of a payload is on the list and in use. -/
theorem HeapOk.payload_block {p s : Nat} (hok : HeapOk pool h cells)
    (hmem : (p, s) ∈ payloads kheapBase cells) :
    OnList h (p - 16) ∧ (headerAt h.mem (p - 16)).free = 0 ∧ blockSize h p = s := by
  obtain ⟨pre, c, post, rfl, hfree, rfl, rfl⟩ := mem_payloads hmem
  rw [blockSize, blockOverhead, Nat.add_sub_cancel, hok.layout.headerAt_cell, hfree]
  exact ⟨hok.onList pre rfl, rfl, rfl⟩

/-- A payload of both states is a block kept. -/
theorem Evolves.kept {p s : Nat} (hev : Evolves h.mem h'.mem cells cells') (hok : HeapOk pool h cells)
    (hok' : HeapOk pool h' cells') (hmem : (p, s) ∈ payloads kheapBase cells)
    (hmem' : (p, s) ∈ payloads kheapBase cells') : BlockKept h h' p := by
  obtain ⟨-, -, hsize⟩ := hok.payload_block hmem
  obtain ⟨honList, hused, hsize'⟩ := hok'.payload_block hmem'
  refine ⟨honList, hused, by rw [hsize, hsize'], fun i hi => ?_⟩
  rw [hsize] at hi
  exact hev.same (p, s) hmem hmem' (p + i) (Nat.le_add_right _ _) (by simp only; omega)

/-- Writing inside payloads leaves the block list alone. -/
theorem HeapOk.writes {m : Mem} (hok : HeapOk pool h cells)
    (hm : ∀ a, (∀ y ∈ payloads kheapBase cells, a < y.1 ∨ y.1 + y.2 ≤ a) → m a = h.mem a) :
    HeapOk pool { h with mem := m } cells := by
  refine hok.withMem ⟨?_, hok.layout.aligned, hok.layout.base_aligned, hok.layout.base_pos,
    hok.layout.fits⟩ hok.nonempty hok.span_le
  refine hok.layout.linked.congr_cells fun pre c post hcut => headerAt_congr fun k hk => hm _ ?_
  intro y hy
  rcases payload_apart (p := y.1) (s := y.2) hy hcut with hbefore | hbehind | ⟨hin, -, -⟩ <;> omega

/-- The calls preserve the data of every state that satisfies the invariant. -/
theorem preservesData_of_ok (hok : HeapOk pool h cells) (hcov : Covers (payloads kheapBase cells) live) :
    PreservesData A pool h live := by
  have hbound : kheapMaxSize + 4111 < 2 ^ 32 := by decide
  have hpay : ∀ y ∈ live, ∃ s, (y.1, s) ∈ payloads kheapBase cells := fun y hy => by
    obtain ⟨s, hs, -⟩ := hcov.payload y hy
    exact ⟨s, hs⟩
  have hkmalloc : ∀ fuel n p h', n ≤ kheapMaxSize → kmalloc A pool fuel h n = some (p, h') →
      ∀ y ∈ live, BlockKept h h' y.1 := by
    intro fuel n p h' hn hrun y hy
    obtain ⟨s, hs⟩ := hpay y hy
    obtain ⟨cells', hok', halloc, hev⟩ := kmalloc_ok hok (by omega) hrun
    exact hev.kept hok hok' hs (halloc.mem hs)
  refine ⟨fun x hx fuel n q h' hn hrun hq => ?_, fun x hx fuel n h' hn hpos hrun => ?_, hkmalloc,
    fun x hx y hy hne => ?_, fun y hy => ?_, fun x hx fuel n q h' hn hrun y hy hne => ?_,
    fun fuel n p h' hn hrun => ?_⟩
  · obtain ⟨s, hs⟩ := hpay x hx
    obtain ⟨-, -, -, -, hcopy⟩ := krealloc_ok hok hs (by omega) hrun
    rw [(hok.payload_block hs).2.2]
    exact hcopy hq
  · obtain ⟨s, hs⟩ := hpay x hx
    obtain ⟨cells', hok', hre, hev, -⟩ := krealloc_ok hok hs (by omega) hrun
    -- a null result with a positive size leaves the blocks in use as they were
    have hsame : payloads kheapBase cells' = payloads kheapBase cells := by
      rcases hre with ⟨h0, -⟩ | ⟨-, -, hsame⟩ | ⟨-, hq, -⟩ | ⟨-, hq, -⟩
      · omega
      · exact hsame
      · exact absurd rfl hq
      · exact absurd rfl hq
    exact hev.kept hok hok' hs (hsame ▸ hs)
  · obtain ⟨s, hs⟩ := hpay x hx
    obtain ⟨t, ht⟩ := hpay y hy
    obtain ⟨cells', hok', hrel, hev⟩ := kfree_ok hok hs
    exact hev.kept hok hok' ht (hrel.mem ht hne)
  · obtain ⟨t, ht⟩ := hpay y hy
    rw [kfree, if_pos (Or.inr rfl)]
    exact (Evolves.refl h.mem cells).kept hok hok ht ht
  · obtain ⟨s, hs⟩ := hpay x hx
    obtain ⟨t, ht⟩ := hpay y hy
    obtain ⟨cells', hok', hre, hev, -⟩ := krealloc_ok hok hs (by omega) hrun
    exact hev.kept hok hok' ht (hre.mem ht hne)
  · rw [krealloc, if_pos rfl] at hrun
    exact hkmalloc fuel n p h' hn hrun

end Data

/-- In every reached state, with any bytes in the blocks behind the live pointers,
the calls preserve the data. -/
theorem heap_preserves_data {σ : Type} {A : FrameAllocator σ} {boot : Boot σ} {h : Heap σ}
    {live : List (Nat × Nat)} (hreach : HeapReach A boot kheapMaxSize h live) {m : Mem}
    (hm : ∀ a, (∀ y ∈ live, a < y.1 ∨ y.1 + blockSize h y.1 ≤ a) → m a = h.mem a) :
    PreservesData A boot.pool { h with mem := m } live := by
  obtain ⟨cells, hok, hcov⟩ := hreach.inv (by decide)
  refine preservesData_of_ok (hok.writes fun a ha => hm a fun y hy => ?_) hcov
  obtain ⟨s, hs, -⟩ := hcov.payload y hy
  rw [(hok.payload_block hs).2.2]
  exact ha _ hs

/-- Two live blocks, after an expansion and a merge, with the bytes of the second all 0xAA. -/
theorem heap_preserves_data_example : PreservesData bumpAllocator exampleBoot.pool
    { exampleReused.2 with mem := fun a =>
      if kheapBase + 368 ≤ a ∧ a < kheapBase + 20368 then 0xAA else exampleReused.2.mem a }
    [(kheapBase + 16, 50), (kheapBase + 368, 20000)] := by
  have hsize : blockSize exampleReused.2 (kheapBase + 368) = 20000 := by decide +kernel
  refine heap_preserves_data exampleReused_reach fun a ha => ?_
  have hout := ha (kheapBase + 368, 20000) (by decide)
  simp only [hsize] at hout
  rw [if_neg (by omega)]

end RoninOS.Kheap
