/-
RoninOS.Kheap.HeapRuns — the heap over whole runs.

`HeapReach` are the states that callers can reach who pass `kfree` and
`krealloc` only null or live pointers and store only inside what they asked
for; it keeps the live pointers with their requested sizes. The frame allocator
is any function, so it may fail at any call.

`RunInv` ties the live pointers to the blocks in use. `heap_integrity` reads
the invariant off in the terms of the C structures: `OnList` are the blocks a
walk along `next` from `g_head` meets.
-/
import RoninOS.Kheap.HeapTheorems
import RoninOS.Mem.PagingRuns
import Mathlib.Data.List.Nodup
import Mathlib.Data.List.Induction

namespace RoninOS.Kheap

open RoninOS.Lib RoninOS.Mem

/-! ## Boots and runs -/

/-- What `paging_init` and `heap_init` start from. -/
structure Boot (σ : Type) where
  pool : TablePool
  tables : Nat → Nat → Nat
  physLimit : Nat
  physLimit_le : physLimit ≤ pmmMaxPhysAddr
  framebuffer : Option Framebuffer
  mem : Mem
  frames : σ

section Runs

variable {σ : Type} (A : FrameAllocator σ) (boot : Boot σ)

/-- `paging_init` and then `heap_init`. -/
def Boot.heap : Option (Heap σ) :=
  (pagingInit boot.pool boot.tables boot.physLimit boot.framebuffer).bind fun paging =>
    heapInit A boot.pool boot.mem paging boot.frames

/-- The live pointers after an allocation of `size` bytes returned `p`. -/
def allocated (live : List (Nat × Nat)) (p size : Nat) : List (Nat × Nat) :=
  if p = 0 then live else (p, size) :: live

/-- The live pointers after `krealloc x.1 size` returned `q`. -/
def reallocated (live : List (Nat × Nat)) (x : Nat × Nat) (q size : Nat) : List (Nat × Nat) :=
  if size = 0 then live.erase x
  else if q = 0 then live
  else (q, size) :: live.erase x

/-- The states reached by calls with request sizes up to `bound`, with the live
pointers and their requested sizes. -/
inductive HeapReach (bound : Nat) : Heap σ → List (Nat × Nat) → Prop
  | start {h : Heap σ} : boot.heap A = some h → HeapReach bound h []
  | kmalloc {h h' : Heap σ} {live : List (Nat × Nat)} {fuel size p : Nat} :
      HeapReach bound h live → size ≤ bound →
      kmalloc A boot.pool fuel h size = some (p, h') →
      HeapReach bound h' (allocated live p size)
  | kfree {h : Heap σ} {live : List (Nat × Nat)} {x : Nat × Nat} :
      HeapReach bound h live → x ∈ live → HeapReach bound (kfree h x.1) (live.erase x)
  | kfreeNull {h : Heap σ} {live : List (Nat × Nat)} :
      HeapReach bound h live → HeapReach bound (kfree h 0) live
  | krealloc {h h' : Heap σ} {live : List (Nat × Nat)} {x : Nat × Nat} {fuel size q : Nat} :
      HeapReach bound h live → x ∈ live → size ≤ bound →
      krealloc A boot.pool fuel h x.1 size = some (q, h') →
      HeapReach bound h' (reallocated live x q size)
  | kreallocNull {h h' : Heap σ} {live : List (Nat × Nat)} {fuel size p : Nat} :
      HeapReach bound h live → size ≤ bound →
      krealloc A boot.pool fuel h 0 size = some (p, h') →
      HeapReach bound h' (allocated live p size)
  | store {h : Heap σ} {live : List (Nat × Nat)} {x : Nat × Nat} {m : Mem} :
      HeapReach bound h live → x ∈ live →
      (∀ a, a < x.1 ∨ x.1 + x.2 ≤ a → m a = h.mem a) →
      HeapReach bound { h with mem := m } live

end Runs

/-! ## Live pointers and blocks in use -/

/-- The live pointers are the payloads of the blocks in use, and each payload
is at least as large as what was asked for. -/
structure Covers (pay live : List (Nat × Nat)) : Prop where
  nodup : (live.map Prod.fst).Nodup
  payload : ∀ x ∈ live, ∃ s, (x.1, s) ∈ pay ∧ x.2 ≤ s
  live_of : ∀ y ∈ pay, ∃ n, (y.1, n) ∈ live

theorem mem_erase_key {l : List (Nat × Nat)} (h : (l.map Prod.fst).Nodup) {x y : Nat × Nat}
    (hx : x ∈ l) : y ∈ l.erase x ↔ y ∈ l ∧ y.1 ≠ x.1 := by
  rw [(List.Nodup.of_map _ h).mem_erase_iff]
  constructor
  · rintro ⟨hne, hy⟩
    exact ⟨hy, fun hkey => hne (List.inj_on_of_nodup_map h hy hx hkey)⟩
  · rintro ⟨hy, hne⟩
    exact ⟨fun heq => hne (by rw [heq]), hy⟩

theorem Covers.allocates {size p : Nat} {old new live : List (Nat × Nat)} (h : Covers old live)
    (hnew : (new.map Prod.fst).Nodup) (halloc : Allocates size p old new) :
    Covers new (allocated live p size) := by
  unfold allocated
  rcases halloc with ⟨rfl, rfl⟩ | ⟨hp, before, after, s, hs, rfl, rfl⟩
  · rw [if_pos rfl]
    exact h
  · rw [if_neg hp]
    have hold : ∀ y, y ∈ before ++ after → y ∈ before ++ (p, s) :: after := by
      intro y hy
      simp only [List.mem_append, List.mem_cons] at hy ⊢
      tauto
    -- the new pointer was not live
    have hfresh : ∀ n, (p, n) ∉ before ++ after := by
      intro n hn
      rw [List.map_append, List.map_cons, List.nodup_middle, List.nodup_cons] at hnew
      refine hnew.1 ?_
      rw [← List.map_append]
      exact List.mem_map.mpr ⟨_, hn, rfl⟩
    refine ⟨?_, fun x hx => ?_, fun y hy => ?_⟩
    · rw [List.map_cons, List.nodup_cons]
      refine ⟨fun hmem => ?_, h.nodup⟩
      obtain ⟨x, hx, rfl⟩ := List.mem_map.mp hmem
      obtain ⟨s', hs', -⟩ := h.payload x hx
      exact hfresh s' hs'
    · rcases List.mem_cons.mp hx with rfl | hx
      · exact ⟨s, by simp, hs⟩
      · obtain ⟨s', hs', hle⟩ := h.payload x hx
        exact ⟨s', hold _ hs', hle⟩
    · simp only [List.mem_append, List.mem_cons] at hy
      by_cases hyp : y = (p, s)
      · exact ⟨size, by rw [hyp]; simp⟩
      · obtain ⟨n, hn⟩ := h.live_of y (by simp only [List.mem_append]; tauto)
        exact ⟨n, by simp [hn]⟩

theorem Covers.releases {x : Nat × Nat} {old new live : List (Nat × Nat)} (h : Covers old live)
    (hold : (old.map Prod.fst).Nodup) (hx : x ∈ live) (hrel : Releases x.1 old new) :
    Covers new (live.erase x) := by
  obtain ⟨before, s, after, rfl, rfl⟩ := hrel
  have hother : ∀ y ∈ before ++ after, y.1 ≠ x.1 := by
    intro y hy hkey
    rw [List.map_append, List.map_cons, List.nodup_middle, List.nodup_cons, ← List.map_append]
      at hold
    exact hold.1 (List.mem_map.mpr ⟨y, hy, hkey⟩)
  refine ⟨h.nodup.sublist (List.erase_sublist.map _), fun y hy => ?_, fun y hy => ?_⟩
  · obtain ⟨hy, hne⟩ := (mem_erase_key h.nodup hx).mp hy
    obtain ⟨s', hs', hle⟩ := h.payload y hy
    refine ⟨s', ?_, hle⟩
    simp only [List.mem_append, List.mem_cons, Prod.mk.injEq] at hs' ⊢
    tauto
  · obtain ⟨n, hn⟩ := h.live_of y (by
      simp only [List.mem_append, List.mem_cons] at hy ⊢
      tauto)
    exact ⟨n, (mem_erase_key h.nodup hx).mpr ⟨hn, hother y hy⟩⟩

theorem Covers.reallocates {size q : Nat} {x : Nat × Nat} {old new live : List (Nat × Nat)}
    (h : Covers old live) (hold : (old.map Prod.fst).Nodup) (hx : x ∈ live) (hre : Reallocates size x.1 q old new) :
    Covers new (reallocated live x q size) := by
  unfold reallocated
  rcases hre with ⟨h0, -, hrel⟩ | ⟨h0, hq, rfl⟩ | ⟨h0, hq, rfl, ⟨s, hs, hle⟩, rfl⟩ |
    ⟨h0, hq, mid, hnodup, halloc, hrel⟩
  · rw [if_pos h0]
    exact h.releases hold hx hrel
  · rw [if_neg h0, if_pos hq]
    exact h
  · -- in place
    rw [if_neg h0, if_neg hq]
    refine ⟨?_, fun y hy => ?_, fun y hy => ?_⟩
    · rw [List.map_cons, List.nodup_cons]
      refine ⟨fun hmem => ?_, h.nodup.sublist (List.erase_sublist.map _)⟩
      obtain ⟨y, hy, hkey⟩ := List.mem_map.mp hmem
      exact ((mem_erase_key h.nodup hx).mp hy).2 hkey
    · rcases List.mem_cons.mp hy with rfl | hy
      · exact ⟨s, hs, hle⟩
      · exact h.payload y (List.mem_of_mem_erase hy)
    · obtain ⟨n, hn⟩ := h.live_of y hy
      by_cases hkey : y.1 = x.1
      · exact ⟨size, by rw [hkey]; simp⟩
      · exact ⟨n, List.mem_cons_of_mem _ ((mem_erase_key h.nodup hx).mpr ⟨hn, hkey⟩)⟩
  · -- moved: the new block first, then the old one goes
    rw [if_neg h0, if_neg hq]
    have hcov := h.allocates hnodup halloc
    rw [allocated, if_neg hq] at hcov
    have hcov' := hcov.releases hnodup (List.mem_cons_of_mem _ hx) hrel
    have hne : (q, size) ≠ x := by
      intro heq
      have := hcov.nodup
      rw [List.map_cons, List.nodup_cons] at this
      exact this.1 (List.mem_map.mpr ⟨x, hx, by rw [← heq]⟩)
    rwa [List.erase_cons_tail (by simpa using hne)] at hcov'

/-- The invariant of a run. -/
def RunInv {σ : Type} (pool : TablePool) (h : Heap σ) (live : List (Nat × Nat)) : Prop :=
  ∃ cells, HeapOk pool h cells ∧ Covers (payloads kheapBase cells) live

section RunInv

variable {σ : Type} {A : FrameAllocator σ} {boot : Boot σ} {bound : Nat} {h : Heap σ}
  {live : List (Nat × Nat)}

/-- `paging_init` and `heap_init` leave one free block of four pages. -/
theorem Boot.heap_ok (hheap : boot.heap A = some h) :
    HeapOk boot.pool h [⟨heapInitialPages * 4096 - 16, true⟩] ∧
      h.end = kheapBase + 4096 * heapInitialPages := by
  rw [Boot.heap, Option.bind_eq_some_iff] at hheap
  obtain ⟨paging, hpaging, hinit⟩ := hheap
  have hlimit := boot.physLimit_le
  obtain ⟨hpok, -, -⟩ := pagingInit_spec (by simp only [pmmMaxPhysAddr] at hlimit; omega) hpaging
  exact heapInit_ok hpok hinit

theorem Boot.heap_inv (hheap : boot.heap A = some h) : RunInv boot.pool h [] :=
  ⟨_, (Boot.heap_ok hheap).1, by simp, by simp, by simp [payloads]⟩

/-- The blocks of every reached state, if no request size wraps: they are the
live pointers, and coalesced. -/
theorem HeapReach.cells (hbound : bound + 4111 < 2 ^ 32) (hreach : HeapReach A boot bound h live) :
    ∃ cells, HeapOk boot.pool h cells ∧ Covers (payloads kheapBase cells) live ∧
      Coalesced cells := by
  induction hreach with
  | start hheap =>
      exact ⟨_, (Boot.heap_ok hheap).1, ⟨by simp, by simp, by simp [payloads]⟩,
        List.isChain_singleton _⟩
  | kmalloc _ hsize hrun ih =>
      obtain ⟨cells, hok, hcov, hcoal⟩ := ih
      obtain ⟨cells', hok', halloc, hev⟩ := kmalloc_ok hok (by omega) hrun
      exact ⟨cells', hok', hcov.allocates (payloads_nodup _ _) halloc, hev.coalesced hcoal⟩
  | @kfree h live x _ hx ih =>
      obtain ⟨cells, hok, hcov, hcoal⟩ := ih
      obtain ⟨s, hs, -⟩ := hcov.payload x hx
      obtain ⟨cells', hok', hrel, hev⟩ := kfree_ok hok hs
      exact ⟨cells', hok', hcov.releases (payloads_nodup _ _) hx hrel, hev.coalesced hcoal⟩
  | @kfreeNull h live _ ih =>
      rwa [Kheap.kfree, if_pos (Or.inr rfl)]
  | @krealloc h h' live x fuel size q _ hx hsize hrun ih =>
      obtain ⟨cells, hok, hcov, hcoal⟩ := ih
      obtain ⟨s, hs, -⟩ := hcov.payload x hx
      obtain ⟨cells', hok', hre, hev, -⟩ := krealloc_ok hok hs (by omega) hrun
      exact ⟨cells', hok', hcov.reallocates (payloads_nodup _ _) hx hre, hev.coalesced hcoal⟩
  | kreallocNull _ hsize hrun ih =>
      obtain ⟨cells, hok, hcov, hcoal⟩ := ih
      rw [Kheap.krealloc, if_pos rfl] at hrun
      obtain ⟨cells', hok', halloc, hev⟩ := kmalloc_ok hok (by omega) hrun
      exact ⟨cells', hok', hcov.allocates (payloads_nodup _ _) halloc, hev.coalesced hcoal⟩
  | @store h live x m _ hx hm ih =>
      obtain ⟨cells, hok, hcov, hcoal⟩ := ih
      obtain ⟨s, hs, hle⟩ := hcov.payload x hx
      exact ⟨cells, hok.write hs fun a ha => hm a (by omega), hcov, hcoal⟩

/-- Every reached state satisfies the invariant. -/
theorem HeapReach.inv (hbound : bound + 4111 < 2 ^ 32) (hreach : HeapReach A boot bound h live) :
    RunInv boot.pool h live := by
  obtain ⟨cells, hok, hcov, -⟩ := hreach.cells hbound
  exact ⟨cells, hok, hcov⟩

end RunInv

/-! ## Integrity -/

/-- The blocks that a walk along `next` from `g_head` meets. -/
inductive OnList {σ : Type} (h : Heap σ) : Nat → Prop
  | head : OnList h h.head
  | next {b : Nat} : OnList h b → (headerAt h.mem b).next ≠ 0 → OnList h (headerAt h.mem b).next

/-- The size of the block behind a live pointer. -/
def blockSize {σ : Type} (h : Heap σ) (p : Nat) : Nat := (headerAt h.mem (p - 16)).size

/-- Heap integrity: the shape of the block list, the pages under it, and the
payloads of the live pointers. -/
structure HeapIntegrity {σ : Type} (h : Heap σ) (live : List (Nat × Nat)) : Prop where
  head_eq : h.head = kheapBase
  next_eq : ∀ b, OnList h b → (headerAt h.mem b).next = 0 ∨
    ((headerAt h.mem b).next = b + 16 + (headerAt h.mem b).size ∧
      (headerAt h.mem (headerAt h.mem b).next).prev = b)
  prev_eq : ∀ b, OnList h b → (b = h.head ∧ (headerAt h.mem b).prev = 0) ∨
    (OnList h (headerAt h.mem b).prev ∧ (headerAt h.mem (headerAt h.mem b).prev).next = b)
  size_aligned : ∀ b, OnList h b → (headerAt h.mem b).size % 16 = 0
  end_le : ∀ b, OnList h b → b + 16 + (headerAt h.mem b).size ≤ h.end
  mapped : ∀ b, OnList h b → ∀ a, b ≤ a → a < b + 16 + (headerAt h.mem b).size →
    translate h.paging a ≠ 0
  live_block : ∀ x ∈ live, OnList h (x.1 - 16) ∧ (headerAt h.mem (x.1 - 16)).free = 0 ∧
    x.2 ≤ blockSize h x.1
  live_aligned : ∀ x ∈ live, x.1 % 16 = 0
  live_disjoint : live.Pairwise fun x y =>
    x.1 + blockSize h x.1 ≤ y.1 ∨ y.1 + blockSize h y.1 ≤ x.1
  live_no_header : ∀ x ∈ live, ∀ b, OnList h b → b + 16 ≤ x.1 ∨ x.1 + blockSize h x.1 ≤ b

section Integrity

variable {σ : Type} {pool : TablePool} {h : Heap σ} {cells : List Cell}

/-- The block behind each prefix of the cells is on the list. -/
theorem HeapOk.onList (hok : HeapOk pool h cells) : ∀ (pre : List Cell) {c : Cell}
    {post : List Cell}, cells = pre ++ c :: post → OnList h (kheapBase + span pre) := by
  intro pre
  induction pre using List.reverseRecOn with
  | nil =>
      intro c post _
      rw [span_nil, Nat.add_zero, ← hok.head_eq]
      exact OnList.head
  | append_singleton pre d ih =>
      intro c post hcut
      have hcut' : cells = pre ++ d :: c :: post := by simp [hcut]
      have hlayout := hok.layout
      rw [hcut'] at hlayout
      have hbase := hlayout.base_pos
      have hnext : (headerAt h.mem (kheapBase + span pre)).next = kheapBase + span (pre ++ [d]) := by
        rw [hlayout.headerAt_cell, span_append, span_cons, span_nil]
        simp only [link, blockOverhead]
        omega
      have := OnList.next (ih hcut') (by rw [hnext]; omega)
      rwa [hnext] at this

/-- Each block on the list is behind a prefix of the cells. -/
theorem HeapOk.cut_of_onList (hok : HeapOk pool h cells) {b : Nat} (hb : OnList h b) :
    ∃ pre c post, cells = pre ++ c :: post ∧ b = kheapBase + span pre := by
  induction hb with
  | head =>
      cases cells with
      | nil => exact absurd rfl hok.nonempty
      | cons c cs => exact ⟨[], c, cs, rfl, hok.head_eq⟩
  | @next b _ hne ih =>
      obtain ⟨pre, c, post, rfl, rfl⟩ := ih
      rw [hok.layout.headerAt_cell] at hne ⊢
      cases post with
      | nil => exact absurd rfl hne
      | cons d ds =>
          refine ⟨pre ++ [c], d, ds, by simp, ?_⟩
          simp only [link, span_append, span_cons, span_nil, blockOverhead]
          omega

/-- Every address below `g_heap_end` in the window is mapped. -/
theorem PagesOk.translate_ne (hok : PagesOk pool h) {a : Nat} (h1 : kheapBase ≤ a)
    (h2 : a < h.end) : translate h.paging a ≠ 0 := by
  have halign := hok.end_aligned
  have hend := hok.end_lt
  have hpage : kheapBase / 4096 ≤ a / 4096 := Nat.div_le_div_right h1
  obtain ⟨frame, h0, hmap⟩ := hok.mapped (a / 4096) hpage (by omega)
  rw [translate_eq hok.paging (by omega), hmap]
  simp only
  omega

theorem heapIntegrity_of_inv {live : List (Nat × Nat)} (hinv : RunInv pool h live) :
    HeapIntegrity h live := by
  obtain ⟨cells, hok, hcov⟩ := hinv
  have hov : blockOverhead = 16 := rfl
  -- what a block on the list looks like
  have hblock : ∀ b, OnList h b → ∃ pre c post, cells = pre ++ c :: post ∧
      b = kheapBase + span pre ∧ headerAt h.mem b = ⟨c.size, flag c.free,
        link (b + 16 + c.size) post 0, lastAddr 0 kheapBase pre⟩ ∧ c.size % 16 = 0 ∧
      b + 16 + c.size ≤ h.end := by
    intro b hb
    obtain ⟨pre, c, post, rfl, rfl⟩ := hok.cut_of_onList hb
    obtain ⟨-, hc, -⟩ := hok.layout.cell_addr
    have hspan := hok.span_le
    simp only [span_append, span_cons, blockOverhead] at hspan
    exact ⟨pre, c, post, rfl, rfl, hok.layout.headerAt_cell, hc, by omega⟩
  -- what a live pointer looks like
  have hlive : ∀ x ∈ live, ∃ pre c post, cells = pre ++ c :: post ∧ c.free = false ∧
      x.1 = kheapBase + span pre + 16 ∧ x.2 ≤ c.size ∧ blockSize h x.1 = c.size := by
    intro x hx
    obtain ⟨s, hs, hle⟩ := hcov.payload x hx
    obtain ⟨pre, c, post, rfl, hfree, rfl, hp⟩ := mem_payloads hs
    refine ⟨pre, c, post, rfl, hfree, hp, hle, ?_⟩
    rw [blockSize, hp, blockOverhead, Nat.add_sub_cancel, hok.layout.headerAt_cell]
  refine ⟨hok.head_eq, ?_, ?_, ?_, ?_, ?_, ?_, ?_, ?_, ?_⟩
  · intro b hb
    obtain ⟨pre, c, post, hcut, rfl, hhead, -, -⟩ := hblock b hb
    cases post with
    | nil => exact Or.inl (by rw [hhead]; rfl)
    | cons d ds =>
        have hlayout := hok.layout
        rw [hcut] at hlayout
        have hnext := (linked_append.mp hlayout.linked).2.2.1
        refine Or.inr ⟨by rw [hhead]; rfl, ?_⟩
        rw [hhead]
        exact congrArg Header.prev hnext
  · intro b hb
    obtain ⟨pre, c, post, hcut, rfl, hhead, -, -⟩ := hblock b hb
    rcases List.eq_nil_or_concat pre with rfl | ⟨pre', d, rfl⟩
    · exact Or.inl ⟨by rw [hok.head_eq, span_nil, Nat.add_zero], by rw [hhead]; rfl⟩
    · rw [List.concat_eq_append] at *
      have hcut' : cells = pre' ++ d :: c :: post := by simp [hcut]
      have hlayout := hok.layout
      rw [hcut'] at hlayout
      rw [hhead]
      simp only [lastAddr_concat]
      refine Or.inr ⟨hok.onList pre' hcut', ?_⟩
      rw [hlayout.headerAt_cell]
      simp only [link, span_append, span_cons, span_nil, blockOverhead]
      omega
  · intro b hb
    obtain ⟨pre, c, post, -, -, hhead, hc, -⟩ := hblock b hb
    rw [hhead]
    exact hc
  · intro b hb
    obtain ⟨pre, c, post, -, -, hhead, -, hend⟩ := hblock b hb
    rw [hhead]
    exact hend
  · intro b hb a h1 h2
    obtain ⟨pre, c, post, -, rfl, hhead, -, hend⟩ := hblock b hb
    rw [hhead] at h2
    simp only at h2
    exact hok.pages.translate_ne (by omega) (by omega)
  · intro x hx
    obtain ⟨pre, c, post, hcut, hfree, hp, hle, hsize⟩ := hlive x hx
    have hb : x.1 - 16 = kheapBase + span pre := by omega
    have hlayout := hok.layout
    rw [hcut] at hlayout
    refine ⟨hb ▸ hok.onList pre hcut, ?_, by omega⟩
    rw [hb, hlayout.headerAt_cell, hfree]
    rfl
  · intro x hx
    obtain ⟨pre, c, post, rfl, -, hp, -, -⟩ := hlive x hx
    obtain ⟨hb, -, -⟩ := hok.layout.cell_addr
    omega
  · have hne : live.Pairwise fun x y => x.1 ≠ y.1 := List.pairwise_map.mp hcov.nodup
    refine hne.imp_of_mem fun {x y} hx hy hxy => ?_
    obtain ⟨pre, c, post, hcut, -, hp, -, hsize⟩ := hlive x hx
    obtain ⟨pre', c', post', hcut', -, hp', -, hsize'⟩ := hlive y hy
    rcases cut_cases (hcut.symm.trans hcut') with hlt | ⟨rfl, -⟩ | hlt
    · omega
    · exact absurd (hp.trans hp'.symm) hxy
    · omega
  · intro x hx b hb
    obtain ⟨pre, c, post, hcut, -, hp, -, hsize⟩ := hlive x hx
    obtain ⟨pre', c', post', hcut', rfl, -⟩ := hblock b hb
    rcases cut_cases (hcut.symm.trans hcut') with hlt | ⟨rfl, -⟩ | hlt <;> omega

end Integrity

/-- The heap stays intact over every run with request sizes up to
`KHEAP_MAX_SIZE`, whatever the frame allocator answers. -/
theorem heap_integrity {σ : Type} {A : FrameAllocator σ} {boot : Boot σ} {h : Heap σ}
    {live : List (Nat × Nat)} (hreach : HeapReach A boot kheapMaxSize h live) :
    HeapIntegrity h live :=
  heapIntegrity_of_inv (hreach.inv (by decide))

/-! ## A run -/

/-- An allocator that hands out the frames from `s` on. -/
def bumpAllocator : FrameAllocator Nat where
  alloc s := (u32 s, s + 4096)
  free s _ := s
  alloc_lt s := u32_lt s

/-- A boot with 16 KiB of identity-mapped memory and frames from 16 MiB on. -/
def exampleBoot : Boot Nat where
  pool := lowPool
  tables := fun _ _ => 0
  physLimit := 0x4000
  physLimit_le := by decide
  framebuffer := none
  mem := fun _ => 0
  frames := 0x1000000

/-- The heap after boot. -/
def exampleHeap : Heap Nat := (exampleBoot.heap bumpAllocator).get (by decide)

/-- The heap after one `kmalloc(100)`, with the pointer. -/
def exampleAlloc : Nat × Heap Nat :=
  (kmalloc bumpAllocator exampleBoot.pool 4 exampleHeap 100).get (by decide)

theorem exampleAlloc_reach : exampleAlloc.1 = kheapBase + 16 ∧
    HeapReach bumpAllocator exampleBoot kheapMaxSize exampleAlloc.2 [(kheapBase + 16, 100)] := by
  have hstart : HeapReach bumpAllocator exampleBoot kheapMaxSize exampleHeap [] :=
    HeapReach.start (Option.some_get _).symm
  have hrun : kmalloc bumpAllocator exampleBoot.pool 4 exampleHeap 100 = some exampleAlloc :=
    (Option.some_get _).symm
  have hreach : HeapReach bumpAllocator exampleBoot kheapMaxSize exampleAlloc.2
      (allocated [] exampleAlloc.1 100) := hstart.kmalloc (by decide) hrun
  have hp : exampleAlloc.1 = kheapBase + 16 := by decide
  rw [hp] at hreach
  exact ⟨hp, hreach⟩

/-- Then a `kmalloc(200)`. -/
def exampleSecond : Nat × Heap Nat :=
  (kmalloc bumpAllocator exampleBoot.pool 4 exampleAlloc.2 200).get (by decide +kernel)

/-- Then a `kmalloc(20000)`, for which the heap grows. -/
def exampleGrown : Nat × Heap Nat :=
  (kmalloc bumpAllocator exampleBoot.pool 8 exampleSecond.2 20000).get (by decide +kernel)

/-- Then the first two blocks are freed, and merged. -/
def exampleMerged : Heap Nat := kfree (kfree exampleGrown.2 (kheapBase + 16)) (kheapBase + 144)

/-- Then a `kmalloc(50)`, which splits the merged block. -/
def exampleReused : Nat × Heap Nat :=
  (kmalloc bumpAllocator exampleBoot.pool 8 exampleMerged 50).get (by decide +kernel)

theorem exampleSecond_run : kmalloc bumpAllocator exampleBoot.pool 4 exampleAlloc.2 200 =
    some (kheapBase + 144, exampleSecond.2) := by
  have hp : exampleSecond.1 = kheapBase + 144 := by decide +kernel
  exact (Option.some_get _).symm.trans (congrArg some (Prod.ext hp rfl))

theorem exampleGrown_run : kmalloc bumpAllocator exampleBoot.pool 8 exampleSecond.2 20000 =
    some (kheapBase + 368, exampleGrown.2) := by
  have hp : exampleGrown.1 = kheapBase + 368 := by decide +kernel
  exact (Option.some_get _).symm.trans (congrArg some (Prod.ext hp rfl))

theorem exampleReused_run : kmalloc bumpAllocator exampleBoot.pool 8 exampleMerged 50 =
    some (kheapBase + 16, exampleReused.2) := by
  have hp : exampleReused.1 = kheapBase + 16 := by decide +kernel
  exact (Option.some_get _).symm.trans (congrArg some (Prod.ext hp rfl))

theorem exampleReused_reach : HeapReach bumpAllocator exampleBoot kheapMaxSize exampleReused.2
    [(kheapBase + 16, 50), (kheapBase + 368, 20000)] := by
  have hsecond : HeapReach bumpAllocator exampleBoot kheapMaxSize exampleSecond.2
      [(kheapBase + 144, 200), (kheapBase + 16, 100)] :=
    exampleAlloc_reach.2.kmalloc (by decide) exampleSecond_run
  have hgrown : HeapReach bumpAllocator exampleBoot kheapMaxSize exampleGrown.2
      [(kheapBase + 368, 20000), (kheapBase + 144, 200), (kheapBase + 16, 100)] :=
    hsecond.kmalloc (by decide) exampleGrown_run
  have hfirst : HeapReach bumpAllocator exampleBoot kheapMaxSize
      (kfree exampleGrown.2 (kheapBase + 16)) [(kheapBase + 368, 20000), (kheapBase + 144, 200)] :=
    hgrown.kfree (x := (kheapBase + 16, 100)) (by decide)
  have hmerged : HeapReach bumpAllocator exampleBoot kheapMaxSize exampleMerged
      [(kheapBase + 368, 20000)] :=
    hfirst.kfree (x := (kheapBase + 144, 200)) (by decide)
  exact hmerged.kmalloc (by decide) exampleReused_run

/-- Two live blocks, after an expansion and a merge. -/
theorem heap_integrity_example : exampleReused.2.end = kheapBase + 4096 * 9 ∧
    HeapIntegrity exampleReused.2 [(kheapBase + 16, 50), (kheapBase + 368, 20000)] :=
  ⟨by decide +kernel, heap_integrity exampleReused_reach⟩

end RoninOS.Kheap
