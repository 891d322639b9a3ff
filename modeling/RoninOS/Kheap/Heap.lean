/-
RoninOS.Kheap.Heap — the kernel heap of `kernel/heap.c`.

The block headers live in the memory they manage: a `heap_block_t` is four
32-bit words (`size`, `free`, `next`, `prev`) at the block's address, and all
pointer and size arithmetic is modulo 2^32, as on the i386 target. Memory is
indexed by virtual address; a page that `map_page` adds comes with whatever
bytes it held.

The frame allocator is a parameter, so that a run can let it fail at any call;
`pmmAllocator` is the one the kernel links. The three loops over the list and
the `retry` loop take fuel. `none` stands for a call that does not return: a
panic or a loop that never ends.
-/
import RoninOS.Lib.Memory
import RoninOS.Mem.Paging
import RoninOS.Mem.Pmm

namespace RoninOS.Kheap

open RoninOS.Lib RoninOS.Mem

/-! ## Constants and state -/

/-- `HEAP_ALIGN`. -/
def heapAlign : Nat := 16
/-- `KHEAP_BASE`. -/
def kheapBase : Nat := 0x18000000
/-- `KHEAP_MAX_SIZE`. -/
def kheapMaxSize : Nat := 16 * 1024 * 1024
/-- `HEAP_INITIAL_PAGES`. -/
def heapInitialPages : Nat := 4
/-- `block_overhead()`, that is `sizeof(heap_block_t)`. -/
def blockOverhead : Nat := 16

/-- `pmm_alloc_frame` and `pmm_free_frame`, as `heap.c` sees them. -/
structure FrameAllocator (σ : Type) where
  alloc : σ → Nat × σ
  free : σ → Nat → σ
  alloc_lt : ∀ s, (alloc s).1 < 2 ^ 32

/-- The globals of `heap.c`, with the memory, page tables and frames they use. -/
structure Heap (σ : Type) where
  mem : Mem
  head : Nat
  start : Nat
  «end» : Nat
  limit : Nat
  ready : Bool
  paging : Paging
  frames : σ

/-! ## Block headers -/

/-- `heap_block_t`. -/
@[ext] structure Header where
  size : Nat
  free : Nat
  next : Nat
  prev : Nat
  deriving DecidableEq, Repr

/-- The header at an address. -/
def headerAt (m : Mem) (b : Nat) : Header :=
  ⟨ld32 m b, ld32 m (b + 4), ld32 m (b + 8), ld32 m (b + 12)⟩

/-- `b->size = v`. -/
def setSize (m : Mem) (b v : Nat) : Mem := st32 m b v
/-- `b->free = v`. -/
def setFree (m : Mem) (b v : Nat) : Mem := st32 m (b + 4) v
/-- `b->next = v`. -/
def setNext (m : Mem) (b v : Nat) : Mem := st32 m (b + 8) v
/-- `b->prev = v`. -/
def setPrev (m : Mem) (b v : Nat) : Mem := st32 m (b + 12) v

/-! ## Blocks -/

/-- `split_block`. -/
def splitBlock (m : Mem) (block wanted : Nat) : Mem :=
  if (headerAt m block).size ≤ add32 (add32 wanted blockOverhead) heapAlign then m
  else
    let n := add32 (add32 block blockOverhead) wanted
    let m := setSize m n (sub32 (sub32 (headerAt m block).size wanted) blockOverhead)
    let m := setFree m n 1
    let m := setNext m n (headerAt m block).next
    let m := setPrev m n block
    let m := if (headerAt m n).next ≠ 0 then setPrev m (headerAt m n).next n else m
    let m := setSize m block wanted
    setNext m block n

/-- `merge_next`. -/
def mergeNext (m : Mem) (block : Nat) : Mem :=
  let n := (headerAt m block).next
  if n = 0 ∨ (headerAt m n).free = 0 then m
  else
    let m := setSize m block
      (add32 (headerAt m block).size (add32 blockOverhead (headerAt m n).size))
    let m := setNext m block (headerAt m n).next
    if (headerAt m block).next ≠ 0 then setPrev m (headerAt m block).next block else m

/-- `last_block`, from `cur` on. -/
def lastBlock (m : Mem) : Nat → Nat → Option Nat
  | 0, _ => none
  | fuel + 1, cur =>
      if cur ≠ 0 ∧ (headerAt m cur).next ≠ 0 then lastBlock m fuel (headerAt m cur).next
      else some cur

/-- The scan of `kmalloc` from `cur` on: the first free block of at least
`wanted` bytes, or 0. -/
def findFree (m : Mem) (wanted : Nat) : Nat → Nat → Option Nat
  | 0, _ => none
  | fuel + 1, cur =>
      if cur = 0 then some 0
      else if (headerAt m cur).free ≠ 0 ∧ (headerAt m cur).size ≥ wanted then some cur
      else findFree m wanted fuel (headerAt m cur).next

section Allocation

variable {σ : Type} (A : FrameAllocator σ) (pool : TablePool)

/-! ## Growing the heap -/

/-- The page loop of `heap_expand`, `rounds` pages still to add: the return
value and the state. -/
def expandPages : Nat → Heap σ → Option (Int × Heap σ)
  | 0, h => some (0, h)
  | rounds + 1, h =>
      let (frame, frames) := A.alloc h.frames
      let h := { h with frames }
      if frame = 0 then some (-1, h)
      else if add32 h.end pmmFrameSize > h.limit then
        some (-1, { h with frames := A.free h.frames frame })
      else
        (mapPage pool h.paging h.end frame pageWrite).bind fun (ret, paging) =>
          let h := { h with paging }
          if ret ≠ 0 then some (-1, { h with frames := A.free h.frames frame })
          else expandPages rounds { h with «end» := add32 h.end pmmFrameSize }

/-- `heap_expand`. `needed` is a multiple of the page size, so the loop runs
`needed / PMM_FRAME_SIZE` times and leaves `added = needed`. -/
def heapExpand (fuel : Nat) (h : Heap σ) (minBytes : Nat) : Option (Int × Heap σ) :=
  let needed := alignUp (add32 minBytes blockOverhead) pmmFrameSize
  (expandPages A pool (needed / pmmFrameSize) h).bind fun (ret, h) =>
    if ret ≠ 0 then some (-1, h)
    else
      (lastBlock h.mem fuel h.head).map fun tail =>
        if tail = 0 then (-1, h)
        else if (headerAt h.mem tail).free ≠ 0 then
          (0, { h with mem := setSize h.mem tail (add32 (headerAt h.mem tail).size needed) })
        else
          let nb := add32 (add32 tail blockOverhead) (headerAt h.mem tail).size
          let m := setSize h.mem nb (sub32 needed blockOverhead)
          let m := setFree m nb 1
          let m := setNext m nb 0
          let m := setPrev m nb tail
          (0, { h with mem := setNext m tail nb })

/-- The page loop of `heap_init`; a failure panics. -/
def initPages : Nat → Heap σ → Option (Heap σ)
  | 0, h => some h
  | rounds + 1, h =>
      let (frame, frames) := A.alloc h.frames
      let h := { h with frames }
      if frame = 0 then none
      else
        (mapPage pool h.paging h.end frame pageWrite).bind fun (ret, paging) =>
          if ret ≠ 0 then none
          else initPages rounds { h with paging, «end» := add32 h.end pmmFrameSize }

/-- `heap_init`. -/
def heapInit (mem : Mem) (paging : Paging) (frames : σ) : Option (Heap σ) :=
  let h : Heap σ :=
    { mem, head := 0, start := kheapBase, «end» := kheapBase,
      limit := add32 kheapBase kheapMaxSize, ready := false, paging, frames }
  (initPages A pool heapInitialPages h).map fun h =>
    let m := setSize h.mem h.start (sub32 (sub32 h.end h.start) blockOverhead)
    let m := setFree m h.start 1
    let m := setNext m h.start 0
    let m := setPrev m h.start 0
    { h with mem := m, head := h.start, ready := true }

/-! ## `kmalloc`, `kfree`, `krealloc` -/

/-- The `retry` loop of `kmalloc`. -/
def kmallocLoop (fuel wanted : Nat) : Nat → Heap σ → Option (Nat × Heap σ)
  | 0, _ => none
  | retries + 1, h =>
      (findFree h.mem wanted fuel h.head).bind fun cur =>
        if cur ≠ 0 then
          some (add32 cur blockOverhead,
            { h with mem := setFree (splitBlock h.mem cur wanted) cur 0 })
        else
          (heapExpand A pool fuel h wanted).bind fun (ret, h) =>
            if ret = 0 then kmallocLoop fuel wanted retries h else some (0, h)

/-- `kmalloc`: the pointer and the state. -/
def kmalloc (fuel : Nat) (h : Heap σ) (size : Nat) : Option (Nat × Heap σ) :=
  if ¬ h.ready ∨ size = 0 then some (0, h)
  else kmallocLoop A pool fuel (add32 size (heapAlign - 1) &&& not32 (heapAlign - 1)) fuel h

/-- `kfree`. -/
def kfree (h : Heap σ) (ptr : Nat) : Heap σ :=
  if ¬ h.ready ∨ ptr = 0 then h
  else
    let block := sub32 ptr blockOverhead
    let m := setFree h.mem block 1
    let m := mergeNext m block
    let prev := (headerAt m block).prev
    let m := if prev ≠ 0 ∧ (headerAt m prev).free ≠ 0 then mergeNext m prev else m
    { h with mem := m }

/-- `krealloc`. -/
def krealloc (fuel : Nat) (h : Heap σ) (ptr newSize : Nat) : Option (Nat × Heap σ) :=
  if ptr = 0 then kmalloc A pool fuel h newSize
  else if newSize = 0 then some (0, kfree h ptr)
  else
    let block := sub32 ptr blockOverhead
    if (headerAt h.mem block).size ≥ newSize then some (ptr, h)
    else
      (kmalloc A pool fuel h newSize).map fun (np, h) =>
        if np = 0 then (0, h)
        else
          let copySize := (headerAt h.mem block).size
          let copySize := if copySize > newSize then newSize else copySize
          (np, kfree { h with mem := copyBytes h.mem np ptr copySize } ptr)

end Allocation

/-! ## `heap_get_stats` -/

/-- `heap_stats_t`. -/
structure HeapStats where
  heapStart : Nat
  heapEnd : Nat
  totalBytes : Nat
  usedBytes : Nat
  freeBytes : Nat
  freeBlocks : Nat
  usedBlocks : Nat
  largestFreeBlock : Nat
  deriving DecidableEq, Repr

/-- The loop of `heap_get_stats`, from `cur` on. -/
def statsLoop (m : Mem) : Nat → Nat → HeapStats → Option HeapStats
  | 0, _, _ => none
  | fuel + 1, cur, stats =>
      if cur = 0 then some stats
      else
        let b := headerAt m cur
        let stats :=
          if b.free ≠ 0 then
            { stats with
              freeBlocks := add32 stats.freeBlocks 1
              freeBytes := add32 stats.freeBytes b.size
              largestFreeBlock :=
                if b.size > stats.largestFreeBlock then b.size else stats.largestFreeBlock }
          else
            { stats with
              usedBlocks := add32 stats.usedBlocks 1
              usedBytes := add32 stats.usedBytes b.size }
        statsLoop m fuel b.next stats

/-- `heap_get_stats`: what it stores in `*out`. -/
def heapGetStats {σ : Type} (fuel : Nat) (h : Heap σ) : Option HeapStats :=
  let stats : HeapStats := ⟨0, 0, 0, 0, 0, 0, 0, 0⟩
  if ¬ h.ready then some stats
  else
    statsLoop h.mem fuel h.head { stats with
      heapStart := h.start, heapEnd := h.end, totalBytes := sub32 h.end h.start }

/-- The kernel's own allocator. -/
def pmmAllocator : FrameAllocator Pmm where
  alloc := pmmAllocFrame
  free := pmmFreeFrame
  alloc_lt p := by
    unfold pmmAllocFrame
    split
    · exact Nat.two_pow_pos 32
    · split
      · exact mul32_lt _ _
      · exact Nat.two_pow_pos 32

end RoninOS.Kheap
