/-
RoninOS.Mem.Pmm — the physical frame allocator of `kernel/mem/pmm.c`.

One bit per 4096-byte frame: set for a frame in use, clear for a free one.
`pmmInit` walks the Multiboot2 info block three times (for the highest
usable address, to free the usable ranges, to reserve modules and the
framebuffer); the `for` loops over frames are folds over the frame numbers.
The lock, the interrupt flag and the console messages touch no field of the
state and are left out; the addresses of `_kernel_start` and `_kernel_end`
come from the linker and are parameters.
-/
import RoninOS.Lib.Bitmap
import RoninOS.Mem.Multiboot2

namespace RoninOS.Mem

open RoninOS.Lib

/-! ## Constants and state -/

/-- `PMM_FRAME_SIZE`. -/
def pmmFrameSize : Nat := 4096
/-- `PMM_MAX_PHYS_ADDR`. -/
def pmmMaxPhysAddr : Nat := 512 * 1024 * 1024
/-- `PMM_MAX_FRAMES`. -/
def pmmMaxFrames : Nat := pmmMaxPhysAddr / pmmFrameSize
/-- `PMM_BITMAP_WORDS`. -/
def pmmBitmapWords : Nat := pmmMaxFrames / 32

/-- The globals of `pmm.c`: `g_bitmap`, `g_max_addr`, `g_stats` and `g_ready`. -/
structure Pmm where
  bitmap : Bitmap 32
  maxAddr : Nat
  totalFrames : Nat
  freeFrames : Nat
  usedFrames : Nat
  managedBytes : Nat
  ready : Bool

/-- The linker's `_kernel_start` and `_kernel_end`. -/
structure KernelImage where
  start : Nat
  «end» : Nat
  start_le_end : start ≤ «end»
  end_lt : «end» < 2 ^ 32

/-! ## Bits and counters -/

/-- `is_set`. -/
def Pmm.isSet (p : Pmm) (idx : Nat) : Bool := p.bitmap.test idx

/-- The frame becomes used: `set_frame`, `free_frames--`, `used_frames++`. -/
def Pmm.takeFrame (p : Pmm) (idx : Nat) : Pmm :=
  { p with
    bitmap := p.bitmap.set idx
    freeFrames := sub32 p.freeFrames 1
    usedFrames := add32 p.usedFrames 1 }

/-- The frame becomes free: `clear_frame`, `free_frames++`, `used_frames--`. -/
def Pmm.giveFrame (p : Pmm) (idx : Nat) : Pmm :=
  { p with
    bitmap := p.bitmap.clear idx
    freeFrames := add32 p.freeFrames 1
    usedFrames := sub32 p.usedFrames 1 }

/-! ## Ranges -/

/-- The frames `s <= i < e` that both range functions visit: `start` rounded
down, `end` clamped to `g_max_addr` and rounded up. -/
def rangeFrames (p : Pmm) (start end_ : Nat) : List Nat :=
  if start ≥ end_ then []
  else if start ≥ p.maxAddr then []
  else
    let end_ := if end_ > p.maxAddr then p.maxAddr else end_
    let s := alignDown start pmmFrameSize / pmmFrameSize
    let e := alignUp end_ pmmFrameSize / pmmFrameSize
    List.range' s (e - s)

/-- `reserve_range`. -/
def reserveRange (p : Pmm) (start end_ : Nat) : Pmm :=
  (rangeFrames p start end_).foldl
    (fun p i => if ¬ p.isSet i then p.takeFrame i else p) p

/-- `free_range`. -/
def freeRange (p : Pmm) (start end_ : Nat) : Pmm :=
  (rangeFrames p start end_).foldl
    (fun p i => if p.isSet i then p.giveFrame i else p) p

/-! ## `pmm_init` -/

/-- The entry loop's body in the first pass: `highest`. -/
def highestEntry (mem : Mem) (highest ptr : Nat) : Nat :=
  let end_ := (ld64 mem ptr + ld64 mem (ptr + 8)) % 2 ^ 64
  if ld32 mem (ptr + 16) = mmapTypeAvailable then
    if end_ > highest then (if end_ > 0xFFFFFFFF then 0xFFFFFFFF else end_) else highest
  else highest

/-- The tag loop's body in the first pass. -/
def highestTag (fuel : Nat) (mem : Mem) (highest tag : Nat) : Option Nat :=
  if ld32 mem tag = tagTypeMmap then
    mmapLoop (ld32 mem (tag + 8)) (add32 tag (ld32 mem (tag + 4))) (highestEntry mem)
      fuel (add32 tag 16) highest
  else if ld32 mem tag = tagTypeBasicMeminfo then
    let basicTop := add32 0x100000 (mul32 (ld32 mem (tag + 12)) 1024)
    some (if basicTop > highest then basicTop else highest)
  else some highest

/-- The entry loop's body in the second pass: 64-bit addresses are cast to
`uint32_t` before `free_range`. -/
def freeEntry (mem : Mem) (p : Pmm) (ptr : Nat) : Pmm :=
  if ld32 mem (ptr + 16) = mmapTypeAvailable then
    freeRange p (u32 (ld64 mem ptr)) (u32 (ld64 mem ptr + ld64 mem (ptr + 8)))
  else p

/-- The tag loop's body in the second pass. -/
def freeTag (fuel : Nat) (mem : Mem) (p : Pmm) (tag : Nat) : Option Pmm :=
  if ld32 mem tag = tagTypeMmap then
    mmapLoop (ld32 mem (tag + 8)) (add32 tag (ld32 mem (tag + 4))) (freeEntry mem)
      fuel (add32 tag 16) p
  else some p

/-- The tag loop's body in the third pass. -/
def reserveTag (mem : Mem) (p : Pmm) (tag : Nat) : Option Pmm :=
  if ld32 mem tag = tagTypeModule then
    some (reserveRange p (ld32 mem (tag + 8)) (ld32 mem (tag + 12)))
  else if ld32 mem tag = tagTypeFramebuffer then
    let bytes := mul32 (ld32 mem (tag + 16)) (ld32 mem (tag + 24))
    let addr := u32 (ld64 mem (tag + 8))
    some (reserveRange p addr (add32 addr bytes))
  else some p

/-- The state between the first two passes. -/
def pmmStart (highest : Nat) : Pmm :=
  let highest := if highest = 0 ∨ highest > pmmMaxPhysAddr then pmmMaxPhysAddr else highest
  let maxAddr := alignDown highest pmmFrameSize
  { bitmap := fun _ => BitVec.allOnes 32
    maxAddr
    totalFrames := maxAddr / pmmFrameSize
    usedFrames := maxAddr / pmmFrameSize
    freeFrames := 0
    managedBytes := maxAddr
    ready := false }

/-- `pmm_init`; `none` where it does not return (the panic, or an endless loop
over a malformed block). -/
def pmmInit (fuel : Nat) (k : KernelImage) (mem : Mem) (mbMagic mbInfoAddr : Nat) :
    Option Pmm :=
  if mbMagic ≠ multiboot2BootloaderMagic ∨ mbInfoAddr = 0 then none
  else
    let total := ld32 mem mbInfoAddr
    let tag := add32 mbInfoAddr 8
    let endTag := sub32 (add32 mbInfoAddr total) 8
    (tagLoop mem endTag (highestTag fuel mem) fuel tag 0).bind fun highest =>
    (tagLoop mem endTag (freeTag fuel mem) fuel tag (pmmStart highest)).bind fun p =>
    let p := reserveRange p 0 0x100000
    let p := reserveRange p k.start k.end
    let p := reserveRange p mbInfoAddr (add32 mbInfoAddr total)
    (tagLoop mem endTag (reserveTag mem) fuel tag p).map fun p => { p with ready := true }

/-! ## Allocation -/

/-- The inner loop of `pmm_alloc_frame` over the bits of word `i` from `bit`
on; the `break` at `total_frames` leaves only this loop. -/
def scanBits (p : Pmm) (i : Nat) : Nat → Nat → Option Nat
  | 0, _ => none
  | n + 1, bit =>
      let frame := i * 32 + bit
      if frame ≥ p.totalFrames then none
      else if p.bitmap i &&& Bitmap.mask 32 bit = 0#32 then some frame
      else scanBits p i n (bit + 1)

/-- The outer loop of `pmm_alloc_frame` over the words from `i` on. -/
def scanWords (p : Pmm) : Nat → Nat → Option Nat
  | 0, _ => none
  | n + 1, i =>
      if p.bitmap i ≠ BitVec.allOnes 32 then
        match scanBits p i 32 0 with
        | some frame => some frame
        | none => scanWords p n (i + 1)
      else scanWords p n (i + 1)

/-- `pmm_alloc_frame`: the frame's address, or 0. -/
def pmmAllocFrame (p : Pmm) : Nat × Pmm :=
  if ¬ p.ready then (0, p)
  else
    match scanWords p pmmBitmapWords 0 with
    | some frame => (mul32 frame pmmFrameSize, p.takeFrame frame)
    | none => (0, p)

/-- `pmm_free_frame`. -/
def pmmFreeFrame (p : Pmm) (physAddr : Nat) : Pmm :=
  if ¬ p.ready ∨ physAddr &&& (pmmFrameSize - 1) ≠ 0 then p
  else
    let frame := physAddr / pmmFrameSize
    if frame ≥ p.totalFrames then p
    else if p.isSet frame then p.giveFrame frame
    else p

/-- `pmm_get_max_phys_addr`. -/
def pmmGetMaxPhysAddr (p : Pmm) : Nat := p.maxAddr

end RoninOS.Mem
