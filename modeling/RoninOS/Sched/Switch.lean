/-
RoninOS.Sched.Switch — the threads of `thread.c` on one processor.

`threadSwitchAsm` runs the instructions of `kernel/sched/switch.S`; `irq0Entry`
and `irq0Return` are the two halves of `irq0_stub` (`kernel/isr_stubs.s`), before
and after its call. A `Kernel` is the registers, the scheduler with the memory,
and the heap that the stacks come from: `thread_create` calls `kmalloc` of
`kernel/heap.c`. `g_threads` and the other globals of `thread.c` and `heap.c` are
fields of the state and not bytes of the memory.

What a thread does between its calls is compiled code that is not under `src/`
as such: a `work` act gives the processor any registers and the memory any
bytes. `Allowed` says what such code may do: store outside the heap or inside
live heap blocks, and nowhere on the stack of a thread that waits.

An interrupt comes between two acts only. The calls of `heap.c`, where `kmalloc`
and `kfree` turn interrupts off and `krealloc` does not, and those of `thread.c`,
which never does, run to their end.
-/
import RoninOS.Kheap.HeapRuns
import RoninOS.Sched.ThreadRuns

namespace RoninOS.Sched

open RoninOS.Lib RoninOS.Kheap RoninOS.Mem

/-! ## Registers and stack -/

/-- The registers of the i386 that the kernel's assembly files name or save. -/
@[ext] structure Regs where
  eax : UInt32
  ecx : UInt32
  edx : UInt32
  ebx : UInt32
  esp : UInt32
  ebp : UInt32
  esi : UInt32
  edi : UInt32
  eip : UInt32
  cs : UInt32
  eflags : UInt32
  deriving DecidableEq, Repr

/-- Addresses that the linker fixes; the boot stack lies below the heap. -/
structure Image where
  threadBootstrap : UInt32
  gThreads : UInt32
  irq0HandlerC : UInt32
  irq0Resume : UInt32
  stackBottom : Nat
  stackTop : Nat
  stack_le : stackBottom ≤ stackTop
  stackTop_le : stackTop ≤ kheapBase

/-- `pop`: the word on top of the stack, and the stack pointer behind it. -/
def popWord (m : Mem) (sp : Nat) : UInt32 × Nat := (UInt32.ofNat (ld32 m sp), add32 sp 4)

/-- `push` of registers, first to last. -/
def pushRegs (m : Mem) (sp : UInt32) (rs : List UInt32) : Mem × Nat :=
  (rs.map UInt32.toNat).foldl pushWord (m, sp.toNat)

/-! ## `switch.S` -/

/-- The second half of `thread_switch`, from `mov %edx, %esp` on. -/
def switchReturn (m : Mem) (newEsp : Nat) (r : Regs) : Regs :=
  let (edi, sp) := popWord m newEsp
  let (esi, sp) := popWord m sp
  let (ebx, sp) := popWord m sp
  let (ebp, sp) := popWord m sp
  let (eip, sp) := popWord m sp
  { r with edi, esi, ebx, ebp, eip, esp := UInt32.ofNat sp }

/-- `thread_switch`, entered with its return address on top of the stack. Its
first argument is the address of the `esp` of thread `prevTid`, 32 bytes a
thread from `g_threads` on. -/
def threadSwitchAsm (img : Image) (prevTid newEsp : Nat) (r : Regs) (s : Scheduler) :
    Regs × Scheduler :=
  let r := { r with
    eax := img.gThreads + 32 * UInt32.ofNat prevTid
    edx := UInt32.ofNat newEsp }
  let pushed := pushRegs s.mem r.esp [r.ebp, r.ebx, r.esi, r.edi]
  let s := threadSwitch prevTid pushed.2 { s with mem := pushed.1 }
  (switchReturn s.mem newEsp r, s)

/-! ## `irq0_stub` -/

/-- The processor's part of an interrupt through an interrupt gate, `pusha` and
the call of `irq0_handler_c`. -/
def irq0Entry (img : Image) (m : Mem) (r : Regs) : Mem × Regs :=
  let trap := pushRegs m r.esp [r.eflags, r.cs, r.eip]
  let sp := UInt32.ofNat trap.2
  let saved := pushRegs trap.1 sp [r.eax, r.ecx, r.edx, r.ebx, sp, r.ebp, r.esi, r.edi]
  let called := pushRegs saved.1 (UInt32.ofNat saved.2) [img.irq0Resume]
  (called.1, { r with
    esp := UInt32.ofNat called.2
    eip := img.irq0HandlerC
    eflags := r.eflags &&& ~~~0x200 })

/-- `popa` and `iret`; `popa` drops the stack pointer that `pusha` saved. -/
def irq0Return (m : Mem) (r : Regs) : Regs :=
  let (edi, sp) := popWord m r.esp.toNat
  let (esi, sp) := popWord m sp
  let (ebp, sp) := popWord m sp
  let (_, sp) := popWord m sp
  let (ebx, sp) := popWord m sp
  let (edx, sp) := popWord m sp
  let (ecx, sp) := popWord m sp
  let (eax, sp) := popWord m sp
  let (eip, sp) := popWord m sp
  let (cs, sp) := popWord m sp
  let (eflags, sp) := popWord m sp
  { eax, ecx, edx, ebx, ebp, esi, edi, eip, cs, eflags, esp := UInt32.ofNat sp }

/-! ## The kernel -/

/-- The processor, the scheduler with the memory, and the heap, whose own `mem`
is not looked at. `live` are the pointers that callers of `kmalloc` hold, with
the sizes they asked for. -/
structure Kernel (σ : Type) where
  regs : Regs
  sched : Scheduler
  heap : Heap σ
  live : List (Nat × Nat)

namespace Kernel

variable {σ : Type}

/-- The heap with the memory as it is. -/
def heapNow (k : Kernel σ) : Heap σ := { k.heap with mem := k.sched.mem }

/-- The kernel after a call of `heap.c`. -/
def withHeap (k : Kernel σ) (h : Heap σ) (live : List (Nat × Nat)) : Kernel σ :=
  { k with sched := { k.sched with mem := h.mem }, heap := h, live }

/-- A call returns `ret`. -/
def returning (k : Kernel σ) (ret : Nat) : Kernel σ :=
  { k with regs := { k.regs with eax := UInt32.ofNat ret } }

variable (A : FrameAllocator σ) (pool : TablePool) (img : Image)

/-- `thread_create`; -1 is returned in `eax` as `0xFFFFFFFF`. -/
def create (fuel : Nat) (name : Option CString) (entry arg : Nat) (k : Kernel σ) :
    Option (Kernel σ) :=
  if entry = 0 ∨ k.sched.threadCount ≥ threadMax then some (k.returning 0xFFFFFFFF)
  else
    (kmalloc A pool fuel k.heapNow threadStackSize).map fun (stack, h) =>
      let k := k.withHeap h (allocated k.live stack threadStackSize)
      let (ret, sched) := threadCreate img.threadBootstrap.toNat name entry arg stack k.sched
      { k with sched }.returning (ret.getD 0xFFFFFFFF)

/-- The last lines of `thread_yield` and `thread_exit`: thread `nextTid` becomes
the current one. -/
def switchTo (k : Kernel σ) (prevTid nextTid : Nat) (s : Scheduler) : Kernel σ :=
  let s := { (s.modify nextTid fun t => { t with state := .running }) with currentTid := nextTid }
  let (regs, sched) := threadSwitchAsm img prevTid (s.threads nextTid).esp k.regs s
  { k with regs, sched }

/-- `thread_yield`. -/
def yield (k : Kernel σ) : Kernel σ :=
  let prevTid := k.sched.currentTid
  match findNextRunnable k.sched prevTid false with
  | none => k
  | some nextTid =>
      k.switchTo img prevTid nextTid
        (if (k.sched.threads prevTid).state = .running then
          k.sched.modify prevTid fun t => { t with state := .runnable }
        else k.sched)

/-- `thread_exit`; `none` stands for its panic. -/
def exit (k : Kernel σ) : Option (Kernel σ) :=
  let deadTid := k.sched.currentTid
  let s := k.sched.modify deadTid fun t => { t with state := .zombie }
  (findNextRunnable s deadTid false).map fun nextTid => k.switchTo img deadTid nextTid s

/-! ## Runs -/

/-- What the current thread, or an interrupt of it, does. -/
inductive Act
  | work (regs : Regs) (mem : Mem)
  | kmalloc (fuel size : Nat)
  | kfree (x : Nat × Nat)
  | krealloc (fuel : Nat) (x : Nat × Nat) (size : Nat)
  | create (fuel : Nat) (name : Option CString) (entry arg : Nat)
  | yield
  | exit
  | interrupt
  | iret

/-- The kernel after an act; `none` where a call does not return. -/
def step (k : Kernel σ) : Act → Option (Kernel σ)
  | .work regs mem => some { k with regs, sched := { k.sched with mem } }
  | .kmalloc fuel size =>
      (Kheap.kmalloc A pool fuel k.heapNow size).map fun (p, h) =>
        (k.withHeap h (allocated k.live p size)).returning p
  | .kfree x => some (k.withHeap (Kheap.kfree k.heapNow x.1) (k.live.erase x))
  | .krealloc fuel x size =>
      (Kheap.krealloc A pool fuel k.heapNow x.1 size).map fun (p, h) =>
        (k.withHeap h (reallocated k.live x p size)).returning p
  | .create fuel name entry arg => k.create A pool img fuel name entry arg
  | .yield => some (k.yield img)
  | .exit => k.exit img
  | .interrupt =>
      let (mem, regs) := irq0Entry img k.sched.mem k.regs
      some { k with regs, sched := { k.sched with mem } }
  | .iret => some { k with regs := irq0Return k.sched.mem k.regs }

/-- Where the stack of a thread ends; thread 0 has the boot stack. -/
def stackHi (k : Kernel σ) (tid : Nat) : Nat :=
  if tid = 0 then img.stackTop
  else (k.sched.threads tid).stackBase + (k.sched.threads tid).stackSize

/-- Where it begins. -/
def stackLo (k : Kernel σ) (tid : Nat) : Nat :=
  if tid = 0 then img.stackBottom else (k.sched.threads tid).stackBase

/-- Thread `tid` waits for its turn. -/
def Waiting (k : Kernel σ) (tid : Nat) : Prop :=
  tid < k.sched.threadCount ∧ tid ≠ k.sched.currentTid ∧ (k.sched.threads tid).state = .runnable

/-- The byte at `a` is in use on the stack of a thread that waits. -/
def OnWaitingStack (k : Kernel σ) (a : Nat) : Prop :=
  ∃ tid, k.Waiting tid ∧ (k.sched.threads tid).esp ≤ a ∧ a < k.stackHi img tid

/-- The current thread may store at `a`. -/
def MayStore (k : Kernel σ) (a : Nat) : Prop :=
  ¬ k.OnWaitingStack img a ∧
    (a < kheapBase ∨ k.heap.end ≤ a ∨ ∃ x ∈ k.live, x.1 ≤ a ∧ a < x.1 + x.2)

/-- The pointer was returned by `kmalloc`, and not to `thread_create`. -/
def Owned (k : Kernel σ) (x : Nat × Nat) : Prop :=
  x ∈ k.live ∧ ∀ tid < k.sched.threadCount, 0 < tid → x.1 ≠ (k.sched.threads tid).stackBase

/-- The stack of the current thread has `bytes` bytes left, and `used` in use. -/
def Room (k : Kernel σ) (bytes used : Nat) : Prop :=
  k.stackLo img k.sched.currentTid + bytes ≤ k.regs.esp.toNat ∧
    k.regs.esp.toNat + used ≤ k.stackHi img k.sched.currentTid

/-- What the code of a thread may do. -/
def Allowed (k : Kernel σ) : Act → Prop
  | .work _ mem => ∀ a, mem a ≠ k.sched.mem a → k.MayStore img a
  | .kmalloc _ size => size ≤ kheapMaxSize
  | .kfree x => k.Owned x
  | .krealloc _ x size => k.Owned x ∧ size ≤ kheapMaxSize
  | .create _ _ _ _ => True
  | .yield => k.Room img 16 4
  | .exit => k.sched.currentTid ≠ 0 ∧ k.Room img 16 4
  | .interrupt => k.Room img 48 0
  | .iret => True

end Kernel

end RoninOS.Sched
