/-
RoninOS.Sched.Thread — the cooperative scheduler of `kernel/sched/thread.c`.

A function of the source that returns -1 returns `none` here. `kmalloc` is
called once, for a thread's stack, and its result is an argument of
`threadCreate`; so is the stack pointer that `thread_switch` saves for the
thread it leaves, which the scheduler stores and never looks at. Function
pointers are addresses, 0 for the null pointer.
-/
import RoninOS.Lib.CString
import RoninOS.Lib.Memory
import RoninOS.Lib.Word32

namespace RoninOS.Sched

open RoninOS.Lib

/-! ## State -/

/-- `THREAD_MAX`. -/
def threadMax : Nat := 32
/-- `THREAD_STACK_SIZE`. -/
def threadStackSize : Nat := 4096

/-- `enum thread_state`. -/
inductive ThreadState
  | runnable
  | running
  | zombie
  deriving DecidableEq

/-- `struct thread`. -/
structure Thread where
  esp : Nat
  stackBase : Nat
  stackSize : Nat
  state : ThreadState
  name : CString
  tid : Nat
  entry : Nat
  arg : Nat

/-- The globals of `thread.c` and the memory that holds the stacks. -/
structure Scheduler where
  threads : Nat → Thread
  threadCount : Nat
  currentTid : Nat
  preemptEnabled : Bool
  mem : Mem

/-- The table with the fields of one thread changed. -/
def Scheduler.modify (s : Scheduler) (tid : Nat) (f : Thread → Thread) : Scheduler :=
  { s with threads := Function.update s.threads tid (f (s.threads tid)) }

/-! ## Selection -/

/-- The loop of `find_next_runnable`, from round `i` on. -/
def findNextFrom (s : Scheduler) (fromTid : Nat) (allowCurrent : Bool) : Nat → Nat → Option Nat
  | 0, _ => none
  | rounds + 1, i =>
      let tid := (fromTid + i) % s.threadCount
      if allowCurrent = false ∧ tid = fromTid then
        findNextFrom s fromTid allowCurrent rounds (i + 1)
      else if (s.threads tid).state = .runnable then some tid
      else findNextFrom s fromTid allowCurrent rounds (i + 1)

/-- `find_next_runnable`. -/
def findNextRunnable (s : Scheduler) (fromTid : Nat) (allowCurrent : Bool) : Option Nat :=
  if s.threadCount = 0 then none else findNextFrom s fromTid allowCurrent s.threadCount 1

/-! ## Calls -/

/-- `sched_init`, which leaves the table behind thread 0 alone. -/
def schedInit (s : Scheduler) : Scheduler :=
  { (s.modify 0 fun _ => {
      esp := 0, stackBase := 0, stackSize := 0, state := .running
      name := ⟨ascii "main", by decide⟩, tid := 0, entry := 0, arg := 0 }) with
    threadCount := 1
    currentTid := 0
    preemptEnabled := false }

/-- `*--sp = v`. -/
def pushWord (stack : Mem × Nat) (v : Nat) : Mem × Nat :=
  (st32 stack.1 (sub32 stack.2 4) v, sub32 stack.2 4)

/-- `thread_create`, where `bootstrap` is the address of `thread_bootstrap` and
`stack` the pointer that `kmalloc` returns. -/
def threadCreate (bootstrap : Nat) (name : Option CString) (entry arg stack : Nat) (s : Scheduler) :
    Option Nat × Scheduler :=
  if entry = 0 then (none, s)
  else if s.threadCount ≥ threadMax then (none, s)
  else
    let tid := s.threadCount
    let s := s.modify tid fun t => { t with stackSize := threadStackSize, stackBase := stack }
    if stack = 0 then (none, s)
    else
      let pushed := [bootstrap, 0, 0, 0, 0].foldl pushWord (s.mem, add32 stack threadStackSize)
      let s := s.modify tid fun t => { t with
        esp := pushed.2, state := .runnable, name := name.getD ⟨ascii "thread", by decide⟩
        tid := tid, entry := entry, arg := arg }
      (some tid, { s with mem := pushed.1, threadCount := tid + 1 })

/-- `thread_switch` from thread `tid`, whose stack pointer is `esp`. -/
def threadSwitch (tid esp : Nat) (s : Scheduler) : Scheduler := s.modify tid fun t => { t with esp := esp }

/-- `thread_yield`. -/
def threadYield (esp : Nat) (s : Scheduler) : Scheduler :=
  let prevTid := s.currentTid
  match findNextRunnable s prevTid false with
  | none => s
  | some nextTid =>
      let s := if (s.threads prevTid).state = .running then
          s.modify prevTid fun t => { t with state := .runnable }
        else s
      let s := s.modify nextTid fun t => { t with state := .running }
      threadSwitch prevTid esp { s with currentTid := nextTid }

/-- `thread_exit` up to its switch; a panic is an error. -/
def threadExit (esp : Nat) (s : Scheduler) : Except String Scheduler :=
  let deadTid := s.currentTid
  let s := s.modify deadTid fun t => { t with state := .zombie }
  match findNextRunnable s deadTid false with
  | none => .error "thread_exit: no runnable thread left"
  | some nextTid =>
      let s := s.modify nextTid fun t => { t with state := .running }
      .ok (threadSwitch deadTid esp { s with currentTid := nextTid })

end RoninOS.Sched
