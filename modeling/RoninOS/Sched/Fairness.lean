/-
RoninOS.Sched.Fairness — no thread waits for ever.

`find_next_runnable` takes the first runnable thread behind the current one, in
the cyclic order of the table. So the turn comes nearer to a waiting thread with
every switch to another one (`turnDistance_lt`), also when threads are created
behind the last or exit in between, and it gets there within as many switches as
the table has other entries (`bounded_waiting`).
-/
import RoninOS.Sched.Interrupts

namespace RoninOS.Sched

open RoninOS.Lib RoninOS.Kheap RoninOS.Mem

/-! ## The distance of a turn -/

/-- How many entries of the table the turn passes on its way to `tid`. -/
def turnDistance (current tid : Nat) : Nat :=
  if current < tid then tid - current else tid + threadMax - current

/-- The entry of round `i` is `i` entries away, and the unused ones if the round wraps. -/
theorem turnDistance_round {count fromTid i : Nat} (hcount : count ≤ threadMax)
    (hfrom : fromTid < count) (h1 : 1 ≤ i) (h2 : i < 1 + count) :
    turnDistance fromTid ((fromTid + i) % count) =
      if fromTid + i < count then i else i + threadMax - count := by
  by_cases hwrap : fromTid + i < count
  · rw [if_pos hwrap, Nat.mod_eq_of_lt hwrap, turnDistance, if_pos (by omega)]
    omega
  · have hmod : (fromTid + i) % count = fromTid + i - count := by
      rw [Nat.mod_eq_sub_mod (by omega), Nat.mod_eq_of_lt (by omega)]
    rw [if_neg hwrap, hmod, turnDistance, if_neg (by omega)]
    omega

/-- The thread that `find_next_runnable` returns is not behind an eligible one. -/
theorem findNextRunnable_nearest {s : Scheduler} {fromTid next tid : Nat}
    (hcount : s.threadCount ≤ threadMax) (hfrom : fromTid < s.threadCount)
    (hfind : findNextRunnable s fromTid false = some next) (htid : tid < s.threadCount)
    (helig : Eligible s fromTid tid) : turnDistance fromTid next ≤ turnDistance fromTid tid := by
  rw [findNextRunnable, if_neg (by omega)] at hfind
  rcases findNextFrom_cases s fromTid s.threadCount 1 with ⟨j, h1, h2, hj, hbefore, heq⟩ | ⟨-, heq⟩
  · rw [heq] at hfind
    obtain rfl := Option.some.inj hfind
    obtain ⟨k, hk1, hk2, rfl⟩ := exists_round hfrom htid
    have hjk : j ≤ k := Nat.not_lt.mp fun hlt => hbefore k hk1 hlt helig
    rw [turnDistance_round hcount hfrom h1 h2, turnDistance_round hcount hfrom hk1 hk2]
    split <;> split <;> omega
  · rw [heq] at hfind
    cases hfind

/-- A nearer thread's turn brings the turn nearer. -/
theorem turnDistance_lt {current next tid : Nat} (hcurrent : current < threadMax)
    (hnext : next < threadMax) (htid : tid < threadMax) (hother : next ≠ tid) (hwait : tid ≠ current)
    (hnear : turnDistance current next ≤ turnDistance current tid) :
    turnDistance next tid < turnDistance current tid := by
  unfold turnDistance at *
  split_ifs at * <;> omega

namespace Kernel

variable {σ : Type} {A : FrameAllocator σ} {pool : TablePool} {img : Image} {k k' : Kernel σ}

/-- The acts that can give the turn to another thread. -/
def Act.switches : Act → Bool
  | .yield => true
  | .exit => true
  | _ => false

/-- A switch by the current thread brings the turn nearer to every waiting thread
that it does not go to. -/
theorem SwitchFacts.nearer {next tid : Nat} {left : ThreadState} (h : SwitchFacts k k' next left)
    (hok : SchedOk k.sched) (hnext : k.Waiting next) (hwait : k.Waiting tid) (hne : next ≠ tid)
    (hnear : turnDistance k.sched.currentTid next ≤ turnDistance k.sched.currentTid tid) :
    k'.Waiting tid ∧
      turnDistance k'.sched.currentTid tid < turnDistance k.sched.currentTid tid := by
  have hcount := hok.count_le
  have hcurrent := hok.current_lt
  refine ⟨⟨h.count ▸ hwait.1, h.current ▸ Ne.symm hne, ?_⟩, ?_⟩
  · rw [h.threads_other tid (Ne.symm hne) hwait.2.1]
    exact hwait.2.2
  · rw [h.current]
    have hlt := hnext.1
    have hlt' := hwait.1
    exact turnDistance_lt (by omega) (by omega) (by omega) hne hwait.2.1 hnear

/-- An act of another thread: a waiting thread gets the turn, or it waits on and
the turn is nearer if the act was a switch. -/
theorem step_nearer (hok : k.Ok pool img) {act : Act} (hallow : k.Allowed img act)
    (hstep : k.step A pool img act = some k') {tid : Nat} (hwait : k.Waiting tid)
    (hother : k'.sched.currentTid ≠ tid) :
    k'.Waiting tid ∧ turnDistance k'.sched.currentTid tid + (if act.switches then 1 else 0)
      ≤ turnDistance k.sched.currentTid tid := by
  have hkept : StackKept img k k' → k'.Waiting tid ∧ turnDistance k'.sched.currentTid tid + 0
      ≤ turnDistance k.sched.currentTid tid := fun h =>
    ⟨(h.waiting_iff tid).mpr hwait, by rw [h.current, Nat.add_zero]⟩
  cases act with
  | work regs mem =>
      obtain rfl := Option.some.inj hstep
      exact hkept (work_kept hallow)
  | kmalloc fuel size =>
      obtain ⟨⟨p, h⟩, hrun, rfl⟩ := Option.map_eq_some_iff.mp hstep
      exact hkept ((kmalloc_spec hok hallow hrun).2.1.withRegs _)
  | kfree x =>
      obtain rfl := Option.some.inj hstep
      exact hkept (kfree_spec hok hallow).2.1
  | krealloc fuel x size =>
      obtain ⟨⟨p, h⟩, hrun, rfl⟩ := Option.map_eq_some_iff.mp hstep
      exact hkept ((krealloc_spec hok hallow.1 hallow.2 hrun).2.1.withRegs _)
  | create fuel name entry arg =>
      obtain ⟨-, h | h, -⟩ := create_spec hok hstep
      · exact hkept h
      · exact ⟨(h.waiting_iff hok.sched tid).mpr (Or.inl hwait), by rw [h.current]; exact le_refl _⟩
  | yield =>
      obtain rfl := Option.some.inj hstep
      rcases yield_spec hok.sched hallow.esp_ge with ⟨-, hnone⟩ | ⟨next, hfind, hnext, hfacts⟩
      · exact absurd hwait (hnone tid)
      · exact hfacts.nearer hok.sched hnext hwait (hfacts.current ▸ hother)
          (findNextRunnable_nearest hok.sched.count_le hok.sched.current_lt hfind hwait.1 hwait.2)
  | exit =>
      obtain ⟨k₁, next, heq, hfind, hnext, hfacts⟩ := exit_spec hok.sched hallow.1 hallow.2.esp_ge
      obtain rfl := Option.some.inj (heq.symm.trans hstep)
      refine hfacts.nearer hok.sched hnext hwait (hfacts.current ▸ hother)
        (findNextRunnable_nearest (by exact hok.sched.count_le) (by exact hok.sched.current_lt) hfind
          hwait.1 ⟨hwait.2.1, ?_⟩)
      rw [modify_of_ne _ _ _ hwait.2.1]
      exact hwait.2.2
  | interrupt => exact hkept (interrupt_spec hok hallow hstep).2
  | iret =>
      obtain rfl := Option.some.inj hstep
      exact hkept ((StackKept.refl k).withRegs _)

/-- While a thread waits, the calls that switch are fewer than its distance. -/
theorem switches_lt (hok : k.Ok pool img) {acts : List Act}
    (hallow : AllCalls (step A pool img) (Allowed img) acts k) {tid : Nat} (hwait : k.Waiting tid)
    (hnever : AllStates (step A pool img) (fun k => k.sched.currentTid ≠ tid) acts k) :
    acts.countP Act.switches < turnDistance k.sched.currentTid tid := by
  induction acts generalizing k with
  | nil =>
      have hcurrent := hok.sched.current_lt
      have hcount := hok.sched.count_le
      have hne := hwait.2.1
      rw [List.countP_nil, turnDistance]
      split <;> omega
  | cons act acts ih =>
      obtain ⟨-, k₁, hstep, hnever⟩ := hnever
      obtain ⟨hwait₁, hle⟩ := step_nearer hok hallow.1 hstep hwait hnever.head
      have hlt := ih (step_refines hok hallow.1 hstep).1 (hallow.2 k₁ hstep) hwait₁ hnever
      rw [List.countP_cons]
      omega

/-- Bounded waiting: in every run in which a waiting thread never gets the turn,
the other threads switch at most 30 times, whatever they do. -/
theorem bounded_waiting {boot : Boot σ} (hreach : k.Reached A img boot) {acts : List Act}
    (hallow : AllCalls (step A boot.pool img) (Allowed img) acts k) {tid : Nat} (hwait : k.Waiting tid)
    (hnever : AllStates (step A boot.pool img) (fun k => k.sched.currentTid ≠ tid) acts k) :
    acts.countP Act.switches ≤ threadMax - 2 := by
  have hok := hreach.ok
  have hlt := switches_lt hok hallow hwait hnever
  have hcurrent := hok.sched.current_lt
  have hcount := hok.sched.count_le
  have htid := hwait.1
  have hne := hwait.2.1
  unfold turnDistance at hlt
  split at hlt <;> omega

/-- The kernel after a second `thread_create`. -/
def exampleTwo : Kernel Nat :=
  (exampleCreated.step bumpAllocator exampleBoot.pool exampleImage exampleCreate).get (by decide)

theorem exampleTwo_reached : exampleTwo.Reached bumpAllocator exampleImage exampleBoot := by
  refine ⟨exampleHeap, [], exampleRegs, bootScheduler, [exampleCreate, exampleCreate],
    .start (Option.some_get _).symm, ⟨trivial, fun _ _ => ⟨trivial, fun _ _ => trivial⟩⟩, ?_⟩
  have hfirst : (exampleStart.step bumpAllocator exampleBoot.pool exampleImage exampleCreate)
      = some exampleCreated := exampleStart_create
  have hsecond : (exampleCreated.step bumpAllocator exampleBoot.pool exampleImage exampleCreate)
      = some exampleTwo := (Option.some_get _).symm
  rw [exampleStart] at hfirst
  rw [List.foldlM_cons, hfirst, Option.bind_eq_bind, Option.bind_some, List.foldlM_cons, hsecond]
  rfl

/-- Thread 2 waits while thread 0 yields to thread 1. -/
theorem bounded_waiting_second : [Act.yield].countP Act.switches ≤ threadMax - 2 := by
  have hroom : exampleTwo.Room exampleImage 16 4 := by
    rw [Room]
    decide
  have hwait : exampleTwo.Waiting 2 := by
    rw [Waiting]
    decide
  exact bounded_waiting exampleTwo_reached ⟨hroom, fun _ _ => trivial⟩ hwait
    ⟨by decide, exampleTwo.yield exampleImage, rfl, by show _ ≠ _; decide⟩

end Kernel

end RoninOS.Sched
