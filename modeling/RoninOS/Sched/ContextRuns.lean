/-
RoninOS.Sched.ContextRuns — one processor behaves as many.

A switch stores the current context on its thread's stack, as the return from
`thread_switch` would leave it, and loads the next thread's (`Switched`). With
the other acts this gives the refinement: whatever the threads do, a run of the
kernel is a run of the machine in which every thread has a context of its own
(`kernel_refines_coroutines`).
-/
import RoninOS.Lib.Runs
import RoninOS.Sched.ContextSteps

namespace RoninOS.Sched

open RoninOS.Lib RoninOS.Kheap RoninOS.Mem

namespace Kernel

variable {σ : Type} {A : FrameAllocator σ} {pool : TablePool} {img : Image} {k k' : Kernel σ}

/-! ## A switch -/

variable (k k') in
/-- The thread table, the memory and the registers after `switchTo`. -/
structure SwitchFacts (next : Nat) (left : ThreadState) : Prop where
  threads_next : k'.sched.threads next = { k.sched.threads next with state := .running }
  threads_prev : k'.sched.threads k.sched.currentTid = { k.sched.threads k.sched.currentTid with
    state := left, esp := k.regs.esp.toNat - 16 }
  threads_other : ∀ tid, tid ≠ next → tid ≠ k.sched.currentTid →
    k'.sched.threads tid = k.sched.threads tid
  count : k'.sched.threadCount = k.sched.threadCount
  current : k'.sched.currentTid = next
  heap : k'.heap = k.heap
  live : k'.live = k.live
  mem : k'.sched.mem =
    (pushRegs k.sched.mem k.regs.esp [k.regs.ebp, k.regs.ebx, k.regs.esi, k.regs.edi]).1
  regs : ∃ r, k'.regs = switchReturn k'.sched.mem (k.sched.threads next).esp r

theorem switchTo_facts {next : Nat} (hne : next ≠ k.sched.currentTid) (left : ThreadState)
    (hfit : 16 ≤ k.regs.esp.toNat) :
    SwitchFacts k (k.switchTo img k.sched.currentTid next
      (k.sched.modify k.sched.currentTid fun t => { t with state := left })) next left where
  threads_next := by simp [switchTo, threadSwitchAsm, threadSwitch, Scheduler.modify, hne]
  threads_prev := by
    have hsp : (pushRegs k.sched.mem k.regs.esp
        [k.regs.ebp, k.regs.ebx, k.regs.esi, k.regs.edi]).2 = k.regs.esp.toNat - 16 := pushRegs_sp hfit
    rw [← hsp]
    simp [switchTo, threadSwitchAsm, threadSwitch, Scheduler.modify, Ne.symm hne]
  threads_other tid hnext hprev := by
    simp [switchTo, threadSwitchAsm, threadSwitch, Scheduler.modify, hprev, hnext]
  count := rfl
  current := rfl
  heap := rfl
  live := rfl
  mem := rfl
  regs := by
    have hesp : (k.sched.threads next).esp = (((k.sched.modify k.sched.currentTid fun t =>
        { t with state := left }).modify next fun t => { t with state := .running }).threads next).esp := by
      simp [Scheduler.modify, hne]
    rw [hesp]
    exact ⟨_, rfl⟩

/-- The stacks have not moved. -/
theorem SwitchFacts.block_eq {next : Nat} {left : ThreadState} (h : SwitchFacts k k' next left)
    (tid : Nat) : (k'.sched.threads tid).stackBase = (k.sched.threads tid).stackBase ∧
      (k'.sched.threads tid).stackSize = (k.sched.threads tid).stackSize := by
  by_cases hnext : tid = next
  · rw [hnext, h.threads_next]
    exact ⟨rfl, rfl⟩
  · by_cases hprev : tid = k.sched.currentTid
    · rw [hprev, h.threads_prev]
      exact ⟨rfl, rfl⟩
    · rw [h.threads_other tid hnext hprev]
      exact ⟨rfl, rfl⟩

theorem SwitchFacts.stackLo_eq {next : Nat} {left : ThreadState} (h : SwitchFacts k k' next left)
    (tid : Nat) : k'.stackLo img tid = k.stackLo img tid := by
  rw [stackLo, stackLo, (h.block_eq tid).1]

theorem SwitchFacts.stackHi_eq {next : Nat} {left : ThreadState} (h : SwitchFacts k k' next left)
    (tid : Nat) : k'.stackHi img tid = k.stackHi img tid := by
  rw [stackHi, stackHi, (h.block_eq tid).1, (h.block_eq tid).2]

/-- Memory changes below the stack pointer only. -/
theorem SwitchFacts.mem_off {next : Nat} {left : ThreadState} (h : SwitchFacts k k' next left)
    (hfit : 16 ≤ k.regs.esp.toNat) {a : Nat}
    (ha : a < k.regs.esp.toNat - 16 ∨ k.regs.esp.toNat ≤ a) : k'.sched.mem a = k.sched.mem a := by
  rw [h.mem]
  exact @pushRegs_off _ _ [k.regs.ebp, k.regs.ebx, k.regs.esi, k.regs.edi] hfit a ha

theorem SwitchFacts.mem_own {next : Nat} {left : ThreadState} (h : SwitchFacts k k' next left)
    (hroom : k.Room img 16 4) (a : Nat)
    (ha : a < k.stackLo img k.sched.currentTid ∨ k.stackHi img k.sched.currentTid ≤ a) :
    k'.sched.mem a = k.sched.mem a := by
  obtain ⟨hlo, hhi⟩ := hroom
  exact h.mem_off (by omega) (by omega)

theorem SwitchFacts.change {next : Nat} {left : ThreadState} (h : SwitchFacts k k' next left)
    (hwait : k.Waiting next) (hleft : left ≠ .running)
    (hmain : k.sched.currentTid = 0 → left = .runnable) : SchedChange k.sched k'.sched := by
  refine .switched hwait.1 hwait.2 hleft hmain (fun tid _ => ?_) (fun tid _ => ?_) h.count h.current
  · by_cases hnext : tid = next
    · rw [hnext, h.threads_next]
    · by_cases hprev : tid = k.sched.currentTid
      · rw [hprev, h.threads_prev]
      · rw [h.threads_other tid hnext hprev]
  · by_cases hnext : tid = next
    · rw [if_pos hnext, hnext, h.threads_next]
    · rw [if_neg hnext]
      by_cases hprev : tid = k.sched.currentTid
      · rw [if_pos hprev, hprev, h.threads_prev]
      · rw [if_neg hprev, h.threads_other tid hnext hprev]

variable (img k k') in
/-- The current thread has left its context behind, in state `left`, and waiting
thread `next` has the processor. -/
structure Switched (next : Nat) (left : ThreadState) : Prop where
  waiting : k.Waiting next
  count : k'.sched.threadCount = k.sched.threadCount
  current : k'.sched.currentTid = next
  state : ∀ tid < k.sched.threadCount, (k'.sched.threads tid).state =
    if tid = next then .running else if tid = k.sched.currentTid then left
    else (k.sched.threads tid).state
  loaded : k'.runningContext img = k.savedContext img next
  stored : k'.savedContext img k.sched.currentTid = (k.runningContext img).returned
  others : ∀ tid, k.Waiting tid → tid ≠ next → k'.savedContext img tid = k.savedContext img tid

/-- A byte of the stack is popped with the return address, or stays. -/
theorem returned_eq {r : Regs} {m : Mem} {top : Nat} (hfit : r.esp.toNat + 4 ≤ top)
    (htop : top < 2 ^ 32) : (r.context m top).returned =
      { r with eip := UInt32.ofNat (ld32 m r.esp.toNat), esp := r.esp + 4 }.context m top := by
  have hesp : (r.esp + 4).toNat = r.esp.toNat + 4 := by
    rw [UInt32.toNat_add]
    exact Nat.mod_eq_of_lt (by simp only [UInt32.reduceToNat]; omega)
  have hlen : top - r.esp.toNat = 4 + (top - (r.esp.toNat + 4)) := by omega
  have hget : ∀ i < 4, (bytesAt m r.esp.toNat (top - r.esp.toNat)).getD i 0 = m (r.esp.toNat + i) := by
    intro i hi
    rw [List.getD_eq_getElem _ _ (by rw [length_bytesAt]; omega)]
    simp [bytesAt]
  refine Context.ext rfl rfl rfl rfl rfl ?_ ?_
  · simp only [Context.returned, Regs.context]
    rw [hget 0 (by decide), hget 1 (by decide), hget 2 (by decide), hget 3 (by decide)]
    rfl
  · simp only [Context.returned, Regs.context, hesp]
    rw [hlen, bytesAt_add, List.drop_left' (length_bytesAt m _ 4)]

theorem SwitchFacts.waiting_cases {next : Nat} {left : ThreadState}
    (h : SwitchFacts k k' next left) {tid : Nat} (hwait' : k'.Waiting tid) :
    tid ≠ next ∧ ((tid = k.sched.currentTid ∧ left = .runnable) ∨ k.Waiting tid) := by
  obtain ⟨hlt, hne, hstate⟩ := hwait'
  rw [h.count] at hlt
  rw [h.current] at hne
  refine ⟨hne, ?_⟩
  by_cases hprev : tid = k.sched.currentTid
  · rw [hprev, h.threads_prev] at hstate
    exact Or.inl ⟨hprev, hstate⟩
  · rw [h.threads_other tid hne hprev] at hstate
    exact Or.inr ⟨hlt, hprev, hstate⟩

/-- A switch from a stack with room keeps the invariant. -/
theorem SwitchFacts.ok {next : Nat} {left : ThreadState} (h : SwitchFacts k k' next left)
    (hok : k.Ok pool img) (hwait : k.Waiting next) (hleft : left ≠ .running)
    (hmain : k.sched.currentTid = 0 → left = .runnable) (hroom : k.Room img 16 4) :
    k'.Ok pool img where
  sched := (h.change hwait hleft hmain).ok hok.sched
  heap := by
    obtain ⟨cells, hheap, hcov⟩ := (hok.own_stack (h.mem_own hroom)).1
    refine ⟨cells, ?_, h.live ▸ hcov⟩
    have hnow : k'.heapNow = { k.heapNow with mem := k'.sched.mem } := by
      rw [heapNow, h.heap]
      rfl
    rw [hnow]
    exact hheap
  stack_live tid htid hpos := by
    rw [h.count] at htid
    rw [(h.block_eq tid).1, (h.block_eq tid).2, h.live]
    exact hok.stack_live tid htid hpos
  stack_apart tid htid other hother := by
    rw [h.count] at htid hother
    rw [(h.block_eq tid).1, (h.block_eq other).1]
    exact hok.stack_apart tid htid other hother
  frame tid hwait' := by
    rw [h.stackLo_eq, h.stackHi_eq]
    obtain ⟨hne, ⟨rfl, -⟩ | hwait'⟩ := h.waiting_cases hwait'
    · rw [h.threads_prev]
      have := hroom.1
      have := hroom.2
      simp only
      omega
    · rw [h.threads_other tid hne hwait'.2.1]
      exact hok.frame tid hwait'

/-- What a switch does to the contexts. -/
theorem SwitchFacts.switched {next : Nat} {left : ThreadState} (h : SwitchFacts k k' next left)
    (hok : k.Ok pool img) (hwait : k.Waiting next) (hroom : k.Room img 16 4) :
    Switched img k k' next left where
  waiting := hwait
  count := h.count
  current := h.current
  state tid _ := by
    by_cases hnext : tid = next
    · rw [if_pos hnext, hnext, h.threads_next]
    · rw [if_neg hnext]
      by_cases hprev : tid = k.sched.currentTid
      · rw [if_pos hprev, hprev, h.threads_prev]
      · rw [if_neg hprev, h.threads_other tid hnext hprev]
  loaded := by
    obtain ⟨r, hregs⟩ := h.regs
    rw [runningContext, savedContext, h.current, h.stackHi_eq, hregs]
    exact switchReturn_congr _ _ (hok.frame next hwait).2 (hok.frame_lt hwait)
      fun a h1 h2 => (hok.own_stack (h.mem_own hroom)).2 a ⟨next, hwait, h1, h2⟩
  stored := by
    obtain ⟨hlo, hhi⟩ := hroom
    have hlt := hok.stackHi_lt hok.sched.current_lt
    have hfour : 4 * [k.regs.ebp, k.regs.ebx, k.regs.esi, k.regs.edi].length ≤ k.regs.esp.toNat := by
      simp only [List.length_cons, List.length_nil]
      omega
    have hpush := fun i hi => h.mem ▸ @ld32_pushRegs k.sched.mem _ _ hfour i hi
    have hedi : UInt32.ofNat (ld32 k'.sched.mem (k.regs.esp.toNat - 16)) = k.regs.edi :=
      hpush 3 (by simp)
    have hesi : UInt32.ofNat (ld32 k'.sched.mem (k.regs.esp.toNat - 16 + 4)) = k.regs.esi := by
      rw [show k.regs.esp.toNat - 16 + 4 = k.regs.esp.toNat - 12 by omega]
      exact hpush 2 (by simp)
    have hebx : UInt32.ofNat (ld32 k'.sched.mem (k.regs.esp.toNat - 16 + 8)) = k.regs.ebx := by
      rw [show k.regs.esp.toNat - 16 + 8 = k.regs.esp.toNat - 8 by omega]
      exact hpush 1 (by simp)
    have hebp : UInt32.ofNat (ld32 k'.sched.mem (k.regs.esp.toNat - 16 + 12)) = k.regs.ebp := by
      rw [show k.regs.esp.toNat - 16 + 12 = k.regs.esp.toNat - 4 by omega]
      exact hpush 0 (by simp)
    have hstack : ∀ a, k.regs.esp.toNat ≤ a → k'.sched.mem a = k.sched.mem a :=
      fun a ha => h.mem_off (by omega) (Or.inr ha)
    have hesp : (k.regs.esp + 4).toNat = k.regs.esp.toNat + 4 := by
      rw [UInt32.toNat_add]
      exact Nat.mod_eq_of_lt (by simp only [UInt32.reduceToNat]; omega)
    have hsp : UInt32.ofNat (k.regs.esp.toNat - 16 + 20) = k.regs.esp + 4 := by
      rw [show k.regs.esp.toNat - 16 + 20 = (k.regs.esp + 4).toNat by omega, UInt32.ofNat_toNat]
    have heip : ld32 k'.sched.mem (k.regs.esp.toNat - 16 + 16) = ld32 k.sched.mem k.regs.esp.toNat := by
      rw [Nat.sub_add_cancel (by omega)]
      exact ld32_congr fun i _ => hstack _ (Nat.le_add_right _ _)
    rw [savedContext, h.threads_prev, h.stackHi_eq, runningContext, returned_eq hhi hlt]
    simp only
    rw [switchReturn_eq _ (by omega), hedi, hesi, hebx, hebp, hsp, heip]
    simp only [Regs.context, hesp]
    congr 1
    exact bytesAt_congr fun i _ => hstack _ (by omega)
  others tid hwait' hne := by
    refine savedContext_congr (by rw [h.threads_other tid hne hwait'.2.1]) (h.stackHi_eq tid)
      (hok.frame tid hwait').2 (hok.frame_lt hwait') fun a h1 h2 =>
        (hok.own_stack (h.mem_own hroom)).2 a ⟨tid, hwait', h1, h2⟩

/-! ## `thread_yield` and `thread_exit` -/

theorem Room.esp_ge {bytes used : Nat} (h : k.Room img bytes used) : bytes ≤ k.regs.esp.toNat :=
  Nat.le_trans (Nat.le_add_left _ _) h.1

/-- `thread_yield` switches to a waiting thread, or returns at once where none waits. -/
theorem yield_spec (hok : SchedOk k.sched) (hfit : 16 ≤ k.regs.esp.toNat) :
    (k.yield img = k ∧ ∀ tid, ¬ k.Waiting tid) ∨
      ∃ next, findNextRunnable k.sched k.sched.currentTid false = some next ∧ k.Waiting next ∧
        SwitchFacts k (k.yield img) next .runnable := by
  have hrunning := (hok.running_iff _ hok.current_lt).mpr rfl
  rw [yield]
  cases hfind : findNextRunnable k.sched k.sched.currentTid false with
  | none =>
      exact Or.inl ⟨rfl, fun tid hwait => findNextRunnable_none hok.current_lt hfind tid hwait.1 hwait.2⟩
  | some next =>
      obtain ⟨hlt, helig⟩ := findNextRunnable_some hfind
      simp only [hrunning, if_true]
      exact Or.inr ⟨next, rfl, ⟨hlt, helig⟩, switchTo_facts helig.1 .runnable hfit⟩

/-- `thread_exit` of a thread other than 0 switches to a waiting thread. -/
theorem exit_spec (hok : SchedOk k.sched) (hmain : k.sched.currentTid ≠ 0)
    (hfit : 16 ≤ k.regs.esp.toNat) :
    ∃ k' next, k.exit img = some k' ∧
      findNextRunnable (k.sched.modify k.sched.currentTid fun t => { t with state := .zombie })
        k.sched.currentTid false = some next ∧
      k.Waiting next ∧ SwitchFacts k k' next .zombie := by
  obtain ⟨s', heq, -⟩ := threadExit_change hok 0 hmain
  rw [threadExit] at heq
  rw [exit]
  simp only at heq ⊢
  cases hfind : findNextRunnable (k.sched.modify k.sched.currentTid fun t =>
      { t with state := .zombie }) k.sched.currentTid false with
  | none =>
      rw [hfind] at heq
      cases heq
  | some next =>
      obtain ⟨hlt, hne, hstate⟩ := findNextRunnable_some hfind
      rw [modify_of_ne _ _ _ hne] at hstate
      exact ⟨_, next, rfl, rfl, ⟨hlt, hne, hstate⟩, switchTo_facts hne .zombie hfit⟩

/-- A switch leaves the other threads' contexts alone, the next one's too. -/
theorem Switched.ctx_other {next : Nat} {left : ThreadState} (h : Switched img k k' next left)
    (hok : SchedOk k.sched) (hok' : SchedOk k'.sched) {tid : Nat} (hne : tid ≠ k.sched.currentTid) :
    (k'.contexts img).ctx tid = (k.contexts img).ctx tid := by
  rcases thread_cases hok tid with heq | hwait | ⟨-, hdead⟩
  · exact absurd heq hne
  · rw [ctx_waiting hwait]
    by_cases hnext : tid = next
    · subst hnext
      have hrun := @ctx_running _ img _ hok'
      rwa [h.current, h.loaded] at hrun
    · have hwait' : k'.Waiting tid := by
        refine ⟨h.count ▸ hwait.1, h.current ▸ hnext, ?_⟩
        rw [h.state tid hwait.1, if_neg hnext, if_neg hne]
        exact hwait.2.2
      rw [ctx_waiting hwait', h.others tid hwait hnext]
  · rw [ctx_dead hdead, ctx_dead]
    rw [h.count]
    rintro ⟨hlt, hlive⟩
    refine hdead ⟨hlt, ?_⟩
    rw [h.state tid hlt, if_neg hne] at hlive
    split at hlive
    · rename_i hnext
      rw [hnext, h.waiting.2.2]
      decide
    · exact hlive

/-- The contexts after `thread_yield` switched. -/
theorem Switched.yielded {next : Nat} (h : Switched img k k' next .runnable) (hok : SchedOk k.sched)
    (hok' : SchedOk k'.sched) :
    (k.contexts img).next Context.returned (.switch next) = some (k'.contexts img) := by
  have hne := h.waiting.2.1
  rw [Coroutines.next, if_pos ⟨hne, by rw [ctx_waiting h.waiting]; rfl⟩, Option.some.injEq]
  refine Coroutines.ext (funext fun tid => ?_) h.current.symm
  simp only [contexts_current, ctx_running hok]
  by_cases hcurrent : tid = k.sched.currentTid
  · subst hcurrent
    have hwait' : k'.Waiting k.sched.currentTid := by
      refine ⟨h.count ▸ hok.current_lt, h.current ▸ Ne.symm hne, ?_⟩
      rw [h.state _ hok.current_lt, if_neg (Ne.symm hne), if_pos rfl]
    rw [Function.update_self, ctx_waiting hwait', h.stored]
    rfl
  · rw [Function.update_of_ne hcurrent, h.ctx_other hok hok' hcurrent]

/-- The contexts after `thread_exit`. -/
theorem Switched.exited {next : Nat} (h : Switched img k k' next .zombie) (hok : SchedOk k.sched)
    (hok' : SchedOk k'.sched) :
    (k.contexts img).next Context.returned (.finish next) = some (k'.contexts img) := by
  have hne := h.waiting.2.1
  rw [Coroutines.next, if_pos ⟨hne, by rw [ctx_waiting h.waiting]; rfl⟩, Option.some.injEq]
  refine Coroutines.ext (funext fun tid => ?_) h.current.symm
  simp only [contexts_current]
  by_cases hcurrent : tid = k.sched.currentTid
  · subst hcurrent
    rw [Function.update_self, ctx_dead]
    rintro ⟨hlt, hlive⟩
    rw [h.state _ hok.current_lt, if_neg (Ne.symm hne), if_pos rfl] at hlive
    exact hlive rfl
  · rw [Function.update_of_ne hcurrent, h.ctx_other hok hok' hcurrent]

/-! ## Steps -/

/-- The stub's pushes go to the current stack. -/
theorem interrupt_spec (hok : k.Ok pool img) (hroom : k.Room img 48 0)
    (hstep : k.step A pool img .interrupt = some k') : k'.Ok pool img ∧ StackKept img k k' := by
  obtain ⟨hlo, hhi⟩ := hroom
  obtain rfl := Option.some.inj hstep
  have hown : ∀ a, (a < k.stackLo img k.sched.currentTid ∨ k.stackHi img k.sched.currentTid ≤ a) →
      (irq0Entry img k.sched.mem k.regs).1 a = k.sched.mem a :=
    fun a ha => irq0Entry_off img (by omega) (by omega)
  obtain ⟨hheap, hwaiting⟩ := hok.own_stack hown
  have hkept : StackKept img k { k with
      sched := { k.sched with mem := (irq0Entry img k.sched.mem k.regs).1 } } :=
    ⟨fun _ _ => rfl, rfl, rfl, hwaiting⟩
  exact ⟨(hkept.ok hok hheap fun tid htid hpos => (hok.stack_live tid htid hpos).1).withRegs _,
    hkept.withRegs _⟩

variable (img k k') in
/-- What an act of the kernel is for the machine in which every thread has a
context of its own. -/
def moves : Act → List (Move Context)
  | .yield =>
      if k'.sched.currentTid = k.sched.currentTid then [] else [.switch k'.sched.currentTid]
  | .exit => [.finish k'.sched.currentTid]
  | .create _ _ _ _ =>
      if k'.sched.threadCount = k.sched.threadCount then [.work (k'.runningContext img)]
      else
        [.spawn k.sched.threadCount (freshContext img (k'.stackHi img k.sched.threadCount)),
          .work (k'.runningContext img)]
  | _ => [.work (k'.runningContext img)]

/-- Every act keeps the invariant and is its moves. -/
theorem step_refines (hok : k.Ok pool img) {act : Act} (hallow : k.Allowed img act)
    (hstep : k.step A pool img act = some k') : k'.Ok pool img ∧
    (moves img k k' act).foldlM (Coroutines.next Context.returned) (k.contexts img)
      = some (k'.contexts img) := by
  have hwork : StackKept img k k' →
      [Move.work (k'.runningContext img)].foldlM (Coroutines.next Context.returned) (k.contexts img)
        = some (k'.contexts img) := fun hkept => by
    rw [List.foldlM_cons, hkept.contexts hok]
    rfl
  cases act with
  | work regs mem =>
      obtain rfl := Option.some.inj hstep
      exact ⟨work_ok hok hallow, hwork (work_kept hallow)⟩
  | kmalloc fuel size =>
      obtain ⟨⟨p, h⟩, hrun, rfl⟩ := Option.map_eq_some_iff.mp hstep
      obtain ⟨hok', hkept, -⟩ := kmalloc_spec hok hallow hrun
      exact ⟨hok'.withRegs _, hwork (hkept.withRegs _)⟩
  | kfree x =>
      obtain rfl := Option.some.inj hstep
      obtain ⟨hok', hkept, -⟩ := kfree_spec hok hallow
      exact ⟨hok', hwork hkept⟩
  | krealloc fuel x size =>
      obtain ⟨⟨p, h⟩, hrun, rfl⟩ := Option.map_eq_some_iff.mp hstep
      obtain ⟨hok', hkept, -⟩ := krealloc_spec hok hallow.1 hallow.2 hrun
      exact ⟨hok'.withRegs _, hwork (hkept.withRegs _)⟩
  | create fuel name entry arg =>
      obtain ⟨hok', hkept | hspawn, -⟩ := create_spec hok hstep
      · rw [moves, if_pos hkept.count]
        exact ⟨hok', hwork hkept⟩
      · rw [moves, if_neg (by rw [hspawn.count]; omega)]
        exact ⟨hok', hspawn.contexts hok hok'.sched⟩
  | yield =>
      obtain rfl := Option.some.inj hstep
      rcases yield_spec hok.sched hallow.esp_ge with ⟨heq, -⟩ | ⟨next, -, hwait, hfacts⟩
      · rw [moves, heq, if_pos rfl]
        exact ⟨hok, rfl⟩
      · have hok' := hfacts.ok hok hwait (by decide) (fun _ => rfl) hallow
        have hswitch := hfacts.switched hok hwait hallow
        rw [moves, hswitch.current, if_neg hwait.2.1, List.foldlM_cons,
          hswitch.yielded hok.sched hok'.sched]
        exact ⟨hok', rfl⟩
  | exit =>
      obtain ⟨k₁, next, heq, -, hwait, hfacts⟩ := exit_spec hok.sched hallow.1 hallow.2.esp_ge
      obtain rfl := Option.some.inj (heq.symm.trans hstep)
      have hok' := hfacts.ok hok hwait (by decide) (fun h => absurd h hallow.1) hallow.2
      have hswitch := hfacts.switched hok hwait hallow.2
      rw [moves, hswitch.current, List.foldlM_cons, hswitch.exited hok.sched hok'.sched]
      exact ⟨hok', rfl⟩
  | interrupt =>
      obtain ⟨hok', hkept⟩ := interrupt_spec hok hallow hstep
      exact ⟨hok', hwork hkept⟩
  | iret =>
      obtain rfl := Option.some.inj hstep
      exact ⟨hok.withRegs _, hwork ((StackKept.refl k).withRegs _)⟩

/-! ## Runs -/

variable (A pool img) in
/-- The moves of a run. -/
def runMoves : List Act → Kernel σ → List (Move Context)
  | [], _ => []
  | act :: acts, k =>
      match k.step A pool img act with
      | none => []
      | some k' => moves img k k' act ++ runMoves acts k'

theorem run_ok {acts : List Act} (hok : k.Ok pool img)
    (hallow : AllCalls (step A pool img) (Allowed img) acts k)
    (hrun : acts.foldlM (step A pool img) k = some k') : k'.Ok pool img :=
  hallow.invariant _ (fun _ _ _ hok hallow hstep => (step_refines hok hallow hstep).1) hok hrun

/-- A run of the kernel is the run of its moves. -/
theorem run_refines {acts : List Act} (hok : k.Ok pool img)
    (hallow : AllCalls (step A pool img) (Allowed img) acts k)
    (hrun : acts.foldlM (step A pool img) k = some k') :
    (runMoves A pool img acts k).foldlM (Coroutines.next Context.returned) (k.contexts img)
      = some (k'.contexts img) := by
  induction acts generalizing k with
  | nil =>
      obtain rfl := Option.some.inj hrun
      rfl
  | cons act acts ih =>
      rw [List.foldlM_cons] at hrun
      obtain ⟨k₁, hstep, hrun⟩ := Option.bind_eq_some_iff.mp hrun
      obtain ⟨hok₁, hmoves⟩ := step_refines hok hallow.1 hstep
      rw [runMoves, hstep, List.foldlM_append, hmoves]
      exact ih hok₁ (hallow.2 k₁ hstep) hrun

/-- The kernel after `sched_init`, with a heap that is in use. -/
def atSchedInit (regs : Regs) (before : Scheduler) (h : Heap σ) (live : List (Nat × Nat)) :
    Kernel σ where
  regs
  sched := schedInit { before with mem := h.mem }
  heap := h
  live

theorem atSchedInit_ok {boot : Boot σ} {h : Heap σ} {live : List (Nat × Nat)}
    (hreach : HeapReach A boot kheapMaxSize h live) (regs : Regs) (before : Scheduler) :
    (atSchedInit regs before h live).Ok boot.pool img where
  sched := schedInit_ok _
  heap := hreach.inv (by decide)
  stack_live tid htid hpos := absurd htid (Nat.not_lt.mpr hpos)
  stack_apart tid htid _ _ hpos := absurd htid (Nat.not_lt.mpr hpos)
  frame tid hwait := by
    obtain ⟨hlt, hne, -⟩ := hwait
    exact absurd (Nat.lt_one_iff.mp hlt) hne

variable (A img k) in
/-- The threads' calls reach the state from `sched_init`. -/
def Reached (boot : Boot σ) : Prop :=
  ∃ (h : Heap σ) (live : List (Nat × Nat)) (regs : Regs) (before : Scheduler) (acts : List Act),
    HeapReach A boot kheapMaxSize h live ∧
    AllCalls (step A boot.pool img) (Allowed img) acts (atSchedInit regs before h live) ∧
    acts.foldlM (step A boot.pool img) (atSchedInit regs before h live) = some k

theorem Reached.ok {boot : Boot σ} (h : k.Reached A img boot) : k.Ok boot.pool img := by
  obtain ⟨h, live, regs, before, acts, hreach, hallow, hrun⟩ := h
  exact run_ok (atSchedInit_ok hreach regs before) hallow hrun

/-- One processor behaves as many: whatever the threads do, the contexts change
as in the machine in which every thread has a context of its own. -/
theorem kernel_refines_coroutines {boot : Boot σ} (hreach : k.Reached A img boot) {acts : List Act}
    (hallow : AllCalls (step A boot.pool img) (Allowed img) acts k)
    (hrun : acts.foldlM (step A boot.pool img) k = some k') :
    (runMoves A boot.pool img acts k).foldlM (Coroutines.next Context.returned) (k.contexts img)
      = some (k'.contexts img) :=
  run_refines hreach.ok hallow hrun

/-! ## A kernel with a worker -/

/-- A link of the kernel. -/
def exampleImage : Image where
  threadBootstrap := 0x100100
  gThreads := 0x105000
  irq0HandlerC := 0x100200
  irq0Resume := 0x100300
  stackBottom := 0x106000
  stackTop := 0x10A000
  stack_le := by decide
  stackTop_le := by decide

/-- Thread 0 before a call. -/
def exampleRegs : Regs := ⟨1, 2, 3, 4, 0x109F00, 6, 7, 8, 0x100400, 0x10, 0x202⟩

/-- The kernel after `sched_init`. -/
def exampleStart : Kernel Nat := atSchedInit exampleRegs bootScheduler exampleHeap []

/-- Thread 0 creates a worker. -/
def exampleCreate : Act := .create 8 none 0x100500 1

/-- The kernel after the call. -/
def exampleCreated : Kernel Nat :=
  (exampleStart.step bumpAllocator exampleBoot.pool exampleImage exampleCreate).get (by decide)

theorem exampleStart_reached : exampleStart.Reached bumpAllocator exampleImage exampleBoot :=
  ⟨exampleHeap, [], exampleRegs, bootScheduler, [], .start (Option.some_get _).symm, trivial, rfl⟩

theorem exampleStart_create : exampleStart.step bumpAllocator exampleBoot.pool exampleImage
    exampleCreate = some exampleCreated := (Option.some_get _).symm

theorem exampleCreated_room : exampleCreated.Room exampleImage 16 4 := by
  rw [Room]
  decide

/-- A worker is created and gets the processor. -/
theorem kernel_refines_coroutines_worker :
    (runMoves bumpAllocator exampleBoot.pool exampleImage [exampleCreate, .yield]
      exampleStart).foldlM (Coroutines.next Context.returned) (exampleStart.contexts exampleImage)
      = some ((exampleCreated.yield exampleImage).contexts exampleImage) := by
  refine kernel_refines_coroutines exampleStart_reached ⟨trivial, fun k hstep => ?_⟩ ?_
  · obtain rfl := Option.some.inj (exampleStart_create.symm.trans hstep)
    exact ⟨exampleCreated_room, fun _ _ => trivial⟩
  · rw [List.foldlM_cons, exampleStart_create]
    rfl

end Kernel

end RoninOS.Sched
