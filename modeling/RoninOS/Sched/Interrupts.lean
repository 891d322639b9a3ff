/-
RoninOS.Sched.Interrupts — a preempted thread does not notice.

The timer interrupt pushes eleven registers on the stack of the thread it meets
(`irq0_stub`), and the handler may call `thread_yield`. `Disciplined` is what
compiled code owes its caller: the handler stores above its frame nowhere and
has its own frame below. Then the eleven words are the same when the handler
returns, in however many turns of other threads, and `popa` and `iret` load
what the interrupt saved.
-/
import RoninOS.Sched.ContextRuns

namespace RoninOS.Sched

open RoninOS.Lib RoninOS.Kheap RoninOS.Mem

namespace Kernel

variable {σ : Type} {A : FrameAllocator σ} {pool : TablePool} {img : Image} {k k' : Kernel σ}

/-! ## Kept bytes -/

/-- While thread `tid` has the processor, its code keeps its stack from `frame` on. -/
def Disciplined (img : Image) (tid frame : Nat) (k : Kernel σ) (act : Act) : Prop :=
  k.sched.currentTid = tid →
    match act with
    | .work _ mem => ∀ a, frame ≤ a → a < k.stackHi img tid → mem a = k.sched.mem a
    | .yield => k.regs.esp.toNat ≤ frame
    | .interrupt => k.regs.esp.toNat ≤ frame
    | .exit => False
    | _ => True

variable (img k) in
/-- Thread `tid` is alive, its stack ends at `top`, and the bytes from `frame` on
are those of `m`. -/
structure FrameKept (tid frame top : Nat) (m : Mem) : Prop where
  lt : tid < k.sched.threadCount
  alive : tid = k.sched.currentTid ∨ k.Waiting tid
  lo_le : k.stackLo img tid ≤ frame
  top_eq : k.stackHi img tid = top
  esp_le : k.Waiting tid → (k.sched.threads tid).esp ≤ frame
  bytes : ∀ a, frame ≤ a → a < top → k.sched.mem a = m a

/-- Acts that leave the threads and the bytes alone. -/
theorem FrameKept.same {tid frame top : Nat} {m : Mem} (h : FrameKept img k tid frame top m)
    (hthread : k'.sched.threads tid = k.sched.threads tid)
    (hcount : k.sched.threadCount ≤ k'.sched.threadCount)
    (hcurrent : k'.sched.currentTid = k.sched.currentTid)
    (hmem : ∀ a, frame ≤ a → a < top → k'.sched.mem a = k.sched.mem a) :
    FrameKept img k' tid frame top m where
  lt := Nat.lt_of_lt_of_le h.lt hcount
  alive := by
    rw [Waiting, hthread, hcurrent]
    refine h.alive.imp_right fun hwait => ⟨?_, hwait.2⟩
    exact Nat.lt_of_lt_of_le hwait.1 hcount
  lo_le := by
    rw [stackLo, hthread]
    exact h.lo_le
  top_eq := by
    rw [stackHi, hthread]
    exact h.top_eq
  esp_le hwait := by
    rw [hthread]
    refine h.esp_le ⟨h.lt, ?_, ?_⟩
    · rw [← hcurrent]
      exact hwait.2.1
    · rw [← hthread]
      exact hwait.2.2
  bytes a h1 h2 := (hmem a h1 h2).trans (h.bytes a h1 h2)

/-- A waiting thread's bytes are in use. -/
theorem FrameKept.onWaitingStack {tid frame top : Nat} {m : Mem}
    (h : FrameKept img k tid frame top m) (hne : tid ≠ k.sched.currentTid) {a : Nat}
    (h1 : frame ≤ a) (h2 : a < top) : k.OnWaitingStack img a := by
  have hwait := h.alive.resolve_left hne
  exact ⟨tid, hwait, Nat.le_trans (h.esp_le hwait) h1, h.top_eq ▸ h2⟩

theorem FrameKept.stacksSame {tid frame top : Nat} {m : Mem} (h : FrameKept img k tid frame top m)
    (hsame : StacksSame img k k') (a : Nat) (h1 : frame ≤ a) (h2 : a < top) :
    k'.sched.mem a = k.sched.mem a :=
  hsame tid h.lt a (Nat.le_trans h.lo_le h1) (h.top_eq ▸ h2)

/-- A switch, from this thread below the frame or between two others. -/
theorem FrameKept.switch {tid frame top next : Nat} {m : Mem} {left : ThreadState}
    (h : FrameKept img k tid frame top m) (hok : k.Ok pool img) (hfacts : SwitchFacts k k' next left)
    (hroom : k.Room img 16 4)
    (hown : k.sched.currentTid = tid → k.regs.esp.toNat ≤ frame ∧ left = .runnable) :
    FrameKept img k' tid frame top m where
  lt := hfacts.count ▸ h.lt
  alive := by
    by_cases hnext : tid = next
    · exact Or.inl (hnext.trans hfacts.current.symm)
    · refine Or.inr ⟨hfacts.count ▸ h.lt, hfacts.current ▸ hnext, ?_⟩
      by_cases hprev : tid = k.sched.currentTid
      · rw [hprev, hfacts.threads_prev]
        exact (hown hprev.symm).2
      · rw [hfacts.threads_other tid hnext hprev]
        exact (h.alive.resolve_left hprev).2.2
  lo_le := by
    rw [hfacts.stackLo_eq]
    exact h.lo_le
  top_eq := by
    rw [hfacts.stackHi_eq]
    exact h.top_eq
  esp_le hwait := by
    have hnext : tid ≠ next := hfacts.current ▸ hwait.2.1
    by_cases hprev : tid = k.sched.currentTid
    · have := (hown hprev.symm).1
      rw [hprev, hfacts.threads_prev]
      simp only
      omega
    · rw [hfacts.threads_other tid hnext hprev]
      exact h.esp_le (h.alive.resolve_left hprev)
  bytes a h1 h2 := by
    refine Eq.trans ?_ (h.bytes a h1 h2)
    by_cases hprev : tid = k.sched.currentTid
    · have := (hown hprev.symm).1
      exact hfacts.mem_off hroom.esp_ge (Or.inr (by omega))
    · exact (hok.own_stack (hfacts.mem_own hroom)).2 a (h.onWaitingStack hprev h1 h2)

/-- Every act of disciplined code keeps the frame. -/
theorem FrameKept.step {tid frame top : Nat} {m : Mem} (h : FrameKept img k tid frame top m)
    (hok : k.Ok pool img) {act : Act} (hallow : k.Allowed img act)
    (hdisc : Disciplined img tid frame k act) (hstep : k.step A pool img act = some k') :
    FrameKept img k' tid frame top m := by
  cases act with
  | work regs mem =>
      obtain rfl := Option.some.inj hstep
      refine h.same rfl (le_refl _) rfl fun a h1 h2 => ?_
      by_cases hcurrent : k.sched.currentTid = tid
      · exact hdisc hcurrent a h1 (h.top_eq ▸ h2)
      · exact (work_kept hallow).bytes a (h.onWaitingStack (Ne.symm hcurrent) h1 h2)
  | kmalloc fuel size =>
      obtain ⟨⟨p, h'⟩, hrun, rfl⟩ := Option.map_eq_some_iff.mp hstep
      obtain ⟨-, -, hsame⟩ := kmalloc_spec hok hallow hrun
      exact h.same rfl (le_refl _) rfl (h.stacksSame hsame)
  | kfree x =>
      obtain rfl := Option.some.inj hstep
      obtain ⟨-, -, hsame⟩ := kfree_spec hok hallow
      exact h.same rfl (le_refl _) rfl (h.stacksSame hsame)
  | krealloc fuel x size =>
      obtain ⟨⟨p, h'⟩, hrun, rfl⟩ := Option.map_eq_some_iff.mp hstep
      obtain ⟨-, -, hsame⟩ := krealloc_spec hok hallow.1 hallow.2 hrun
      exact h.same rfl (le_refl _) rfl (h.stacksSame hsame)
  | create fuel name entry arg =>
      obtain ⟨-, hkept | hspawn, hsame⟩ := create_spec hok hstep
      · exact h.same (hkept.threads tid h.lt) hkept.count.ge hkept.current (h.stacksSame hsame)
      · exact h.same (hspawn.threads tid h.lt) (by rw [hspawn.count]; omega) hspawn.current
          (h.stacksSame hsame)
  | yield =>
      obtain rfl := Option.some.inj hstep
      rcases yield_spec hok.sched hallow.esp_ge with ⟨heq, -⟩ | ⟨next, -, -, hfacts⟩
      · rwa [heq]
      · exact h.switch hok hfacts hallow fun hcurrent => ⟨hdisc hcurrent, rfl⟩
  | exit =>
      obtain ⟨k₁, next, heq, -, -, hfacts⟩ := exit_spec hok.sched hallow.1 hallow.2.esp_ge
      obtain rfl := Option.some.inj (heq.symm.trans hstep)
      exact h.switch hok hfacts hallow.2 fun hcurrent => (hdisc hcurrent).elim
  | interrupt =>
      obtain ⟨-, hkept⟩ := interrupt_spec hok hallow hstep
      refine h.same (hkept.threads tid h.lt) hkept.count.ge hkept.current fun a h1 h2 => ?_
      by_cases hcurrent : k.sched.currentTid = tid
      · have hesp : k.regs.esp.toNat ≤ frame := hdisc hcurrent
        obtain rfl := Option.some.inj hstep
        exact irq0Entry_off img hallow.esp_ge (Or.inr (by omega))
      · exact hkept.bytes a (h.onWaitingStack (Ne.symm hcurrent) h1 h2)
  | iret =>
      obtain rfl := Option.some.inj hstep
      exact h.same rfl (le_refl _) rfl fun _ _ _ => rfl

/-- Over a run of disciplined code the frame stays. -/
theorem FrameKept.run {tid frame top : Nat} {m : Mem} {acts : List Act}
    (h : FrameKept img k tid frame top m) (hok : k.Ok pool img)
    (hallow : AllCalls (Kernel.step A pool img) (Allowed img) acts k)
    (hdisc : AllCalls (Kernel.step A pool img) (Disciplined img tid frame) acts k)
    (hrun : acts.foldlM (Kernel.step A pool img) k = some k') : FrameKept img k' tid frame top m := by
  induction acts generalizing k with
  | nil =>
      obtain rfl := Option.some.inj hrun
      exact h
  | cons act acts ih =>
      rw [List.foldlM_cons] at hrun
      obtain ⟨k₁, hstep, hrun⟩ := Option.bind_eq_some_iff.mp hrun
      exact ih (h.step hok hallow.1 hdisc.1 hstep) (step_refines hok hallow.1 hstep).1
        (hallow.2 k₁ hstep) (hdisc.2 k₁ hstep) hrun

/-! ## The interrupt -/

/-- What `popa` and `iret` load from the words at `e`. -/
theorem irq0Return_eq (m : Mem) {r : Regs} (he : r.esp.toNat + 44 < 2 ^ 32) :
    irq0Return m r =
      { edi := UInt32.ofNat (ld32 m r.esp.toNat), esi := UInt32.ofNat (ld32 m (r.esp.toNat + 4))
        ebp := UInt32.ofNat (ld32 m (r.esp.toNat + 8)), ebx := UInt32.ofNat (ld32 m (r.esp.toNat + 16))
        edx := UInt32.ofNat (ld32 m (r.esp.toNat + 20)), ecx := UInt32.ofNat (ld32 m (r.esp.toNat + 24))
        eax := UInt32.ofNat (ld32 m (r.esp.toNat + 28)), eip := UInt32.ofNat (ld32 m (r.esp.toNat + 32))
        cs := UInt32.ofNat (ld32 m (r.esp.toNat + 36))
        eflags := UInt32.ofNat (ld32 m (r.esp.toNat + 40)), esp := UInt32.ofNat (r.esp.toNat + 44) } := by
  have hadd : ∀ i, i ≤ 40 → add32 (r.esp.toNat + i) 4 = r.esp.toNat + i + 4 :=
    fun i hi => add32_of_lt (by omega)
  have h0 := hadd 0 (by decide)
  rw [Nat.add_zero] at h0
  simp only [irq0Return, popWord, h0, Nat.add_assoc, Nat.reduceAdd, hadd 4 (by decide),
    hadd 8 (by decide), hadd 12 (by decide), hadd 16 (by decide), hadd 20 (by decide),
    hadd 24 (by decide), hadd 28 (by decide), hadd 32 (by decide), hadd 36 (by decide),
    hadd 40 (by decide)]

/-- The stub's two halves undo each other, where the eleven words are as the first
left them and the handler has popped its return address. -/
theorem irq0Return_entry (img : Image) {m m' : Mem} {r r' : Regs} (hfit : 48 ≤ r.esp.toNat)
    (hesp : r'.esp.toNat = r.esp.toNat - 44)
    (hmem : ∀ a, r.esp.toNat - 44 ≤ a → a < r.esp.toNat → m' a = (irq0Entry img m r).1 a) :
    irq0Return m' r' = r := by
  have hlt := r.esp.toNat_lt
  obtain ⟨pushed, hpushed, heq⟩ := @irq0Entry_eq img m r hfit
  rw [heq] at hmem
  have hlen : 4 * [r.eflags, r.cs, r.eip, r.eax, r.ecx, r.edx, r.ebx,
      UInt32.ofNat (r.esp.toNat - 12), r.ebp, r.esi, r.edi, img.irq0Resume].length
        ≤ r.esp.toNat := hfit
  -- the word pushed `i`-th lies `40 - 4 * i` bytes above the stack pointer
  have hword : ∀ i < 11, UInt32.ofNat (ld32 m' (r'.esp.toNat + (40 - 4 * i))) =
      [r.eflags, r.cs, r.eip, r.eax, r.ecx, r.edx, r.ebx, UInt32.ofNat (r.esp.toNat - 12), r.ebp,
        r.esi, r.edi, img.irq0Resume].getD i 0 := by
    intro i hi
    have hpush := @ld32_pushRegs m _ _ hlen i (Nat.lt_trans hi (by simp))
    have haddr : r'.esp.toNat + (40 - 4 * i) = r.esp.toNat - 4 * (i + 1) := by omega
    have hkept : ld32 m' (r.esp.toNat - 4 * (i + 1)) = ld32 pushed.1 (r.esp.toNat - 4 * (i + 1)) :=
      ld32_congr fun j _ => hmem _ (by omega) (by omega)
    rw [haddr, hkept, hpushed, List.getD_eq_getElem]
    exact hpush
  have hsp : UInt32.ofNat (r'.esp.toNat + 44) = r.esp := by
    rw [hesp, Nat.sub_add_cancel (by omega), UInt32.ofNat_toNat]
  rw [irq0Return_eq _ (by omega), hsp]
  exact Regs.ext (hword 3 (by decide)) (hword 4 (by decide)) (hword 5 (by decide))
    (hword 6 (by decide)) rfl (hword 8 (by decide)) (hword 9 (by decide)) (hword 10 (by decide))
    (hword 2 (by decide)) (hword 1 (by decide)) (hword 0 (by decide))

theorem step_interrupt : k.step A pool img .interrupt = some { k with
    regs := (irq0Entry img k.sched.mem k.regs).2
    sched := { k.sched with mem := (irq0Entry img k.sched.mem k.regs).1 } } := rfl

/-- A thread that waits keeps its context while others have the processor. -/
theorem step_other (hok : k.Ok pool img) {act : Act} (hallow : k.Allowed img act)
    (hstep : k.step A pool img act = some k') {tid : Nat} (hne : tid ≠ k.sched.currentTid)
    (hlive : ((k.contexts img).ctx tid).isSome) :
    (k'.contexts img).ctx tid = (k.contexts img).ctx tid := by
  refine Coroutines.run_other (step_refines hok hallow hstep).2 ?_ hlive
  cases act with
  | create fuel name entry arg =>
      rw [moves]
      split
      · exact ⟨hne, fun _ _ => trivial⟩
      · refine ⟨hne, fun s hnext => ⟨?_, fun _ _ => trivial⟩⟩
        rw [Coroutines.next] at hnext
        split at hnext
        · rw [← Option.some.inj hnext]
          exact hne
        · cases hnext
  | yield =>
      rw [moves]
      split
      · exact trivial
      · exact ⟨hne, fun _ _ => trivial⟩
  | work regs mem => exact ⟨hne, fun _ _ => trivial⟩
  | kmalloc fuel size => exact ⟨hne, fun _ _ => trivial⟩
  | kfree x => exact ⟨hne, fun _ _ => trivial⟩
  | krealloc fuel x size => exact ⟨hne, fun _ _ => trivial⟩
  | exit => exact ⟨hne, fun _ _ => trivial⟩
  | interrupt => exact ⟨hne, fun _ _ => trivial⟩
  | iret => exact ⟨hne, fun _ _ => trivial⟩

theorem run_other {acts : List Act} (hok : k.Ok pool img)
    (hallow : AllCalls (Kernel.step A pool img) (Allowed img) acts k) {tid : Nat}
    (hwaits : AllCalls (Kernel.step A pool img) (fun k _ => tid ≠ k.sched.currentTid) acts k)
    (hrun : acts.foldlM (Kernel.step A pool img) k = some k')
    (hlive : ((k.contexts img).ctx tid).isSome) :
    (k'.contexts img).ctx tid = (k.contexts img).ctx tid := by
  induction acts generalizing k with
  | nil =>
      obtain rfl := Option.some.inj hrun
      rfl
  | cons act acts ih =>
      rw [List.foldlM_cons] at hrun
      obtain ⟨k₁, hstep, hrun⟩ := Option.bind_eq_some_iff.mp hrun
      have hkept := step_other hok hallow.1 hstep hwaits.1 hlive
      exact (ih (step_refines hok hallow.1 hstep).1 (hallow.2 k₁ hstep) (hwaits.2 k₁ hstep) hrun
        (hkept ▸ hlive)).trans hkept

/-- A thread that yielded goes on, when its turn comes, as if `thread_switch` had
only returned: with its registers, its return address and its stack. -/
theorem thread_resumes {boot : Boot σ} (hreach : k.Reached A img boot) (hroom : k.Room img 16 4)
    {acts : List Act}
    (hallow : AllCalls (Kernel.step A boot.pool img) (Allowed img) acts (k.yield img))
    (hleft : (k.yield img).sched.currentTid ≠ k.sched.currentTid)
    (hwaits : AllCalls (Kernel.step A boot.pool img)
      (fun k₁ _ => k.sched.currentTid ≠ k₁.sched.currentTid) acts (k.yield img))
    (hrun : acts.foldlM (Kernel.step A boot.pool img) (k.yield img) = some k')
    (hback : k'.sched.currentTid = k.sched.currentTid) :
    k'.runningContext img = (k.runningContext img).returned := by
  have hok := hreach.ok
  rcases yield_spec hok.sched hroom.esp_ge with ⟨heq, -⟩ | ⟨next, -, hwait, hfacts⟩
  · exact absurd (congrArg (·.sched.currentTid) heq) hleft
  · have hok' := hfacts.ok hok hwait (by decide) (fun _ => rfl) hroom
    have hswitch := hfacts.switched hok hwait hroom
    have hwaiting : (k.yield img).Waiting k.sched.currentTid := by
      refine ⟨hfacts.count ▸ hok.sched.current_lt, Ne.symm hleft, ?_⟩
      rw [hfacts.threads_prev]
    have hctx := @ctx_waiting _ img _ _ hwaiting
    rw [hswitch.stored] at hctx
    have hkept := run_other hok' hallow hwaits hrun (by rw [hctx]; rfl)
    have hrunning := @ctx_running _ img _ (run_ok hok' hallow hrun).sched
    rw [hback, hkept, hctx] at hrunning
    exact (Option.some.inj hrunning).symm

theorem exampleCreated_reached :
    exampleCreated.Reached bumpAllocator exampleImage exampleBoot := by
  refine ⟨exampleHeap, [], exampleRegs, bootScheduler, [exampleCreate],
    .start (Option.some_get _).symm, ⟨trivial, fun _ _ => trivial⟩, ?_⟩
  rw [List.foldlM_cons]
  exact congrArg (· >>= _) exampleStart_create

/-- The worker after thread 0 yielded, once it has pushed a frame. -/
def exampleWorker : Kernel Nat :=
  let k := exampleCreated.yield exampleImage
  { k with regs := { k.regs with esp := k.regs.esp - 32 } }

/-- What brings the worker there, and its own call of `thread_yield`. -/
def exampleWork : List Act := [.work exampleWorker.regs exampleWorker.sched.mem, .yield]

theorem exampleWork_run : exampleWork.foldlM (Kernel.step bumpAllocator exampleBoot.pool exampleImage)
    (exampleCreated.yield exampleImage) = some (exampleWorker.yield exampleImage) := rfl

theorem exampleWork_allowed : AllCalls (Kernel.step bumpAllocator exampleBoot.pool exampleImage)
    (Allowed exampleImage) exampleWork (exampleCreated.yield exampleImage) := by
  refine ⟨fun a hne => absurd rfl hne, fun k hstep => ?_⟩
  obtain rfl := Option.some.inj hstep
  refine ⟨?_, fun _ _ => trivial⟩
  show exampleWorker.Room exampleImage 16 4
  rw [Room]
  decide

/-- Thread 0 goes on after the worker has yielded. -/
theorem thread_resumes_main :
    (exampleWorker.yield exampleImage).runningContext exampleImage
      = (exampleCreated.runningContext exampleImage).returned := by
  refine thread_resumes exampleCreated_reached exampleCreated_room exampleWork_allowed (by decide)
    ⟨by decide, fun k hstep => ?_⟩ exampleWork_run (by decide)
  obtain rfl := Option.some.inj hstep
  exact ⟨by decide, fun _ _ => trivial⟩

/-- An interrupted thread does not notice: where the handler's code is
disciplined, the stub's return gives it all its registers back, whatever other
threads did in between. -/
theorem interrupted_thread_resumes {boot : Boot σ} (hreach : k.Reached A img boot)
    (hroom : k.Room img 48 0) {k₁ : Kernel σ}
    (hentry : k.step A boot.pool img .interrupt = some k₁) {acts : List Act}
    (hallow : AllCalls (Kernel.step A boot.pool img) (Allowed img) acts k₁)
    (hdisc : AllCalls (Kernel.step A boot.pool img)
      (Disciplined img k.sched.currentTid (k.regs.esp.toNat - 44)) acts k₁)
    (hrun : acts.foldlM (Kernel.step A boot.pool img) k₁ = some k')
    (hesp : k'.regs.esp.toNat = k.regs.esp.toNat - 44) :
    k'.step A boot.pool img .iret = some { k' with regs := k.regs } ∧
      ∀ a, k.regs.esp.toNat ≤ a → a < k.stackHi img k.sched.currentTid →
        k'.sched.mem a = k.sched.mem a := by
  have hok := hreach.ok
  have hlt := hok.stackHi_lt hok.sched.current_lt
  have hfit := hroom.esp_ge
  obtain ⟨hlo, hhi⟩ := hroom
  obtain ⟨hok₁, hkept⟩ := interrupt_spec hok ⟨hlo, hhi⟩ hentry
  have hmem₁ : k₁.sched.mem = (irq0Entry img k.sched.mem k.regs).1 := by
    rw [step_interrupt] at hentry
    rw [← Option.some.inj hentry]
  have hframe : FrameKept img k₁ k.sched.currentTid (k.regs.esp.toNat - 44)
      (k.stackHi img k.sched.currentTid) (irq0Entry img k.sched.mem k.regs).1 :=
    { lt := hkept.count ▸ hok.sched.current_lt
      alive := Or.inl hkept.current.symm
      lo_le := by
        rw [hkept.stackLo_eq hok.sched.current_lt]
        omega
      top_eq := hkept.stackHi_eq hok.sched.current_lt
      esp_le := fun hwait => absurd hkept.current.symm hwait.2.1
      bytes := fun a _ _ => by rw [hmem₁] }
  have hbytes := (hframe.run hok₁ hallow hdisc hrun).bytes
  have hpop : irq0Return k'.sched.mem k'.regs = k.regs :=
    irq0Return_entry img hfit hesp fun a h1 h2 => hbytes a h1 (by omega)
  refine ⟨?_, fun a h1 h2 => ?_⟩
  · rw [Kernel.step, hpop]
  · rw [hbytes a (by omega) h2]
    exact irq0Entry_off img hfit (Or.inr h1)

/-- Thread 0 at the call of the handler. -/
def exampleInterrupted : Kernel Nat :=
  (exampleCreated.step bumpAllocator exampleBoot.pool exampleImage .interrupt).get rfl

/-- The handler yields to the worker, which pushes a frame. -/
def examplePreempting : Kernel Nat :=
  let k := exampleInterrupted.yield exampleImage
  { k with regs := { k.regs with esp := k.regs.esp - 32 } }

/-- Thread 0 is preempted, and has its registers again after the worker's turn. -/
theorem interrupted_thread_resumes_main :
    ((examplePreempting.yield exampleImage).step bumpAllocator exampleBoot.pool exampleImage
      .iret).map (·.regs) = some exampleCreated.regs := by
  have hroom : exampleInterrupted.Room exampleImage 16 4 := by
    rw [Room]
    decide
  have hroom' : examplePreempting.Room exampleImage 16 4 := by
    rw [Room]
    decide
  have hrun : [Act.yield, .work examplePreempting.regs examplePreempting.sched.mem, .yield].foldlM
      (Kernel.step bumpAllocator exampleBoot.pool exampleImage) exampleInterrupted
        = some (examplePreempting.yield exampleImage) := rfl
  have hres := interrupted_thread_resumes exampleCreated_reached (by rw [Room]; decide) rfl ?_ ?_ hrun
    (by decide)
  · rw [hres.1]
    rfl
  · refine ⟨hroom, fun k hstep => ?_⟩
    obtain rfl := Option.some.inj hstep
    refine ⟨fun a hne => absurd rfl hne, fun k hstep => ?_⟩
    obtain rfl := Option.some.inj hstep
    exact ⟨hroom', fun _ _ => trivial⟩
  · refine ⟨fun _ => by decide, fun k hstep => ?_⟩
    obtain rfl := Option.some.inj hstep
    refine ⟨fun h => absurd h (by decide), fun k hstep => ?_⟩
    obtain rfl := Option.some.inj hstep
    exact ⟨fun h => absurd h (by decide), fun _ _ => trivial⟩

end Kernel

end RoninOS.Sched
