/-
RoninOS.Sched.Bootstrap — how a created thread starts.

A fresh stack holds the address of `thread_bootstrap`, which looks its entry
point and argument up in the table, under `g_current_tid`. `thread_create` wrote
them, and no later call does (`step_entry`); so whenever the new thread gets the
processor for the first time, it calls the function it was created for
(`thread_starts`).
-/
import RoninOS.Sched.Interrupts

namespace RoninOS.Sched

open RoninOS.Lib RoninOS.Kheap RoninOS.Mem

/-- The call that `thread_bootstrap` makes before `thread_exit`: the entry point
and its argument. -/
def threadBootstrap (s : Scheduler) : Nat × Nat :=
  let t := s.threads s.currentTid
  (t.entry, t.arg)

namespace Kernel

variable {σ : Type} {A : FrameAllocator σ} {pool : TablePool} {img : Image} {k k' : Kernel σ}

theorem SwitchFacts.entry_eq {next : Nat} {left : ThreadState} (h : SwitchFacts k k' next left)
    (tid : Nat) : (k'.sched.threads tid).entry = (k.sched.threads tid).entry ∧
      (k'.sched.threads tid).arg = (k.sched.threads tid).arg := by
  by_cases hnext : tid = next
  · rw [hnext, h.threads_next]
    exact ⟨rfl, rfl⟩
  · by_cases hprev : tid = k.sched.currentTid
    · rw [hprev, h.threads_prev]
      exact ⟨rfl, rfl⟩
    · rw [h.threads_other tid hnext hprev]
      exact ⟨rfl, rfl⟩

/-- No act changes what a thread was created for. -/
theorem step_entry (hok : k.Ok pool img) {act : Act} (hallow : k.Allowed img act)
    (hstep : k.step A pool img act = some k') {tid : Nat} (htid : tid < k.sched.threadCount) :
    tid < k'.sched.threadCount ∧ (k'.sched.threads tid).entry = (k.sched.threads tid).entry ∧
      (k'.sched.threads tid).arg = (k.sched.threads tid).arg := by
  have hsame : k'.sched.threads tid = k.sched.threads tid → k.sched.threadCount ≤ k'.sched.threadCount →
      tid < k'.sched.threadCount ∧ (k'.sched.threads tid).entry = (k.sched.threads tid).entry ∧
        (k'.sched.threads tid).arg = (k.sched.threads tid).arg := fun h hcount =>
    ⟨Nat.lt_of_lt_of_le htid hcount, by rw [h], by rw [h]⟩
  cases act with
  | work regs mem =>
      obtain rfl := Option.some.inj hstep
      exact hsame rfl (le_refl _)
  | kmalloc fuel size =>
      obtain ⟨⟨p, h⟩, -, rfl⟩ := Option.map_eq_some_iff.mp hstep
      exact hsame rfl (le_refl _)
  | kfree x =>
      obtain rfl := Option.some.inj hstep
      exact hsame rfl (le_refl _)
  | krealloc fuel x size =>
      obtain ⟨⟨p, h⟩, -, rfl⟩ := Option.map_eq_some_iff.mp hstep
      exact hsame rfl (le_refl _)
  | create fuel name entry arg =>
      obtain ⟨-, h | h, -⟩ := create_spec hok hstep
      · exact hsame (h.threads tid htid) h.count.ge
      · exact hsame (h.threads tid htid) (by rw [h.count]; omega)
  | yield =>
      obtain rfl := Option.some.inj hstep
      rcases yield_spec hok.sched hallow.esp_ge with ⟨heq, -⟩ | ⟨next, -, -, h⟩
      · exact hsame (by rw [heq]) (by rw [heq])
      · exact ⟨h.count ▸ htid, h.entry_eq tid⟩
  | exit =>
      obtain ⟨k₁, next, heq, -, -, h⟩ := exit_spec hok.sched hallow.1 hallow.2.esp_ge
      obtain rfl := Option.some.inj (heq.symm.trans hstep)
      exact ⟨h.count ▸ htid, h.entry_eq tid⟩
  | interrupt =>
      obtain ⟨-, h⟩ := interrupt_spec hok hallow hstep
      exact hsame (h.threads tid htid) h.count.ge
  | iret =>
      obtain rfl := Option.some.inj hstep
      exact hsame rfl (le_refl _)

theorem run_entry {acts : List Act} (hok : k.Ok pool img)
    (hallow : AllCalls (step A pool img) (Allowed img) acts k)
    (hrun : acts.foldlM (step A pool img) k = some k') {tid : Nat} (htid : tid < k.sched.threadCount) :
    (k'.sched.threads tid).entry = (k.sched.threads tid).entry ∧
      (k'.sched.threads tid).arg = (k.sched.threads tid).arg := by
  induction acts generalizing k with
  | nil =>
      obtain rfl := Option.some.inj hrun
      exact ⟨rfl, rfl⟩
  | cons act acts ih =>
      rw [List.foldlM_cons] at hrun
      obtain ⟨k₁, hstep, hrun⟩ := Option.bind_eq_some_iff.mp hrun
      obtain ⟨htid₁, hentry, harg⟩ := step_entry hok hallow.1 hstep htid
      have hrest := ih (step_refines hok hallow.1 hstep).1 (hallow.2 k₁ hstep) hrun htid₁
      exact ⟨hrest.1.trans hentry, hrest.2.trans harg⟩

/-- What `thread_create` writes into the new entry. -/
theorem threadCreate_entry (bootstrap entry arg stack : Nat) (name : Option CString) (s : Scheduler)
    (hnew : (threadCreate bootstrap name entry arg stack s).2.threadCount ≠ s.threadCount) :
    ((threadCreate bootstrap name entry arg stack s).2.threads s.threadCount).entry = entry ∧
      ((threadCreate bootstrap name entry arg stack s).2.threads s.threadCount).arg = arg := by
  unfold threadCreate at hnew ⊢
  split at hnew
  · exact absurd rfl hnew
  · split at hnew
    · exact absurd rfl hnew
    · simp only at hnew
      split at hnew
      · exact absurd rfl hnew
      · rename_i hentry hroom hstack
        simp [hentry, hroom, hstack]

theorem create_entry {fuel entry arg : Nat} {name : Option CString}
    (hrun : k.create A pool img fuel name entry arg = some k')
    (hnew : k'.sched.threadCount ≠ k.sched.threadCount) :
    (k'.sched.threads k.sched.threadCount).entry = entry ∧
      (k'.sched.threads k.sched.threadCount).arg = arg := by
  rw [create] at hrun
  split at hrun
  · obtain rfl := Option.some.inj hrun
    exact absurd rfl hnew
  · rw [Option.map_eq_some_iff] at hrun
    obtain ⟨⟨stack, h⟩, -, rfl⟩ := hrun
    exact threadCreate_entry img.threadBootstrap.toNat entry arg stack name
      { k.sched with mem := h.mem } hnew

/-- A created thread, whenever its first turn comes: it is at the start of
`thread_bootstrap` with an empty stack, and the call made there is the one that
`thread_create` was given. -/
theorem thread_starts {boot : Boot σ} (hreach : k.Reached A img boot) {fuel entry arg : Nat}
    {name : Option CString} {k₁ : Kernel σ}
    (hcreate : k.step A boot.pool img (.create fuel name entry arg) = some k₁)
    (hnew : k₁.sched.threadCount ≠ k.sched.threadCount) {acts : List Act}
    (hallow : AllCalls (step A boot.pool img) (Allowed img) acts k₁)
    (hwaits : AllCalls (step A boot.pool img)
      (fun k₂ _ => k.sched.threadCount ≠ k₂.sched.currentTid) acts k₁)
    (hrun : acts.foldlM (step A boot.pool img) k₁ = some k')
    (hturn : k'.sched.currentTid = k.sched.threadCount) :
    k'.runningContext img = freshContext img (k₁.stackHi img k.sched.threadCount) ∧
      threadBootstrap k'.sched = (entry, arg) := by
  have hok := hreach.ok
  obtain ⟨hok₁, hkept | hspawn, -⟩ := create_spec hok hcreate
  · exact absurd hkept.count hnew
  · have hwaiting := (hspawn.waiting_iff hok.sched k.sched.threadCount).mpr (Or.inr rfl)
    have hctx := @ctx_waiting _ img _ _ hwaiting
    have hkept := run_other hok₁ hallow hwaits hrun (by rw [hctx]; rfl)
    have hrunning := @ctx_running _ img _ (run_ok hok₁ hallow hrun).sched
    rw [hturn, hkept, hctx, hspawn.fresh] at hrunning
    have hlt : k.sched.threadCount < k₁.sched.threadCount := hspawn.count ▸ Nat.lt_succ_self _
    have hcall := run_entry hok₁ hallow hrun hlt
    have hentry := create_entry hcreate hnew
    refine ⟨(Option.some.inj hrunning).symm, ?_⟩
    rw [threadBootstrap, hturn]
    exact Prod.ext (hcall.1.trans hentry.1) (hcall.2.trans hentry.2)

/-- The worker that thread 0 creates calls its function when thread 0 yields. -/
theorem thread_starts_worker :
    threadBootstrap (exampleCreated.yield exampleImage).sched = (0x100500, 1) := by
  have hrun : [Act.yield].foldlM (step bumpAllocator exampleBoot.pool exampleImage) exampleCreated
      = some (exampleCreated.yield exampleImage) := rfl
  exact (thread_starts exampleStart_reached exampleStart_create (by decide)
    (by exact ⟨exampleCreated_room, fun _ _ => trivial⟩) (by exact ⟨by decide, fun _ _ => trivial⟩)
    hrun (by decide)).2

end Kernel

end RoninOS.Sched
