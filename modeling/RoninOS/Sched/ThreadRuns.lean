/-
RoninOS.Sched.ThreadRuns — the scheduler over all runs.

`find_next_runnable` returns the first runnable thread behind the current one,
in cyclic order. `SchedOk` is the invariant: the one running thread is the
current one, every thread knows its index, and thread 0 has not exited. It
gives every exiting thread another one to switch to, thread 0 at the latest.
-/
import RoninOS.Sched.Thread
import Mathlib.Logic.Relation

namespace RoninOS.Sched

open RoninOS.Lib
open Relation

/-! ## The table -/

section Modify

variable (s : Scheduler) (tid : Nat) (f : Thread → Thread)

@[simp] theorem modify_self : (s.modify tid f).threads tid = f (s.threads tid) :=
  Function.update_self ..

@[simp] theorem modify_of_ne {k : Nat} (h : k ≠ tid) :
    (s.modify tid f).threads k = s.threads k := Function.update_of_ne h ..

@[simp] theorem modify_threadCount : (s.modify tid f).threadCount = s.threadCount := rfl

@[simp] theorem modify_currentTid : (s.modify tid f).currentTid = s.currentTid := rfl

end Modify

/-! ## Selection -/

/-- Thread `tid` may be switched to from `fromTid`. -/
def Eligible (s : Scheduler) (fromTid tid : Nat) : Prop :=
  tid ≠ fromTid ∧ (s.threads tid).state = .runnable

/-- The loop finds the first eligible thread of the rounds left. -/
theorem findNextFrom_cases (s : Scheduler) (fromTid rounds i : Nat) :
    (∃ j, i ≤ j ∧ j < i + rounds ∧ Eligible s fromTid ((fromTid + j) % s.threadCount) ∧
      (∀ k, i ≤ k → k < j → ¬ Eligible s fromTid ((fromTid + k) % s.threadCount)) ∧
      findNextFrom s fromTid false rounds i = some ((fromTid + j) % s.threadCount)) ∨
    ((∀ k, i ≤ k → k < i + rounds → ¬ Eligible s fromTid ((fromTid + k) % s.threadCount)) ∧
      findNextFrom s fromTid false rounds i = none) := by
  induction rounds generalizing i with
  | zero => exact Or.inr ⟨fun k h1 h2 => by omega, rfl⟩
  | succ rounds ih =>
      by_cases hfirst : Eligible s fromTid ((fromTid + i) % s.threadCount)
      · refine Or.inl ⟨i, le_refl _, by omega, hfirst, fun k h1 h2 => by omega, ?_⟩
        simp [findNextFrom, hfirst.1, hfirst.2]
      · have hnext : findNextFrom s fromTid false (rounds + 1) i
            = findNextFrom s fromTid false rounds (i + 1) := by
          rw [findNextFrom]
          split
          · rfl
          · rename_i hne
            rw [if_neg fun hrun => hfirst ⟨fun heq => hne ⟨rfl, heq⟩, hrun⟩]
        -- round `i` selects nothing, so the others decide
        have hskip : ∀ k, i ≤ k → (i + 1 ≤ k → ¬ Eligible s fromTid ((fromTid + k) % s.threadCount)) →
            ¬ Eligible s fromTid ((fromTid + k) % s.threadCount) := by
          intro k hk hlater
          rcases Nat.eq_or_lt_of_le hk with rfl | hlt
          · exact hfirst
          · exact hlater hlt
        rw [hnext]
        rcases ih (i + 1) with ⟨j, h1, h2, helig, hbefore, heq⟩ | ⟨hnone, heq⟩
        · exact Or.inl ⟨j, by omega, by omega, helig,
            fun k hk hlt => hskip k hk fun hk' => hbefore k hk' hlt, heq⟩
        · exact Or.inr ⟨fun k hk hlt => hskip k hk fun hk' => hnone k hk' (by omega), heq⟩

/-- `find_next_runnable` returns an eligible thread. -/
theorem findNextRunnable_some {s : Scheduler} {fromTid tid : Nat}
    (h : findNextRunnable s fromTid false = some tid) :
    tid < s.threadCount ∧ Eligible s fromTid tid := by
  unfold findNextRunnable at h
  split at h
  · simp at h
  · rename_i hpos
    rcases findNextFrom_cases s fromTid s.threadCount 1 with ⟨j, -, -, helig, -, heq⟩ | ⟨-, heq⟩
    · rw [heq] at h
      obtain rfl := Option.some.inj h
      exact ⟨Nat.mod_lt _ (Nat.pos_of_ne_zero hpos), helig⟩
    · simp [heq] at h

/-- The rounds of `find_next_runnable` reach every other thread. -/
theorem exists_round {count fromTid tid : Nat} (hfrom : fromTid < count) (htid : tid < count) :
    ∃ k, 1 ≤ k ∧ k < 1 + count ∧ (fromTid + k) % count = tid := by
  by_cases hlt : fromTid < tid
  · exact ⟨tid - fromTid, by omega, by omega, by rw [show fromTid + (tid - fromTid) = tid by omega,
      Nat.mod_eq_of_lt htid]⟩
  · refine ⟨tid + count - fromTid, by omega, by omega, ?_⟩
    rw [show fromTid + (tid + count - fromTid) = tid + count by omega, Nat.add_mod_right,
      Nat.mod_eq_of_lt htid]

/-- Where `find_next_runnable` finds nothing, no other thread is runnable. -/
theorem findNextRunnable_none {s : Scheduler} {fromTid : Nat} (hfrom : fromTid < s.threadCount)
    (h : findNextRunnable s fromTid false = none) :
    ∀ tid < s.threadCount, ¬ Eligible s fromTid tid := by
  intro tid htid
  rw [findNextRunnable, if_neg (by omega)] at h
  rcases findNextFrom_cases s fromTid s.threadCount 1 with ⟨j, -, -, -, -, heq⟩ | ⟨hnone, -⟩
  · simp [heq] at h
  · obtain ⟨k, h1, h2, rfl⟩ := exists_round hfrom htid
    exact hnone k h1 h2

/-! ## The invariant -/

/-- Exactly one thread runs, the current one; every thread's `tid` is its index;
thread 0 is alive. -/
structure SchedOk (s : Scheduler) : Prop where
  count_le : s.threadCount ≤ threadMax
  current_lt : s.currentTid < s.threadCount
  running_iff : ∀ tid < s.threadCount, (s.threads tid).state = .running ↔ tid = s.currentTid
  tid_eq : ∀ tid < s.threadCount, (s.threads tid).tid = tid
  main_alive : (s.threads 0).state = .running ∨ (s.threads 0).state = .runnable

theorem schedInit_ok (s : Scheduler) : SchedOk (schedInit s) where
  count_le := show 1 ≤ threadMax by decide
  current_lt := Nat.one_pos
  running_iff tid htid := by
    obtain rfl : tid = 0 := Nat.lt_one_iff.mp htid
    simp [schedInit]
  tid_eq tid htid := by
    obtain rfl : tid = 0 := Nat.lt_one_iff.mp htid
    simp [schedInit]
  main_alive := by simp [schedInit]

/-- The threads of `s` have the states and indices in `s'` that they had. -/
def SameThreads (s s' : Scheduler) : Prop :=
  ∀ tid < s.threadCount,
    (s'.threads tid).state = (s.threads tid).state ∧ (s'.threads tid).tid = (s.threads tid).tid

/-- Everything a call can do to the states of the threads. -/
inductive SchedChange (s s' : Scheduler) : Prop
  | none : SameThreads s s' → s'.threadCount = s.threadCount → s'.currentTid = s.currentTid →
      SchedChange s s'
  | created : SameThreads s s' → s.threadCount < threadMax → s'.threadCount = s.threadCount + 1 →
      s'.currentTid = s.currentTid → (s'.threads s.threadCount).state = .runnable →
      (s'.threads s.threadCount).tid = s.threadCount → SchedChange s s'
  | switched {next : Nat} {left : ThreadState} : next < s.threadCount →
      Eligible s s.currentTid next → left ≠ .running → (s.currentTid = 0 → left = .runnable) →
      (∀ tid < s.threadCount, (s'.threads tid).tid = (s.threads tid).tid) →
      (∀ tid < s.threadCount, (s'.threads tid).state =
        if tid = next then .running else if tid = s.currentTid then left
        else (s.threads tid).state) →
      s'.threadCount = s.threadCount → s'.currentTid = next → SchedChange s s'

theorem threadCreate_change (bootstrap : Nat) (name : Option CString) (entry arg stack : Nat)
    (s : Scheduler) : SchedChange s (threadCreate bootstrap name entry arg stack s).2 := by
  have hbehind : ∀ tid < s.threadCount, tid ≠ s.threadCount := fun tid h => by omega
  unfold threadCreate
  split
  · exact .none (fun _ _ => ⟨rfl, rfl⟩) rfl rfl
  · split
    · exact .none (fun _ _ => ⟨rfl, rfl⟩) rfl rfl
    · rename_i hroom
      dsimp only
      split
      · refine .none (fun tid htid => ?_) rfl rfl
        simp [hbehind tid htid]
      · refine .created (fun tid htid => ?_) (Nat.not_le.mp hroom) rfl rfl (by simp) (by simp)
        simp [hbehind tid htid]

/-- The threads after a switch that leaves the current one in state `left`. -/
theorem switched_threads {s : Scheduler} {next : Nat} (hne : next ≠ s.currentTid)
    (left : ThreadState) (esp tid : Nat) :
    let s₁ := s.modify s.currentTid fun t => { t with state := left }
    let s' := threadSwitch s.currentTid esp
      { (s₁.modify next fun t => { t with state := .running }) with currentTid := next }
    (s'.threads tid).tid = (s.threads tid).tid ∧
      (s'.threads tid).state = if tid = next then .running
        else if tid = s.currentTid then left else (s.threads tid).state := by
  by_cases hcurrent : tid = s.currentTid
  · subst hcurrent
    simp [threadSwitch, Scheduler.modify, Ne.symm hne]
  · by_cases hnext : tid = next
    · subst hnext
      simp [threadSwitch, Scheduler.modify, hne]
    · simp [threadSwitch, Scheduler.modify, hcurrent, hnext]

theorem threadYield_change {s : Scheduler} (hok : SchedOk s) (esp : Nat) :
    SchedChange s (threadYield esp s) := by
  have hrunning := (hok.running_iff _ hok.current_lt).mpr rfl
  unfold threadYield
  dsimp only
  cases hfind : findNextRunnable s s.currentTid false with
  | none => exact .none (fun _ _ => ⟨rfl, rfl⟩) rfl rfl
  | some next =>
      obtain ⟨hlt, helig⟩ := findNextRunnable_some hfind
      rw [if_pos hrunning]
      have hthreads := switched_threads (s := s) helig.1 .runnable esp
      exact .switched hlt helig (by decide) (fun _ => rfl) (fun tid _ => (hthreads tid).1)
        (fun tid _ => (hthreads tid).2) rfl rfl

/-- `thread_exit` of a thread other than 0 switches to another one. -/
theorem threadExit_change {s : Scheduler} (hok : SchedOk s) (esp : Nat) (hmain : s.currentTid ≠ 0) :
    ∃ s', threadExit esp s = .ok s' ∧ SchedChange s s' := by
  have heligible : ∀ tid, Eligible (s.modify s.currentTid fun t => { t with state := .zombie })
      s.currentTid tid ↔ Eligible s s.currentTid tid := by
    intro tid
    by_cases h : tid = s.currentTid
    · simp [Eligible, h]
    · simp [Eligible, h]
  unfold threadExit
  dsimp only
  cases hfind : findNextRunnable (s.modify s.currentTid fun t => { t with state := .zombie })
      s.currentTid false with
  | none =>
      -- thread 0 is alive and not current, so it is runnable
      have hlt := hok.current_lt
      have hpos : 0 < s.threadCount := by omega
      have hnot : (s.threads 0).state ≠ .running := fun h =>
        hmain ((hok.running_iff 0 hpos).mp h).symm
      have hzero : Eligible s s.currentTid 0 :=
        ⟨fun h => hmain h.symm, hok.main_alive.resolve_left hnot⟩
      have hnone := findNextRunnable_none (by exact hok.current_lt) hfind
      exact absurd ((heligible 0).mpr hzero) (hnone 0 hpos)
  | some next =>
      obtain ⟨hlt, helig⟩ := findNextRunnable_some hfind
      have hthreads := switched_threads (s := s) helig.1 .zombie esp
      exact ⟨_, rfl, .switched hlt ((heligible next).mp helig) (by decide)
        (fun h => absurd h hmain) (fun tid _ => (hthreads tid).1)
        (fun tid _ => (hthreads tid).2) rfl rfl⟩

/-- Every change keeps the invariant. -/
theorem SchedChange.ok {s s' : Scheduler} (h : SchedChange s s') (hok : SchedOk s) : SchedOk s' := by
  have hcurrent := hok.current_lt
  have hcount := hok.count_le
  have hpos : 0 < s.threadCount := by omega
  cases h with
  | none hsame hcount' hcurrent' =>
      refine ⟨by omega, by omega, fun tid htid => ?_, fun tid htid => ?_, ?_⟩
      · rw [(hsame tid (by omega)).1, hcurrent']
        exact hok.running_iff tid (by omega)
      · rw [(hsame tid (by omega)).2]
        exact hok.tid_eq tid (by omega)
      · rw [(hsame 0 hpos).1]
        exact hok.main_alive
  | created hsame hroom hcount' hcurrent' hstate htid' =>
      refine ⟨by omega, by omega, fun tid htid => ?_, fun tid htid => ?_, ?_⟩
      · rw [hcurrent']
        rcases Nat.lt_succ_iff_lt_or_eq.mp (hcount' ▸ htid) with hlt | rfl
        · rw [(hsame tid hlt).1]
          exact hok.running_iff tid hlt
        · simp only [hstate, reduceCtorEq, false_iff]
          omega
      · rcases Nat.lt_succ_iff_lt_or_eq.mp (hcount' ▸ htid) with hlt | rfl
        · rw [(hsame tid hlt).2]
          exact hok.tid_eq tid hlt
        · exact htid'
      · rw [(hsame 0 hpos).1]
        exact hok.main_alive
  | @switched next left hnext helig hleft hmain htids hstates hcount' hcurrent' =>
      refine ⟨by omega, by omega, fun tid htid => ?_, fun tid htid => ?_, ?_⟩
      · rw [hstates tid (by omega), hcurrent']
        split
        · simp_all
        · rename_i hne
          split
          · simp_all
          · rename_i hother
            rw [hok.running_iff tid (by omega)]
            simp [hne, hother]
      · rw [htids tid (by omega)]
        exact hok.tid_eq tid (by omega)
      · rw [hstates 0 hpos]
        split
        · exact Or.inl rfl
        · split
          · rename_i hzero
            exact Or.inr (hmain hzero.symm)
          · exact hok.main_alive

/-- A zombie stays one. -/
theorem SchedChange.zombie {s s' : Scheduler} (h : SchedChange s s') (hok : SchedOk s) {tid : Nat}
    (htid : tid < s.threadCount) (hzombie : (s.threads tid).state = .zombie) :
    tid < s'.threadCount ∧ (s'.threads tid).state = .zombie := by
  cases h with
  | none hsame hcount' _ => exact ⟨by omega, by rw [(hsame tid htid).1, hzombie]⟩
  | created hsame _ hcount' _ _ _ => exact ⟨by omega, by rw [(hsame tid htid).1, hzombie]⟩
  | @switched next left _ helig _ _ _ hstates hcount' _ =>
      have hnext : tid ≠ next := by
        rintro rfl
        simp [helig.2] at hzombie
      have hother : tid ≠ s.currentTid := by
        intro heq
        have hrunning := (hok.running_iff tid htid).mpr heq
        simp [hrunning] at hzombie
      exact ⟨by omega, by rw [hstates tid htid, if_neg hnext, if_neg hother, hzombie]⟩

/-! ## Runs -/

/-- A call of the current thread; thread 0 does not exit. -/
inductive SchedStep : Scheduler → Scheduler → Prop
  | create (bootstrap : Nat) (name : Option CString) (entry arg stack : Nat) (s : Scheduler) :
      SchedStep s (threadCreate bootstrap name entry arg stack s).2
  | yield (esp : Nat) (s : Scheduler) : SchedStep s (threadYield esp s)
  | exit {esp : Nat} {s s' : Scheduler} : s.currentTid ≠ 0 → threadExit esp s = .ok s' →
      SchedStep s s'

theorem SchedStep.change {s s' : Scheduler} (h : SchedStep s s') (hok : SchedOk s) :
    SchedChange s s' := by
  cases h with
  | create bootstrap name entry arg stack => exact threadCreate_change bootstrap name entry arg stack s
  | yield esp => exact threadYield_change hok esp
  | exit hmain heq =>
      obtain ⟨t, ht, hchange⟩ := threadExit_change hok _ hmain
      rw [heq] at ht
      rwa [Except.ok.inj ht]

theorem SchedOk.run {s s' : Scheduler} (hok : SchedOk s) (h : ReflTransGen SchedStep s s') :
    SchedOk s' := by
  induction h with
  | refl => exact hok
  | tail _ hstep ih => exact (hstep.change ih).ok ih

/-- Over a run a zombie stays one. -/
theorem SchedOk.zombie_run {s s' : Scheduler} (hok : SchedOk s) (h : ReflTransGen SchedStep s s')
    {tid : Nat} (htid : tid < s.threadCount) (hzombie : (s.threads tid).state = .zombie) :
    tid < s'.threadCount ∧ (s'.threads tid).state = .zombie := by
  induction h with
  | refl => exact ⟨htid, hzombie⟩
  | tail hrun hstep ih =>
      have hmid := hok.run hrun
      exact (hstep.change hmid).zombie hmid ih.1 ih.2

/-- In every state that the calls reach from `sched_init`: the invariant holds;
in every later one the zombies are zombies and none of them is current; and an
exit of a thread other than 0 does not panic. -/
theorem sched_invariant {before s : Scheduler} (h : ReflTransGen SchedStep (schedInit before) s) :
    SchedOk s ∧
    (∀ s', ReflTransGen SchedStep s s' → ∀ tid < s.threadCount, (s.threads tid).state = .zombie →
      (s'.threads tid).state = .zombie ∧ s'.currentTid ≠ tid) ∧
    (∀ esp, s.currentTid ≠ 0 → ∃ s', threadExit esp s = .ok s') := by
  have hok := (schedInit_ok before).run h
  refine ⟨hok, fun s' hrun tid htid hzombie => ?_, fun esp hmain => ?_⟩
  · obtain ⟨htid', hzombie'⟩ := hok.zombie_run hrun htid hzombie
    refine ⟨hzombie', fun hcurrent => ?_⟩
    have hrunning := ((hok.run hrun).running_iff tid htid').mpr hcurrent.symm
    simp [hrunning] at hzombie'
  · obtain ⟨s', heq, -⟩ := threadExit_change hok esp hmain
    exact ⟨s', heq⟩

/-- The scheduler of a boot: an empty table and empty memory. -/
def bootScheduler : Scheduler where
  threads := fun _ => ⟨0, 0, 0, .runnable, ⟨[], by simp⟩, 0, 0, 0⟩
  threadCount := 0
  currentTid := 0
  preemptEnabled := false
  mem := fun _ => 0

/-- A worker is created, runs and exits. -/
theorem sched_invariant_worker : ∃ s,
    threadExit 0x300000 (threadYield 0x9000
      (threadCreate 0x100100 none 0x100200 1 0x300000 (schedInit bootScheduler)).2) = .ok s ∧
    SchedOk s ∧ (s.threads 1).state = .zombie := by
  have hyield : ReflTransGen SchedStep (schedInit bootScheduler) (threadYield 0x9000
      (threadCreate 0x100100 none 0x100200 1 0x300000 (schedInit bootScheduler)).2) :=
    .tail (.single (.create 0x100100 none 0x100200 1 0x300000 _)) (.yield 0x9000 _)
  obtain ⟨s, hexit⟩ := (sched_invariant hyield).2.2 0x300000 (by decide)
  have hrun := hyield.tail (.exit (by decide) hexit)
  refine ⟨s, hexit, (sched_invariant hrun).1, ?_⟩
  have hstate : (threadExit 0x300000 (threadYield 0x9000 (threadCreate 0x100100 none 0x100200 1
      0x300000 (schedInit bootScheduler)).2)).map (fun s => (s.threads 1).state) = .ok .zombie := by
    rfl
  rw [hexit] at hstate
  exact Except.ok.inj hstate

end RoninOS.Sched
