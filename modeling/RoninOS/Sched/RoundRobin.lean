/-
RoninOS.Sched.RoundRobin — `thread_yield` takes the threads in turn.

`readyQueue` is what the table stands for: the runnable threads in the order of
their tids, cyclically from the current thread on. A yield is the abstract turn
of a queue: its head becomes the current thread, the current thread goes to the
back (`readyQueue_yield`). So the current thread and the queue are one list that
each yield rotates by one, and as many yields as it is long give it back.
-/
import RoninOS.Sched.ThreadRuns
import Mathlib.Data.List.Rotate

namespace RoninOS.Sched

open RoninOS.Lib

/-! ## The queue -/

/-- Exactly one thread runs, the current one. -/
structure OneRunning (s : Scheduler) : Prop where
  current_lt : s.currentTid < s.threadCount
  running_iff : ∀ tid < s.threadCount, (s.threads tid).state = .running ↔ tid = s.currentTid

theorem SchedOk.oneRunning {s : Scheduler} (h : SchedOk s) : OneRunning s :=
  ⟨h.current_lt, h.running_iff⟩

/-- `g_threads[tid].state == THREAD_RUNNABLE`. -/
def isRunnable (s : Scheduler) (tid : Nat) : Bool := decide ((s.threads tid).state = .runnable)

/-- The tids in cyclic order, beginning with `tid`. -/
def tidsFrom (s : Scheduler) (tid : Nat) : List Nat := (List.range s.threadCount).rotate tid

/-- The runnable threads in cyclic tid order, starting after the current thread,
which runs. -/
def readyQueue (s : Scheduler) : List Nat := (tidsFrom s s.currentTid).filter (isRunnable s)

/-- Yields one after the other, each with the stack pointer that it saves. -/
def yields (esps : List Nat) (s : Scheduler) : Scheduler :=
  esps.foldl (fun s esp => threadYield esp s) s

/-- The threads that they select. -/
def selected : List Nat → Scheduler → List Nat
  | [], _ => []
  | esp :: esps, s => (threadYield esp s).currentTid :: selected esps (threadYield esp s)

/-- The current thread and the queue. -/
def turnOrder (s : Scheduler) : List Nat := s.currentTid :: readyQueue s

theorem mem_tidsFrom {s : Scheduler} {tid k : Nat} : k ∈ tidsFrom s tid ↔ k < s.threadCount := by
  rw [tidsFrom, List.mem_rotate, List.mem_range]

theorem nodup_tidsFrom (s : Scheduler) (tid : Nat) : (tidsFrom s tid).Nodup :=
  List.nodup_rotate.mpr List.nodup_range

theorem mem_readyQueue {s : Scheduler} {tid : Nat} :
    tid ∈ readyQueue s ↔ tid < s.threadCount ∧ (s.threads tid).state = .runnable := by
  simp [readyQueue, isRunnable, mem_tidsFrom]

theorem nodup_readyQueue (s : Scheduler) : (readyQueue s).Nodup := (nodup_tidsFrom s _).filter _

/-! ## The cyclic order -/

theorem getElem_tidsFrom (s : Scheduler) (tid i : Nat) (h : i < (tidsFrom s tid).length) :
    (tidsFrom s tid)[i] = (tid + i) % s.threadCount := by
  simp only [tidsFrom, List.getElem_rotate, List.getElem_range, List.length_range]
  rw [Nat.add_comm]

theorem length_tidsFrom (s : Scheduler) (tid : Nat) : (tidsFrom s tid).length = s.threadCount := by
  rw [tidsFrom, List.length_rotate, List.length_range]

/-- The order begins with its own thread. -/
theorem tidsFrom_eq_cons {s : Scheduler} {tid : Nat} (h : tid < s.threadCount) :
    ∃ others, tidsFrom s tid = tid :: others := by
  cases heq : tidsFrom s tid with
  | nil =>
      have hlen := length_tidsFrom s tid
      rw [heq] at hlen
      exact absurd hlen (by simp; omega)
  | cons first others =>
      have hget := getElem_tidsFrom s tid 0 (by rw [length_tidsFrom]; omega)
      simp only [heq, List.getElem_cons_zero, Nat.add_zero, Nat.mod_eq_of_lt h] at hget
      exact ⟨others, by rw [hget]⟩

/-- From a later thread on, the order is the rest of it and then what came before. -/
theorem tidsFrom_split {s : Scheduler} {tid next : Nat} {before after : List Nat}
    (h : tidsFrom s tid = before ++ next :: after) : tidsFrom s next = next :: after ++ before := by
  have hlen : before.length < (tidsFrom s tid).length := by simp [h]
  have hnext : next = (tid + before.length) % s.threadCount := by
    rw [← getElem_tidsFrom s tid _ hlen]
    simp [h]
  calc tidsFrom s next = (List.range s.threadCount).rotate (tid + before.length) := by
        rw [tidsFrom, hnext]
        conv_rhs => rw [← List.rotate_mod, List.length_range]
    _ = (tidsFrom s tid).rotate before.length := by rw [tidsFrom, List.rotate_rotate]
    _ = next :: after ++ before := by rw [h, List.rotate_append_length_eq]

/-! ## Selection -/

/-- The loop looks through the tids of its rounds. -/
theorem findNextFrom_eq (s : Scheduler) (fromTid rounds i : Nat) :
    findNextFrom s fromTid false rounds i =
      ((List.range' i rounds).map fun j => (fromTid + j) % s.threadCount).find? fun tid =>
        tid ≠ fromTid ∧ isRunnable s tid := by
  induction rounds generalizing i with
  | zero => rfl
  | succ rounds ih =>
      rw [findNextFrom, List.range'_succ, List.map_cons, List.find?_cons, ih]
      by_cases hself : (fromTid + i) % s.threadCount = fromTid
      · simp [hself]
      · by_cases hrun : (s.threads ((fromTid + i) % s.threadCount)).state = .runnable
        · simp [hself, hrun, isRunnable]
        · simp [hself, hrun, isRunnable]

/-- The rounds of `find_next_runnable` end with the thread itself. -/
theorem rounds_eq {s : Scheduler} {tid : Nat} {others : List Nat}
    (h : tidsFrom s tid = tid :: others) :
    (List.range' 1 s.threadCount).map (fun j => (tid + j) % s.threadCount) = others ++ [tid] := by
  have hrotate : others ++ [tid] = (List.range s.threadCount).rotate (tid + 1) := by
    rw [← List.rotate_rotate, ← tidsFrom, h, List.rotate_cons_succ, List.rotate_zero]
  rw [hrotate]
  refine List.ext_getElem (by simp) fun i h1 h2 => ?_
  simp only [List.getElem_map, List.getElem_range', List.getElem_rotate, List.getElem_range,
    List.length_range]
  congr 1
  omega

/-- The current thread runs, so that the queue is made of the others. -/
theorem readyQueue_eq {s : Scheduler} (hone : OneRunning s) {others : List Nat}
    (h : tidsFrom s s.currentTid = s.currentTid :: others) :
    readyQueue s = others.filter (isRunnable s) := by
  have hrunning := (hone.running_iff _ hone.current_lt).mpr rfl
  rw [readyQueue, h, List.filter_cons_of_neg (by simp [isRunnable, hrunning])]

/-- `find_next_runnable` returns the head of the queue. -/
theorem findNextRunnable_eq {s : Scheduler} (hone : OneRunning s) :
    findNextRunnable s s.currentTid false = (readyQueue s).head? := by
  have hcurrent := hone.current_lt
  obtain ⟨others, hothers⟩ := tidsFrom_eq_cons hcurrent
  have hnodup := nodup_tidsFrom s s.currentTid
  rw [hothers, List.nodup_cons] at hnodup
  rw [findNextRunnable, if_neg (by omega), findNextFrom_eq, rounds_eq hothers,
    readyQueue_eq hone hothers, ← List.head?_filter, List.filter_append]
  congr 1
  have hself : [s.currentTid].filter (fun tid => tid ≠ s.currentTid ∧ isRunnable s tid) = [] := by
    simp
  rw [hself, List.append_nil]
  refine List.filter_congr fun tid htid => ?_
  have hne : tid ≠ s.currentTid := fun heq => hnodup.1 (heq ▸ htid)
  simp [hne]

/-! ## A yield is a turn of the queue -/

theorem threadYield_nil {s : Scheduler} (hone : OneRunning s) (h : readyQueue s = []) (esp : Nat) :
    threadYield esp s = s := by
  have hfind : findNextRunnable s s.currentTid false = none := by
    rw [findNextRunnable_eq hone, h, List.head?_nil]
  simp only [threadYield, hfind]

/-- What a yield to the head of the queue does to the states. -/
theorem threadYield_cons {s : Scheduler} (hone : OneRunning s) {next : Nat} {rest : List Nat}
    (h : readyQueue s = next :: rest) (esp : Nat) :
    (threadYield esp s).currentTid = next ∧
    (threadYield esp s).threadCount = s.threadCount ∧
    ∀ tid, ((threadYield esp s).threads tid).state =
      if tid = next then .running else if tid = s.currentTid then .runnable
      else (s.threads tid).state := by
  have hrunning := (hone.running_iff _ hone.current_lt).mpr rfl
  have hfind : findNextRunnable s s.currentTid false = some next := by
    rw [findNextRunnable_eq hone, h, List.head?_cons]
  have hne : next ≠ s.currentTid := (findNextRunnable_some hfind).2.1
  unfold threadYield
  simp only [hfind, hrunning, if_true]
  exact ⟨rfl, rfl, fun tid => (switched_threads hne .runnable esp tid).2⟩

/-- Its head becomes the current thread, the current thread goes to the back. -/
theorem readyQueue_yield {s : Scheduler} (hone : OneRunning s) {next : Nat} {rest : List Nat}
    (h : readyQueue s = next :: rest) (esp : Nat) :
    readyQueue (threadYield esp s) = rest ++ [s.currentTid] := by
  obtain ⟨hcurrent', hcount', hstate'⟩ := threadYield_cons hone h esp
  obtain ⟨others, hothers⟩ := tidsFrom_eq_cons hone.current_lt
  rw [readyQueue_eq hone hothers] at h
  obtain ⟨before, after, rfl, hbefore, -, hafter⟩ := List.filter_eq_cons_iff.mp h
  have hnodup := nodup_tidsFrom s s.currentTid
  rw [hothers, List.nodup_cons, List.nodup_append] at hnodup
  obtain ⟨hcurrent, -, hnodup, hdisjoint⟩ := hnodup
  have hne : s.currentTid ≠ next := fun heq => hcurrent (by simp [heq])
  have horder : tidsFrom (threadYield esp s) next = next :: (after ++ s.currentTid :: before) := by
    rw [← List.cons_append] at hothers
    rw [tidsFrom, hcount', ← tidsFrom, tidsFrom_split hothers, List.cons_append]
  -- behind the new thread: those that were not reached, the old one, those that were passed over
  have hkept : ∀ tid ∈ before ++ after, isRunnable (threadYield esp s) tid = isRunnable s tid := by
    intro tid htid
    have h1 : tid ≠ next := by
      rintro rfl
      rcases List.mem_append.mp htid with htid | htid
      · exact hdisjoint _ htid _ (by simp) rfl
      · exact (List.nodup_cons.mp hnodup).1 htid
    have h2 : tid ≠ s.currentTid := by
      rintro rfl
      rcases List.mem_append.mp htid with htid | htid
      · exact hcurrent (by simp [htid])
      · exact hcurrent (by simp [htid])
    rw [isRunnable, hstate', if_neg h1, if_neg h2, isRunnable]
  rw [readyQueue, hcurrent', horder, List.filter_cons_of_neg (by simp [isRunnable, hstate']),
    List.filter_append, List.filter_cons_of_pos (by simp [isRunnable, hstate', hne])]
  congr 1
  · rw [← hafter]
    exact List.filter_congr fun tid htid => hkept tid (by simp [htid])
  · congr 1
    rw [List.filter_eq_nil_iff]
    intro tid htid
    rw [hkept tid (by simp [htid])]
    exact hbefore tid htid

/-- A yield rotates the current thread and the queue by one. -/
theorem turnOrder_yield {s : Scheduler} (hone : OneRunning s) (esp : Nat) :
    turnOrder (threadYield esp s) = (turnOrder s).rotate 1 := by
  cases h : readyQueue s with
  | nil => rw [threadYield_nil hone h, turnOrder, h, List.rotate_singleton]
  | cons next rest =>
      rw [turnOrder, readyQueue_yield hone h, (threadYield_cons hone h esp).1, turnOrder, h,
        List.rotate_cons_succ, List.rotate_zero, List.cons_append]

theorem OneRunning.yield {s : Scheduler} (hone : OneRunning s) (esp : Nat) :
    OneRunning (threadYield esp s) := by
  cases h : readyQueue s with
  | nil => rwa [threadYield_nil hone h]
  | cons next rest =>
      obtain ⟨hcurrent', hcount', hstate'⟩ := threadYield_cons hone h esp
      have hnext : next < s.threadCount := (mem_readyQueue.mp (by rw [h]; simp)).1
      refine ⟨by rwa [hcurrent', hcount'], fun tid htid => ?_⟩
      rw [hstate', hcurrent']
      split
      · rename_i heq
        simp [heq]
      · rename_i hne
        split
        · simp [hne]
        · rename_i hother
          rw [hone.running_iff tid (hcount' ▸ htid)]
          simp [hne, hother]

theorem threadCount_yield {s : Scheduler} (hone : OneRunning s) (esp : Nat) :
    (threadYield esp s).threadCount = s.threadCount := by
  cases h : readyQueue s with
  | nil => rw [threadYield_nil hone h]
  | cons next rest => exact (threadYield_cons hone h esp).2.1

/-! ## Runs -/

section Runs

variable {s : Scheduler}

theorem turnOrder_yields (hone : OneRunning s) (esps : List Nat) :
    OneRunning (yields esps s) ∧ (yields esps s).threadCount = s.threadCount ∧
      turnOrder (yields esps s) = (turnOrder s).rotate esps.length := by
  induction esps generalizing s with
  | nil => exact ⟨hone, rfl, (List.rotate_zero _).symm⟩
  | cons esp esps ih =>
      obtain ⟨h1, h2, h3⟩ := ih (hone.yield esp)
      refine ⟨h1, h2.trans (threadCount_yield hone esp), ?_⟩
      rw [yields, List.foldl_cons, ← yields, h3, turnOrder_yield hone, List.rotate_rotate,
        List.length_cons, Nat.add_comm]

/-- The current thread and the queue determine the states. -/
theorem state_eq_of_turnOrder {s' : Scheduler} (hone : OneRunning s) (hone' : OneRunning s')
    (hcount : s'.threadCount = s.threadCount) (h : turnOrder s' = turnOrder s) {tid : Nat}
    (htid : tid < s.threadCount) : (s'.threads tid).state = (s.threads tid).state := by
  obtain ⟨hcurrent, hqueue⟩ := List.cons.inj h
  have hrunning : (s'.threads tid).state = .running ↔ (s.threads tid).state = .running := by
    rw [hone.running_iff tid htid, hone'.running_iff tid (by omega), hcurrent]
  have hrunnable : (s'.threads tid).state = .runnable ↔ (s.threads tid).state = .runnable := by
    have hmem := @mem_readyQueue s' tid
    rw [hqueue, mem_readyQueue, hcount] at hmem
    simpa [htid] using hmem.symm
  cases h' : (s'.threads tid).state with
  | running => exact (hrunning.mp h').symm
  | runnable => exact (hrunnable.mp h').symm
  | zombie =>
      cases heq : (s.threads tid).state with
      | running => simp [h'] at hrunning; exact absurd heq hrunning
      | runnable => simp [h'] at hrunnable; exact absurd heq hrunnable
      | zombie => rfl

/-- The yields select the threads of the queue from its head on, and then the one that
was current. -/
theorem selected_eq (hone : OneRunning s) (esps : List Nat)
    (hlen : esps.length ≤ (readyQueue s).length + 1) :
    selected esps s = (readyQueue s ++ [s.currentTid]).take esps.length := by
  have hrotate : readyQueue s ++ [s.currentTid] = (turnOrder s).rotate 1 := by
    rw [turnOrder, List.rotate_cons_succ, List.rotate_zero]
  induction esps generalizing s with
  | nil => rfl
  | cons esp esps ih =>
      have hturn := turnOrder_yield hone esp
      have hlength : (readyQueue (threadYield esp s)).length = (readyQueue s).length := by
        simpa [turnOrder] using congrArg List.length hturn
      have hle : esps.length ≤ (readyQueue (threadYield esp s)).length := by
        rw [List.length_cons] at hlen
        omega
      rw [selected, ih (hone.yield esp) (by omega) (by rw [turnOrder, List.rotate_cons_succ,
        List.rotate_zero]), hrotate, ← hturn, turnOrder, List.length_cons, List.take_succ_cons,
        List.take_append_of_le_length hle]

/-- Round robin: of `k` runnable threads, `k` yields select each once, in cyclic tid order
from the current one on; one more returns to it, with every state as before; without
runnable threads a yield changes nothing. -/
theorem yields_in_turn (hone : OneRunning s) :
    ((readyQueue s).Nodup ∧
      ∀ tid, tid ∈ readyQueue s ↔ tid < s.threadCount ∧ (s.threads tid).state = .runnable) ∧
    (∀ esps, esps.length = (readyQueue s).length → selected esps s = readyQueue s) ∧
    (∀ esps, esps.length = (readyQueue s).length + 1 →
      selected esps s = readyQueue s ++ [s.currentTid] ∧
      (yields esps s).currentTid = s.currentTid ∧ (yields esps s).threadCount = s.threadCount ∧
      ∀ tid < s.threadCount, ((yields esps s).threads tid).state = (s.threads tid).state) ∧
    (readyQueue s = [] → ∀ esp, threadYield esp s = s) := by
  refine ⟨⟨nodup_readyQueue s, fun _ => mem_readyQueue⟩, fun esps hlen => ?_, fun esps hlen => ?_,
    threadYield_nil hone⟩
  · rw [selected_eq hone esps (by omega), hlen, List.take_left]
  · obtain ⟨hone', hcount, hturn⟩ := turnOrder_yields hone esps
    have hlength : (turnOrder s).length = esps.length := by rw [turnOrder, List.length_cons, hlen]
    rw [← hlength, List.rotate_length] at hturn
    refine ⟨?_, (List.cons.inj hturn).1, hcount,
      fun tid htid => state_eq_of_turnOrder hone hone' hcount hturn htid⟩
    rw [selected_eq hone esps (by omega), List.take_of_length_le (by simp [hlen])]

end Runs

/-- Three workers, of which the second has exited, seen from the third. -/
def gapScheduler : Scheduler :=
  { bootScheduler with
    threads := fun tid => { bootScheduler.threads tid with
      tid := tid
      state := if tid = 2 then .zombie else if tid = 3 then .running else .runnable }
    threadCount := 4
    currentTid := 3 }

theorem yields_in_turn_gap : selected [0x100, 0x200, 0x300] gapScheduler = [0, 1, 3] := by
  have hone : OneRunning gapScheduler := ⟨by decide, by decide⟩
  exact ((yields_in_turn hone).2.2.1 [0x100, 0x200, 0x300] (by decide)).1

end RoninOS.Sched
