/-
RoninOS.Lib.Coroutine — threads that each have a context of their own.

The machine that a scheduler pretends to be: a table of contexts, one for every
live thread, and the thread whose turn it is. Work changes the context of the
current thread, and a switch lets it return from the call it made (`ret`) and
gives the turn to another thread. No move touches the context of a thread whose
turn it is not (`next_other`, `run_other`).
-/
import Mathlib.Data.Option.Basic
import Mathlib.Logic.Function.Basic

namespace RoninOS.Lib

/-- The contexts of the live threads, and whose turn it is. -/
@[ext] structure Coroutines (C : Type*) where
  ctx : Nat → Option C
  current : Nat

/-- What the machine does: the current thread works, a thread with a fresh
context appears, the current thread lets another one run, or it ends. -/
inductive Move (C : Type*)
  | work (c : C)
  | spawn (tid : Nat) (c : C)
  | switch (tid : Nat)
  | finish (tid : Nat)

namespace Coroutines

variable {C : Type*} (ret : C → C)

/-- The machine after a move, where `ret` is what returning from a call does to
a context. -/
def next (s : Coroutines C) : Move C → Option (Coroutines C)
  | .work c => some { s with ctx := Function.update s.ctx s.current (some c) }
  | .spawn tid c =>
      if (s.ctx tid).isNone then some { s with ctx := Function.update s.ctx tid (some c) } else none
  | .switch tid =>
      if tid ≠ s.current ∧ (s.ctx tid).isSome then
        some {
          ctx := Function.update s.ctx s.current ((s.ctx s.current).map ret)
          current := tid }
      else none
  | .finish tid =>
      if tid ≠ s.current ∧ (s.ctx tid).isSome then
        some { ctx := Function.update s.ctx s.current none, current := tid }
      else none

variable {ret} {s s' : Coroutines C}

/-- A move leaves the context of a live thread whose turn it is not alone. -/
theorem next_other {move : Move C} (h : s.next ret move = some s') {tid : Nat}
    (hother : tid ≠ s.current) (hlive : (s.ctx tid).isSome) : s'.ctx tid = s.ctx tid := by
  cases move with
  | work c =>
      obtain rfl := Option.some.inj h
      exact Function.update_of_ne hother _ _
  | spawn new c =>
      rw [next] at h
      split at h
      · rename_i hnew
        obtain rfl := Option.some.inj h
        refine Function.update_of_ne ?_ _ _
        rintro rfl
        simp [Option.isNone_iff_eq_none.mp hnew] at hlive
      · cases h
  | switch target =>
      rw [next] at h
      split at h
      · obtain rfl := Option.some.inj h
        exact Function.update_of_ne hother _ _
      · cases h
  | finish target =>
      rw [next] at h
      split at h
      · obtain rfl := Option.some.inj h
        exact Function.update_of_ne hother _ _
      · cases h

/-- The moves of a run in which a thread never has the turn before a move. -/
def Waits (ret : C → C) (tid : Nat) : List (Move C) → Coroutines C → Prop
  | [], _ => True
  | move :: moves, s => tid ≠ s.current ∧ ∀ s', s.next ret move = some s' → Waits ret tid moves s'

/-- A thread that waits keeps its context, however long it waits. -/
theorem run_other {moves : List (Move C)} {tid : Nat} (hrun : moves.foldlM (next ret) s = some s')
    (hwaits : Waits ret tid moves s) (hlive : (s.ctx tid).isSome) : s'.ctx tid = s.ctx tid := by
  induction moves generalizing s with
  | nil =>
      obtain rfl := Option.some.inj hrun
      rfl
  | cons move moves ih =>
      rw [List.foldlM_cons] at hrun
      obtain ⟨s₁, hnext, hrun⟩ := Option.bind_eq_some_iff.mp hrun
      have hkept := next_other hnext hwaits.1 hlive
      exact (ih hrun (hwaits.2 s₁ hnext) (hkept ▸ hlive)).trans hkept

end Coroutines

end RoninOS.Lib
