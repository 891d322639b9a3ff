/-
RoninOS.Lib.Loops — loops `for (i = 0; i < n; i++)` that store into an array.

What such a loop leaves at a place is what the one round stores there that
touches the place. `view` reads the place from the state of the loop, so that
the rules serve loops over arrays, over arrays of arrays and over records.
-/
import Mathlib.Data.List.Range

namespace RoninOS.Lib

variable {σ α : Type*}

/-- The state after rounds `0` to `n - 1`. -/
def forLoop (n : Nat) (body : Nat → σ → σ) (s : σ) : σ :=
  (List.range n).foldl (fun s i => body i s) s

theorem forLoop_succ (n : Nat) (body : Nat → σ → σ) (s : σ) :
    forLoop (n + 1) body s = body n (forLoop n body s) := by
  rw [forLoop, List.range_succ, List.foldl_append]
  rfl

/-- What each round keeps, the loop keeps. -/
theorem forLoop_induction {n : Nat} {body : Nat → σ → σ} (Inv : σ → Prop) {s : σ} (hs : Inv s)
    (hstep : ∀ i < n, ∀ s, Inv s → Inv (body i s)) : Inv (forLoop n body s) := by
  induction n with
  | zero => exact hs
  | succ n ih =>
      rw [forLoop_succ]
      exact hstep n (Nat.lt_succ_self n) _ (ih fun i hi => hstep i (Nat.lt_succ_of_lt hi))

/-- A place that no round touches. -/
theorem forLoop_untouched {n : Nat} {body : Nat → σ → σ} {s : σ} (view : σ → α)
    (hframe : ∀ i < n, ∀ s, view (body i s) = view s) : view (forLoop n body s) = view s :=
  forLoop_induction (fun s' => view s' = view s) rfl
    fun i hi s' hs' => (hframe i hi s').trans hs'

/-- A place that one round touches, where an invariant says what it stores. -/
theorem forLoop_stored {n r : Nat} {body : Nat → σ → σ} {s : σ} (Inv : σ → Prop) (hs : Inv s)
    (hstep : ∀ i < n, ∀ s, Inv s → Inv (body i s)) (view : σ → α) {v : α} (hr : r < n)
    (hset : ∀ s, Inv s → view (body r s) = v)
    (hframe : ∀ i < n, i ≠ r → ∀ s, view (body i s) = view s) : view (forLoop n body s) = v := by
  induction n with
  | zero => exact absurd hr (Nat.not_lt_zero r)
  | succ n ih =>
      have hstep' : ∀ i < n, ∀ s, Inv s → Inv (body i s) :=
        fun i hi => hstep i (Nat.lt_succ_of_lt hi)
      rw [forLoop_succ]
      by_cases hn : r = n
      · subst hn
        exact hset _ (forLoop_induction Inv hs hstep')
      · rw [hframe n (Nat.lt_succ_self n) (Ne.symm hn)]
        exact ih hstep' (by omega) fun i hi => hframe i (Nat.lt_succ_of_lt hi)

/-- A place that one round touches. -/
theorem forLoop_touched {n r : Nat} {body : Nat → σ → σ} {s : σ} (view : σ → α) {v : α} (hr : r < n)
    (hset : ∀ s, view (body r s) = v) (hframe : ∀ i < n, i ≠ r → ∀ s, view (body i s) = view s) :
    view (forLoop n body s) = v :=
  forLoop_stored (fun _ => True) trivial (fun _ _ _ _ => trivial) view hr
    (fun s _ => hset s) hframe

end RoninOS.Lib
