/-
RoninOS.Lib.Chain — linked lists threaded through an array of indices.

`next` gives the index after an index, or -1 at the end. `Chain next start l`
says that following `next` from `start` visits exactly the indices of `l` and
ends. A list whose links agree with another table's is a chain of that table
too, pushing an index onto the front and unlinking one are single updates of
`next`, and two chains from one start are equal.
-/
import Mathlib.Data.List.Nodup
import Mathlib.Logic.Function.Basic

namespace RoninOS.Lib

/-- Following `next` from `start` visits the indices of the list, then -1. -/
inductive Chain (next : Nat → Int) : Int → List Nat → Prop
  | nil : Chain next (-1) []
  | cons {i : Nat} {l : List Nat} : Chain next (next i) l → Chain next i (i :: l)

namespace Chain

variable {next next' : Nat → Int} {start : Int} {l : List Nat}

theorem start_nil (h : Chain next start []) : start = -1 := by
  cases h
  rfl

theorem start_cons {i : Nat} (h : Chain next start (i :: l)) :
    start = i ∧ Chain next (next i) l := by
  cases h with
  | cons h => exact ⟨rfl, h⟩

/-- A chain is determined by its start. -/
theorem unique {l' : List Nat} (h : Chain next start l) (h' : Chain next start l') : l = l' := by
  induction h generalizing l' with
  | nil =>
      cases h' with
      | nil => rfl
  | @cons i l h ih =>
      generalize hs : (i : Int) = s at h'
      cases h' with
      | nil => omega
      | @cons j l' h' =>
          have hij : i = j := by omega
          subst hij
          rw [ih h']

/-- Links outside the chain do not matter. -/
theorem congr (h : Chain next start l) (heq : ∀ i ∈ l, next' i = next i) :
    Chain next' start l := by
  induction h with
  | nil => exact .nil
  | @cons i l _ ih =>
      refine .cons ?_
      rw [heq i (List.mem_cons_self ..)]
      exact ih fun j hj => heq j (List.mem_cons_of_mem _ hj)

/-- A new index in front of the chain. -/
theorem push {i : Nat} (h : Chain next start l) (hi : i ∉ l) (hnext : next' i = start)
    (heq : ∀ j, j ≠ i → next' j = next j) : Chain next' i (i :: l) := by
  refine .cons ?_
  rw [hnext]
  exact h.congr fun j hj => heq j fun hji => hi (hji ▸ hj)

/-- The part of a chain from one of its indices on. -/
theorem drop {l₁ l₂ : List Nat} {x : Nat} (h : Chain next start (l₁ ++ x :: l₂)) :
    Chain next (next x) l₂ := by
  induction l₁ generalizing start with
  | nil => exact h.start_cons.2
  | cons a l₁ ih => exact ih h.start_cons.2

/-- Unlinking the index after `p`. -/
theorem unlink {l₁ l₂ : List Nat} {p x : Nat} (h : Chain next start (l₁ ++ p :: x :: l₂))
    (hnodup : (l₁ ++ p :: x :: l₂).Nodup) (hnext : next' p = next x)
    (heq : ∀ j, j ≠ p → j ≠ x → next' j = next j) :
    Chain next' start (l₁ ++ p :: l₂) := by
  induction l₁ generalizing start with
  | nil =>
      obtain ⟨rfl, hp⟩ := h.start_cons
      simp only [List.nil_append, List.nodup_cons, List.mem_cons, not_or] at hnodup ⊢
      refine .cons ?_
      rw [hnext]
      refine hp.start_cons.2.congr fun j hj => heq j ?_ ?_
      · rintro rfl
        exact hnodup.1.2 hj
      · rintro rfl
        exact hnodup.2.1 hj
  | cons a l₁ ih =>
      obtain ⟨rfl, ha⟩ := h.start_cons
      rw [List.cons_append, List.nodup_cons] at hnodup
      refine .cons ?_
      rw [heq a (fun hap => hnodup.1 (by simp [hap])) (fun hax => hnodup.1 (by simp [hax]))]
      exact ih ha hnodup.2

end Chain

end RoninOS.Lib
