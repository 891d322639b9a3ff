/-
RoninOS.Lib.RingLog — a ring of slots that holds the end of a growing log.

Entry `i` of the log is kept in slot `i % n`. `HoldsEnd` says that the slots hold
the last `n` entries up to the newest one, or all of them while there are no more.
Changing the newest entry or adding one after it in both keeps this: the slot
of a new entry is that of the one that is `n` entries older.
-/
import Mathlib.Logic.Function.Basic

namespace RoninOS.Lib

variable {α : Type*} {n newest : Nat} {ring log : Nat → α}

/-- The slots hold the last `n` entries of the log. -/
def HoldsEnd (n : Nat) (ring log : Nat → α) (newest : Nat) : Prop :=
  ∀ i ≤ newest, newest < i + n → ring (i % n) = log i

/-- Two of the last `n` entries have different slots. -/
theorem slot_ne {i j : Nat} (hij : i < j) (hlt : j < i + n) : i % n ≠ j % n := by
  intro heq
  have hzero : (j - i) % n = 0 := Nat.sub_mod_eq_zero_of_mod_eq heq.symm
  rw [Nat.mod_eq_of_lt (by omega)] at hzero
  omega

/-- Changing the newest entry. -/
theorem HoldsEnd.change (h : HoldsEnd n ring log newest) (a : α) :
    HoldsEnd n (Function.update ring (newest % n) a) (Function.update log newest a) newest := by
  intro i hi hlt
  rcases Nat.eq_or_lt_of_le hi with rfl | hi'
  · rw [Function.update_self, Function.update_self]
  · rw [Function.update_of_ne (slot_ne hi' hlt), Function.update_of_ne (Nat.ne_of_lt hi')]
    exact h i hi hlt

/-- Adding an entry. -/
theorem HoldsEnd.add (h : HoldsEnd n ring log newest) (a : α) :
    HoldsEnd n (Function.update ring ((newest + 1) % n) a) (Function.update log (newest + 1) a)
      (newest + 1) := by
  intro i hi hlt
  rcases Nat.eq_or_lt_of_le hi with rfl | hi'
  · rw [Function.update_self, Function.update_self]
  · rw [Function.update_of_ne (slot_ne hi' hlt), Function.update_of_ne (Nat.ne_of_lt hi')]
    exact h i (by omega) (by omega)

theorem HoldsEnd.congr {ring' log' : Nat → α} (h : HoldsEnd n ring log newest)
    (hring : ∀ i, ring' i = ring i) (hlog : ∀ i, log' i = log i) :
    HoldsEnd n ring' log' newest := by
  intro i hi hlt
  rw [hring, hlog]
  exact h i hi hlt

/-- A log of one entry. -/
theorem holdsEnd_zero (h : ring 0 = log 0) : HoldsEnd n ring log 0 := by
  intro i hi hlt
  obtain rfl := Nat.le_zero.mp hi
  rwa [Nat.zero_mod]

end RoninOS.Lib
