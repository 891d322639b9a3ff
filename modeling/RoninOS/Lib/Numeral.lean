/-
RoninOS.Lib.Numeral — decimal numerals.

A numeral is a non-empty string of decimal digits, and its value the natural
number that it denotes, without a bound. A program that goes through the digits
with `v * 10 + digit`, reduced modulo a word size after each of them, ends with
the value modulo that size (`foldl_mod`).
-/
import RoninOS.Lib.CString
import Mathlib.Data.List.Induction
import Mathlib.Data.Nat.Digits.Defs

namespace RoninOS.Lib

/-- `0` to `9`. -/
def IsDigit (c : UInt8) : Prop := 48 ≤ c ∧ c ≤ 57

instance (c : UInt8) : Decidable (IsDigit c) := inferInstanceAs (Decidable (48 ≤ c ∧ c ≤ 57))

/-- A sequence of digits. -/
def AllDigits (s : List UInt8) : Prop := ∀ c ∈ s, IsDigit c

instance (s : List UInt8) : Decidable (AllDigits s) := List.decidableBAll IsDigit s

/-- A non-empty sequence of digits. -/
def IsNumeral (s : List UInt8) : Prop := s ≠ [] ∧ AllDigits s

instance (s : List UInt8) : Decidable (IsNumeral s) :=
  inferInstanceAs (Decidable (s ≠ [] ∧ AllDigits s))

theorem allDigits_nil : AllDigits [] := fun _ hc => absurd hc List.not_mem_nil

theorem allDigits_cons {c : UInt8} {s : List UInt8} :
    AllDigits (c :: s) ↔ IsDigit c ∧ AllDigits s := List.forall_mem_cons

/-- The number that a sequence of digits denotes; the last one is the digit of
the ones. -/
def numeralValue (s : List UInt8) : Nat := Nat.ofDigits 10 (s.reverse.map fun c => c.toNat - 48)

theorem numeralValue_concat (s : List UInt8) (c : UInt8) :
    numeralValue (s ++ [c]) = numeralValue s * 10 + (c.toNat - 48) := by
  simp only [numeralValue, List.reverse_append, List.reverse_singleton, List.singleton_append,
    List.map_cons, Nat.ofDigits_cons]
  omega

/-- The value digit by digit, from the first one on. -/
theorem numeralValue_eq_foldl (s : List UInt8) :
    numeralValue s = s.foldl (fun v c => v * 10 + (c.toNat - 48)) 0 := by
  induction s using List.reverseRecOn with
  | nil => rfl
  | append_singleton s c ih => rw [numeralValue_concat, List.foldl_concat, ih]

/-- An accumulator that is reduced after each step holds what one that is not
reduced holds, reduced. -/
theorem foldl_mod {α : Type*} {N : Nat} {step : Nat → α → Nat} {step' : Nat → α → Nat}
    (hstep : ∀ v c, step' (v % N) c = step v c % N) (s : List α) (v : Nat) :
    s.foldl step' (v % N) = s.foldl step v % N := by
  induction s generalizing v with
  | nil => rfl
  | cons c s ih => rw [List.foldl_cons, List.foldl_cons, hstep, ih]

end RoninOS.Lib
