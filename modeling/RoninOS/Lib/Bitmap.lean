/-
RoninOS.Lib.Bitmap — bitmaps of machine words.

Bit `i` of a bitmap of `w`-bit words is bit `i % w` of word `i / w`, read with
`&`, set with `|` and cleared with `& ~` of a shifted 1. The lemmas give each
update its effect on every bit, so no later proof looks at a word again.
-/
import Mathlib.Data.Nat.Bitwise
import Mathlib.Logic.Function.Basic

namespace RoninOS.Lib

/-- An array of `w`-bit words. -/
abbrev Bitmap (w : Nat) := Nat → BitVec w

namespace Bitmap

variable {w : Nat}

/-- The word with the one bit of index `i`. -/
def mask (w i : Nat) : BitVec w := 1#w <<< (i % w)

/-- Bit `i` is set: `(words[i / w] & (1 << (i % w))) != 0`. -/
def test (b : Bitmap w) (i : Nat) : Bool := b (i / w) &&& mask w i ≠ 0#w

/-- `words[i / w] |= 1 << (i % w)`. -/
def set (b : Bitmap w) (i : Nat) : Bitmap w :=
  Function.update b (i / w) (b (i / w) ||| mask w i)

/-- `words[i / w] &= ~(1 << (i % w))`. -/
def clear (b : Bitmap w) (i : Nat) : Bitmap w :=
  Function.update b (i / w) (b (i / w) &&& ~~~ mask w i)

theorem getLsbD_mask (hw : 0 < w) (i j : Nat) :
    (mask w i).getLsbD j = decide (j = i % w) := by
  have hi : i % w < w := Nat.mod_lt i hw
  simp only [mask, BitVec.getLsbD_shiftLeft, BitVec.getLsbD_one]
  by_cases h : j = i % w
  · subst h
    simp [hi, hw]
  · by_cases hlt : j < i % w
    · simp [hlt, h]
    · have : j - i % w ≠ 0 := by omega
      simp [h, this]

/-- Testing a bit reads that bit of its word. -/
theorem test_eq_getLsbD (hw : 0 < w) (b : Bitmap w) (i : Nat) :
    b.test i = (b (i / w)).getLsbD (i % w) := by
  have hi : i % w < w := Nat.mod_lt i hw
  unfold test
  rw [Bool.eq_iff_iff, decide_eq_true_iff]
  constructor
  · intro h
    by_contra hbit
    refine h (BitVec.eq_of_getLsbD_eq fun j _ => ?_)
    rw [BitVec.getLsbD_and, getLsbD_mask hw]
    by_cases hj : j = i % w
    · subst hj
      simpa using hbit
    · simp [hj]
  · intro hbit h
    have := congrArg (fun x => x.getLsbD (i % w)) h
    simp [getLsbD_mask hw, hbit] at this

/-- Two indices name the same bit only if they are equal. -/
theorem index_inj (i j : Nat) (hq : i / w = j / w) (hr : i % w = j % w) : i = j := by
  rw [← Nat.div_add_mod i w, ← Nat.div_add_mod j w, hq, hr]

theorem test_set (hw : 0 < w) (b : Bitmap w) (i j : Nat) :
    (b.set i).test j = (decide (j = i) || b.test j) := by
  rw [test_eq_getLsbD hw, test_eq_getLsbD hw, set]
  by_cases hq : j / w = i / w
  · rw [hq, Function.update_self, BitVec.getLsbD_or, getLsbD_mask hw]
    by_cases hr : j % w = i % w
    · simp [index_inj j i hq hr]
    · have hne : j ≠ i := fun h => hr (by rw [h])
      simp [hr, hne]
  · have hne : j ≠ i := fun h => hq (by rw [h])
    rw [Function.update_of_ne hq]
    simp [hne]

theorem test_clear (hw : 0 < w) (b : Bitmap w) (i j : Nat) :
    (b.clear i).test j = (!decide (j = i) && b.test j) := by
  have hlt : j % w < w := Nat.mod_lt j hw
  rw [test_eq_getLsbD hw, test_eq_getLsbD hw, clear]
  by_cases hq : j / w = i / w
  · rw [hq, Function.update_self, BitVec.getLsbD_and, BitVec.getLsbD_not, getLsbD_mask hw]
    by_cases hr : j % w = i % w
    · simp [index_inj j i hq hr]
    · have hne : j ≠ i := fun h => hr (by rw [h])
      simp [hr, hne, hlt]
  · have hne : j ≠ i := fun h => hq (by rw [h])
    rw [Function.update_of_ne hq]
    simp [hne]

/-- Clearing a set bit that was just set gives the bitmap back. -/
theorem clear_set (hw : 0 < w) (b : Bitmap w) (i : Nat) (h : b.test i = false) :
    (b.set i).clear i = b := by
  rw [test_eq_getLsbD hw] at h
  funext q
  unfold clear set
  by_cases hq : q = i / w
  · subst hq
    simp only [Function.update_self]
    refine BitVec.eq_of_getLsbD_eq fun j hj => ?_
    rw [BitVec.getLsbD_and, BitVec.getLsbD_or, BitVec.getLsbD_not, getLsbD_mask hw]
    by_cases hji : j = i % w
    · subst hji
      simp [h]
    · simp [hji, hj]
  · simp [hq]

/-- A word with every bit set is the all-ones word. -/
theorem eq_allOnes_iff (b : Bitmap w) (q : Nat) :
    b q = BitVec.allOnes w ↔ ∀ j < w, b.test (q * w + j) = true := by
  constructor
  · intro h j hj
    have hw : 0 < w := by omega
    have hq : (q * w + j) / w = q := by
      rw [Nat.mul_comm, Nat.mul_add_div hw, Nat.div_eq_of_lt hj, Nat.add_zero]
    have hr : (q * w + j) % w = j := by
      rw [Nat.mul_comm, Nat.mul_add_mod, Nat.mod_eq_of_lt hj]
    rw [test_eq_getLsbD hw, hq, hr, h]
    simpa using hj
  · intro h
    refine BitVec.eq_of_getLsbD_eq fun j hj => ?_
    have hw : 0 < w := by omega
    have hq : (q * w + j) / w = q := by
      rw [Nat.mul_comm, Nat.mul_add_div hw, Nat.div_eq_of_lt hj, Nat.add_zero]
    have hr : (q * w + j) % w = j := by
      rw [Nat.mul_comm, Nat.mul_add_mod, Nat.mod_eq_of_lt hj]
    have := h j hj
    rw [test_eq_getLsbD hw, hq, hr] at this
    simpa [hj] using this

end Bitmap

end RoninOS.Lib
