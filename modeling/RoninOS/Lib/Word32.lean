/-
RoninOS.Lib.Word32 — 32-bit machine arithmetic on natural numbers.

A `uint32_t` is a natural number below 2^32. Where the C operation can wrap,
the function here takes the result modulo 2^32; masks with `& ~(2^k - 1)`
and `& (2^k - 1)` are given their meaning as rounding and remainder.
-/
import Mathlib.Data.Nat.Bitwise
import Mathlib.Tactic.Ring

namespace RoninOS.Lib

/-- The value of a number cast to `uint32_t`. -/
def u32 (x : Nat) : Nat := x % 2 ^ 32

/-- `a + b` on `uint32_t`. -/
def add32 (a b : Nat) : Nat := (a + b) % 2 ^ 32

/-- `a - b` on `uint32_t`. -/
def sub32 (a b : Nat) : Nat := (a + (2 ^ 32 - b)) % 2 ^ 32

/-- `a * b` on `uint32_t`. -/
def mul32 (a b : Nat) : Nat := (a * b) % 2 ^ 32

/-- `~a` on `uint32_t`. -/
def not32 (a : Nat) : Nat := 2 ^ 32 - 1 - a

theorem u32_lt (x : Nat) : u32 x < 2 ^ 32 := Nat.mod_lt _ (by decide)

theorem u32_of_lt {x : Nat} (h : x < 2 ^ 32) : u32 x = x := Nat.mod_eq_of_lt h

theorem add32_lt (a b : Nat) : add32 a b < 2 ^ 32 := Nat.mod_lt _ (by decide)

theorem add32_of_lt {a b : Nat} (h : a + b < 2 ^ 32) : add32 a b = a + b := Nat.mod_eq_of_lt h

theorem sub32_of_le {a b : Nat} (hb : b ≤ a) (ha : a < 2 ^ 32) : sub32 a b = a - b := by
  unfold sub32
  omega

theorem mul32_lt (a b : Nat) : mul32 a b < 2 ^ 32 := Nat.mod_lt _ (by decide)

theorem mul32_of_lt {a b : Nat} (h : a * b < 2 ^ 32) : mul32 a b = a * b := Nat.mod_eq_of_lt h

/-! ## Masks -/

/-- The complement of a low mask has exactly the bits from `k` on. -/
theorem testBit_not32_mask {k i : Nat} (hk : k ≤ 32) :
    (not32 (2 ^ k - 1)).testBit i = decide (k ≤ i ∧ i < 32) := by
  have hle : 2 ^ k ≤ 2 ^ 32 := Nat.pow_le_pow_right (by decide) hk
  have hpos : 0 < 2 ^ k := Nat.two_pow_pos k
  have heq : not32 (2 ^ k - 1) = 2 ^ 32 - (2 ^ k - 1 + 1) := by
    unfold not32
    omega
  rw [heq, Nat.testBit_two_pow_sub_succ (by omega), Nat.testBit_two_pow_sub_one]
  by_cases h1 : i < 32 <;> by_cases h2 : i < k <;> simp [h1, h2]
  omega

/-- `x & ~(2^k - 1)` rounds `x` down to a multiple of `2^k`. -/
theorem and_not32_mask {k x : Nat} (hk : k ≤ 32) (hx : x < 2 ^ 32) :
    x &&& not32 (2 ^ k - 1) = x / 2 ^ k * 2 ^ k := by
  apply Nat.eq_of_testBit_eq
  intro i
  rw [Nat.testBit_and, testBit_not32_mask hk, Nat.mul_comm, Nat.testBit_two_pow_mul,
    Nat.testBit_div_two_pow]
  by_cases h1 : k ≤ i
  · have hsum : i - k + k = i := by omega
    by_cases h2 : i < 32
    · simp [h1, h2]
    · have hbit : x.testBit i = false :=
        Nat.testBit_eq_false_of_lt (Nat.lt_of_lt_of_le hx (Nat.pow_le_pow_right (by decide) (by omega)))
      simp [h1, hsum, hbit]
  · simp [h1]

/-- `x & (2^k - 1)` is the remainder modulo `2^k`. -/
theorem and_mask (k x : Nat) : x &&& (2 ^ k - 1) = x % 2 ^ k := Nat.and_two_pow_sub_one_eq_mod x k

/-- A multiple of `2^k` and a number below `2^k` share no bit. -/
theorem mul_two_pow_or {k a b : Nat} (hb : b < 2 ^ k) : a * 2 ^ k ||| b = a * 2 ^ k + b := by
  rw [Nat.mul_comm, Nat.two_pow_add_eq_or_of_lt hb]

/-! ## Alignment -/

/-- `align_down`. -/
def alignDown (v a : Nat) : Nat := v &&& not32 (a - 1)

/-- `align_up`. -/
def alignUp (v a : Nat) : Nat := add32 v (a - 1) &&& not32 (a - 1)

theorem alignDown_eq {k v : Nat} (hk : k ≤ 32) (hv : v < 2 ^ 32) :
    alignDown v (2 ^ k) = v / 2 ^ k * 2 ^ k := and_not32_mask hk hv

theorem alignUp_eq {k v : Nat} (hk : k ≤ 32) (hv : v + (2 ^ k - 1) < 2 ^ 32) :
    alignUp v (2 ^ k) = (v + (2 ^ k - 1)) / 2 ^ k * 2 ^ k := by
  unfold alignUp
  rw [add32_of_lt hv]
  exact and_not32_mask hk hv

end RoninOS.Lib
