/-
RoninOS.Lib.MemMove — `memset` and `memmove` of `kernel/lib/string.c`, and the loop
that fills a memory by words.

`memmove` copies upwards or downwards so that it reads every byte before it
overwrites it: byte `i` of the destination becomes what byte `i` of the source
was, however the two overlap.
-/
import RoninOS.Lib.Loops
import RoninOS.Lib.Memory

namespace RoninOS.Lib

/-- `memset`. -/
def memset (m : Mem) (dst : Nat) (value : UInt8) (n : Nat) : Mem :=
  forLoop n (fun i m => Function.update m (dst + i) value) m

/-- `for (i = n; i > 0; i--) d[i - 1] = s[i - 1]`. -/
def copyDown (m : Mem) (dst src : Nat) : Nat → Mem
  | 0 => m
  | n + 1 => copyDown (Function.update m (dst + n) (m (src + n))) dst src n

/-- `memmove`. -/
def memmove (m : Mem) (dst src n : Nat) : Mem :=
  if dst = src ∨ n = 0 then m
  else if dst < src then copyBytes m dst src n
  else copyDown m dst src n

section Fill

variable (m : Mem) {x : Nat}

theorem memset_apply (dst : Nat) (value : UInt8) (n : Nat) :
    memset m dst value n x = if dst ≤ x ∧ x < dst + n then value else m x := by
  unfold memset
  by_cases hx : dst ≤ x ∧ x < dst + n
  · rw [if_pos hx]
    refine forLoop_touched (fun m : Mem => m x) (r := x - dst) (by omega) (fun m => ?_)
      fun i _ hne m => Function.update_of_ne (by omega) ..
    rw [Nat.add_sub_cancel' hx.1]
    exact Function.update_self ..
  · rw [if_neg hx]
    exact forLoop_untouched (fun m : Mem => m x) fun i _ m => Function.update_of_ne (by omega) ..

/-- Zero words from the start of the memory on. -/
theorem zeroWords_apply (n : Nat) :
    forLoop n (fun i m => st32 m (4 * i) 0) m x = if x < 4 * n then 0 else m x := by
  have hzero : ∀ k, byteOf 0 k = 0 := by
    intro k
    rw [byteOf, Nat.zero_div]
    rfl
  by_cases hx : x < 4 * n
  · rw [if_pos hx]
    refine forLoop_touched (fun m : Mem => m x) (r := x / 4) (by omega) (fun m => ?_)
      fun i _ hne m => st32_of_disjoint m 0 (by omega)
    obtain hk | hk | hk | hk : x = 4 * (x / 4) ∨ x = 4 * (x / 4) + 1 ∨ x = 4 * (x / 4) + 2 ∨
        x = 4 * (x / 4) + 3 := by omega
    all_goals
      unfold st32
      simp only [hzero]
      split_ifs <;> rfl
  · rw [if_neg hx]
    exact forLoop_untouched (fun m : Mem => m x) fun i hi m => st32_of_disjoint m 0 (by omega)

end Fill

section Move

variable (m : Mem) {dst src x : Nat}

/-- Upwards, a byte of the source is read before the copy gets to it. -/
theorem copyBytes_apply (h : dst ≤ src) (n : Nat) :
    copyBytes m dst src n x = if dst ≤ x ∧ x < dst + n then m (src + (x - dst)) else m x := by
  induction n generalizing x with
  | zero => rw [copyBytes, if_neg (by omega)]
  | succ n ih =>
      rw [copyBytes]
      by_cases hx : x = dst + n
      · subst hx
        rw [Function.update_self, if_pos (by omega), ih, if_neg (by omega), Nat.add_sub_cancel_left]
      · rw [Function.update_of_ne hx, ih]
        exact if_congr (by omega) rfl rfl

/-- Downwards too. -/
theorem copyDown_apply (h : src ≤ dst) (n : Nat) :
    copyDown m dst src n x = if dst ≤ x ∧ x < dst + n then m (src + (x - dst)) else m x := by
  induction n generalizing m with
  | zero => rw [copyDown, if_neg (by omega)]
  | succ n ih =>
      rw [copyDown, ih]
      by_cases hx : x = dst + n
      · subst hx
        rw [if_neg (by omega), Function.update_self, if_pos (by omega), Nat.add_sub_cancel_left]
      · by_cases hin : dst ≤ x ∧ x < dst + n
        · rw [if_pos hin, if_pos (by omega), Function.update_of_ne (by omega)]
        · rw [if_neg hin, if_neg (by omega), Function.update_of_ne hx]

theorem memmove_apply (n : Nat) :
    memmove m dst src n x = if dst ≤ x ∧ x < dst + n then m (src + (x - dst)) else m x := by
  unfold memmove
  by_cases hnone : dst = src ∨ n = 0
  · rw [if_pos hnone]
    split
    · next hx =>
        obtain rfl : dst = src := by omega
        rw [Nat.add_sub_cancel' hx.1]
    · rfl
  · rw [if_neg hnone]
    split
    · next hlt => exact copyBytes_apply m hlt.le n
    · next hge => exact copyDown_apply m (not_lt.mp hge) n

end Move

end RoninOS.Lib
