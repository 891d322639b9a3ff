/-
RoninOS.Lib.CString — C strings and the comparison functions of
`kernel/lib/string.c`.

A C string is the list of its bytes up to the terminating NUL. The functions
below read the list's end as that NUL, so on lists without a zero byte they
compute what the C functions compute; `CString` carries the proof.
-/
import Mathlib.Data.List.Basic
import Mathlib.Data.List.TakeDrop

namespace RoninOS.Lib

/-- The bytes of a run of ASCII characters. -/
def ascii (s : String) : List UInt8 := s.toList.map (fun c => c.toNat.toUInt8)

/-- A C string: its bytes without the terminating NUL. -/
structure CString where
  bytes : List UInt8
  noNul : 0 ∉ bytes

/-- `strlen`. -/
def strlen (s : List UInt8) : Nat := s.length

/-- `strcmp`: the difference of the first bytes that differ, or of the two
terminators. -/
def strcmp : List UInt8 → List UInt8 → Int
  | a :: as, b :: bs => if a = b then strcmp as bs else (a.toNat : Int) - b.toNat
  | a, b => ((a.headD 0).toNat : Int) - (b.headD 0).toNat

/-- `strncmp`. -/
def strncmp : List UInt8 → List UInt8 → Nat → Int
  | _, _, 0 => 0
  | a, b, n + 1 =>
      let ca := a.headD 0
      let cb := b.headD 0
      if ca ≠ cb then (ca.toNat : Int) - cb.toNat
      else if ca = 0 then 0
      else strncmp a.tail b.tail n

theorem toNat_sub_eq_zero_iff (a b : UInt8) : (a.toNat : Int) - b.toNat = 0 ↔ a = b := by
  rw [← UInt8.toNat_inj]
  omega

/-- `strcmp` returns 0 exactly on equal strings. -/
theorem strcmp_eq_zero_iff : ∀ {a b : List UInt8}, 0 ∉ a → 0 ∉ b →
    (strcmp a b = 0 ↔ a = b)
  | [], [], _, _ => by simp [strcmp]
  | [], b :: bs, _, hb => by
      have hb0 : b ≠ 0 := fun h => hb (by simp [h])
      rw [strcmp]
      · simp only [List.headD_nil, List.headD_cons, toNat_sub_eq_zero_iff]
        exact ⟨fun h => absurd h.symm hb0, fun h => by simp at h⟩
      · simp
  | a :: as, [], ha, _ => by
      have ha0 : a ≠ 0 := fun h => ha (by simp [h])
      rw [strcmp]
      · simp only [List.headD_nil, List.headD_cons, toNat_sub_eq_zero_iff]
        exact ⟨fun h => absurd h ha0, fun h => by simp at h⟩
      · simp
  | a :: as, b :: bs, ha, hb => by
      rw [strcmp]
      by_cases hab : a = b
      · rw [if_pos hab, strcmp_eq_zero_iff (fun h => ha (by simp [h])) (fun h => hb (by simp [h]))]
        simp [hab]
      · rw [if_neg hab, toNat_sub_eq_zero_iff]
        simp [hab]

/-- `strncmp` returns 0 exactly when the first `n` bytes agree. -/
theorem strncmp_eq_zero_iff : ∀ {a b : List UInt8} (n : Nat), 0 ∉ a → 0 ∉ b →
    (strncmp a b n = 0 ↔ a.take n = b.take n)
  | _, _, 0, _, _ => by simp [strncmp]
  | [], [], n + 1, _, _ => by simp [strncmp]
  | [], b :: bs, n + 1, _, hb => by
      have hb0 : (0 : UInt8) ≠ b := fun h => hb (by simp [h])
      have hb' : b.toNat ≠ 0 := fun h => hb0 (UInt8.toNat_inj.mp h.symm)
      simp [strncmp, hb0, hb']
  | a :: as, [], n + 1, ha, _ => by
      have ha0 : a ≠ 0 := fun h => ha (by simp [h])
      have ha' : a.toNat ≠ 0 := fun h => ha0 (UInt8.toNat_inj.mp h)
      simp [strncmp, ha0, ha']
  | a :: as, b :: bs, n + 1, ha, hb => by
      have ha0 : a ≠ 0 := fun h => ha (by simp [h])
      have ih := strncmp_eq_zero_iff (a := as) (b := bs) n
        (fun h => ha (by simp [h])) (fun h => hb (by simp [h]))
      by_cases hab : a = b
      · subst hab
        simp [strncmp, ha0, ih]
      · simp [strncmp, hab, toNat_sub_eq_zero_iff]

/-- With enough bytes on both sides, `strncmp` returns 0 exactly when the first
`n` bytes agree, as soon as one side has no NUL. -/
theorem strncmp_eq_zero_iff_of_length : ∀ {a b : List UInt8} {n : Nat}, n ≤ a.length →
    n ≤ b.length → 0 ∉ b → (strncmp a b n = 0 ↔ a.take n = b.take n)
  | _, _, 0, _, _, _ => by simp [strncmp]
  | a :: as, b :: bs, n + 1, ha, hb, hnul => by
      have hb0 : b ≠ 0 := fun h => hnul (by simp [h])
      have ih := strncmp_eq_zero_iff_of_length (a := as) (b := bs) (n := n)
        (Nat.le_of_succ_le_succ ha) (Nat.le_of_succ_le_succ hb) (fun h => hnul (by simp [h]))
      by_cases hab : a = b
      · subst hab
        simp [strncmp, hb0, ih]
      · simp [strncmp, hab, toNat_sub_eq_zero_iff]

/-- The string at `l`, cut to `m` bytes, is the first `k` bytes exactly where
none of them is NUL and a NUL follows them, unless they are `m`. -/
theorem take_str_eq_iff : ∀ {l : List UInt8} {m k : Nat}, m < l.length → k ≤ l.length →
    ((l.takeWhile (· ≠ 0)).take m = l.take k ↔
      k ≤ m ∧ 0 ∉ l.take k ∧ (k < m → l.getD k 0 = 0))
  | [], _, _, hm, _ => absurd hm (Nat.not_lt_zero _)
  | a :: as, 0, k, _, _ => by
      cases k with
      | zero => simp
      | succ k => simp
  | a :: as, m + 1, 0, _, _ => by
      by_cases ha : a = 0
      · simp [ha]
      · simp [ha]
  | a :: as, m + 1, k + 1, hm, hk => by
      by_cases ha : a = 0
      · simp [ha]
      · have ha' : ¬ (0 : UInt8) = a := fun h => ha h.symm
        have ih := take_str_eq_iff (l := as) (m := m) (k := k) (by simpa using hm) (by simpa using hk)
        simpa [ha, ha'] using ih

end RoninOS.Lib
