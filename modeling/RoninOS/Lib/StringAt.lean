/-
RoninOS.Lib.StringAt — C strings in memory.

`strAt m n` is the string at the start of an array of `n` bytes, and
`HoldsStr m xs` says that the memory starts with the bytes `xs` and a NUL;
`HoldsAt m p xs` says so of the memory from `p` on.
-/
import RoninOS.Lib.Memory
import Mathlib.Data.List.TakeWhile

namespace RoninOS.Lib

/-- The string at the start of an array of `n` bytes: its bytes before the first
NUL. -/
def strAt (m : Mem) (n : Nat) : List UInt8 := (bytesAt m 0 n).takeWhile (· ≠ 0)

/-- The memory starts with these bytes, none of them NUL, and a NUL. -/
structure HoldsStr (m : Mem) (xs : List UInt8) : Prop where
  noNul : 0 ∉ xs
  byte : ∀ i (h : i < xs.length), m i = xs[i]
  terminator : m xs.length = 0

section Holds

variable {m m' : Mem} {xs : List UInt8} {n : Nat}

theorem holdsStr_nil (h : m 0 = 0) : HoldsStr m [] := ⟨by simp, by simp, h⟩

/-- The bytes of the string. -/
theorem HoldsStr.bytesAt_eq (h : HoldsStr m xs) : bytesAt m 0 xs.length = xs := by
  refine List.ext_getElem (length_bytesAt _ _ _) fun i h1 h2 => ?_
  simp only [bytesAt, List.getElem_map, List.getElem_range, Nat.zero_add]
  exact h.byte i h2

/-- An array that is long enough holds it as its string. -/
theorem HoldsStr.strAt_eq (h : HoldsStr m xs) (hn : xs.length ≤ n) : strAt m n = xs := by
  have hall : ∀ x ∈ xs, decide (x ≠ 0) = true := by
    intro x hx
    simpa using fun h0 : x = 0 => h.noNul (h0 ▸ hx)
  obtain ⟨k, rfl⟩ : ∃ k, n = xs.length + k := ⟨n - xs.length, by omega⟩
  rw [strAt, bytesAt_add, h.bytesAt_eq, Nat.zero_add, List.takeWhile_append_of_pos hall]
  cases k with
  | zero => simp [bytesAt]
  | succ k => simp [bytesAt_succ, h.terminator]

/-- Memories that agree on the string and its NUL. -/
theorem HoldsStr.congr (h : HoldsStr m xs) (hsame : ∀ i ≤ xs.length, m' i = m i) :
    HoldsStr m' xs := by
  refine ⟨h.noNul, fun i hi => ?_, ?_⟩
  · rw [hsame i hi.le]
    exact h.byte i hi
  · rw [hsame _ (le_refl _)]
    exact h.terminator

end Holds

/-! ## Strings behind a pointer -/

/-- From `p` on the memory holds these bytes and a NUL. -/
def HoldsAt (m : Mem) (p : Nat) (xs : List UInt8) : Prop := HoldsStr (fun i => m (p + i)) xs

section At

variable {m m' : Mem} {p : Nat} {c : UInt8} {xs ys : List UInt8}

theorem HoldsAt.nul (h : HoldsAt m p xs) : m (p + xs.length) = 0 := HoldsStr.terminator h

theorem holdsAt_nil (h : m p = 0) : HoldsAt m p [] := holdsStr_nil h

theorem HoldsAt.head (h : HoldsAt m p (c :: xs)) : m p = c := HoldsStr.byte h 0 (by simp)

theorem HoldsAt.tail (h : HoldsAt m p (c :: xs)) : HoldsAt m (p + 1) xs := by
  refine ⟨fun h0 => h.noNul (List.mem_cons_of_mem c h0), fun i hi => ?_, ?_⟩
  · have hbyte := h.byte (i + 1) (Nat.succ_lt_succ hi)
    rw [List.getElem_cons_succ] at hbyte
    rw [Nat.add_assoc, Nat.add_comm 1 i]
    exact hbyte
  · have hnul := h.terminator
    rw [Nat.add_assoc, Nat.add_comm 1]
    exact hnul

theorem HoldsAt.of_append (h : HoldsAt m p (xs ++ ys)) : HoldsAt m (p + xs.length) ys := by
  induction xs generalizing p with
  | nil => exact h
  | cons c xs ih =>
      rw [List.length_cons, Nat.add_comm xs.length 1, ← Nat.add_assoc]
      exact ih (HoldsAt.tail h)

/-- Memories that agree on the string and its NUL. -/
theorem HoldsAt.congr (h : HoldsAt m p xs)
    (hsame : ∀ q, p ≤ q → q ≤ p + xs.length → m' q = m q) : HoldsAt m' p xs :=
  HoldsStr.congr h fun i hi => hsame (p + i) (by omega) (by omega)

/-- The byte behind a part of a string is the next one, or the NUL. -/
theorem HoldsAt.behind (h : HoldsAt m p (xs ++ ys)) :
    (ys = [] ∧ m (p + xs.length) = 0) ∨
      ∃ c cs, ys = c :: cs ∧ m (p + xs.length) = c ∧ c ≠ 0 := by
  have hys := h.of_append
  cases ys with
  | nil => exact Or.inl ⟨rfl, hys.nul⟩
  | cons c cs =>
      refine Or.inr ⟨c, cs, rfl, hys.head, ?_⟩
      rintro rfl
      exact h.noNul (by simp)

/-- A string that is not empty begins with a byte other than NUL. -/
theorem HoldsAt.ne_zero (h : HoldsAt m p xs) (hne : xs ≠ []) : m p ≠ 0 := by
  obtain ⟨c, cs, rfl⟩ := List.exists_cons_of_ne_nil hne
  rw [h.head]
  rintro rfl
  exact h.noNul List.mem_cons_self

/-- A code without a NUL starts the string exactly if the memory has its bytes. -/
theorem HoldsAt.isPrefixOf_iff (h : HoldsAt m p xs) {code : List UInt8} (hcode : 0 ∉ code) :
    code.isPrefixOf xs = true ↔ bytesAt m p code.length = code := by
  induction code generalizing p xs with
  | nil => exact iff_of_true (by simp) rfl
  | cons d code ih =>
      rw [List.length_cons, bytesAt_succ, List.cons.injEq]
      cases xs with
      | nil =>
          have hd : m p ≠ d := by
            rw [show m p = 0 from h.nul]
            rintro rfl
            exact hcode (List.mem_cons_self ..)
          simp [hd]
      | cons c xs =>
          rw [List.isPrefixOf_cons_cons, Bool.and_eq_true, beq_iff_eq, h.head,
            ih h.tail fun hmem => hcode (List.mem_cons_of_mem d hmem)]
          exact and_congr_left fun _ => eq_comm

/-- A NUL behind its first part leaves that part. -/
theorem HoldsAt.cut (h : HoldsAt m p (xs ++ ys))
    (hsame : ∀ q, p ≤ q → q < p + xs.length → m' q = m q) (hnul : m' (p + xs.length) = 0) :
    HoldsAt m' p xs := by
  refine ⟨fun h0 => h.noNul (List.mem_append_left ys h0), fun i hi => ?_, hnul⟩
  have hbyte := h.byte i (by rw [List.length_append]; omega)
  rw [List.getElem_append_left hi] at hbyte
  rw [← hbyte]
  exact hsame (p + i) (by omega) (by omega)

end At

end RoninOS.Lib
