/-
RoninOS.Apps.NumberTheorems — what the two copies of `parse_u32` read.

Both copies go through the digits in 32-bit arithmetic and look at nothing but
the digits, so they read a numeral as its value modulo 2^32. A numeral from
2^32 on becomes another number (`parseU32_exact_iff`), and `disk read` then
reads the sector of that number (`cmdRead_mod`).
-/
import RoninOS.Apps.AppDisk
import RoninOS.Apps.AppSched
import RoninOS.Lib.Numeral

namespace RoninOS.Apps

open RoninOS.Lib RoninOS.Drivers

/-- The number read is the value of the string, and only numerals below 2^32
are read. -/
def ReadsExactly (read : Option Nat) (s : List UInt8) : Prop :=
  ∀ v, read = some v ↔ IsNumeral s ∧ numeralValue s = v ∧ v < 2 ^ 32

/-! ## The loops -/

/-- One step of both loops. -/
def accumulate (v : Nat) (c : UInt8) : Nat := add32 (mul32 v 10) (c.toNat - 48)

theorem foldl_accumulate (s : List UInt8) : s.foldl accumulate 0 = numeralValue s % 2 ^ 32 := by
  have hstep : ∀ (v : Nat) (c : UInt8),
      accumulate (v % 2 ^ 32) c = (v * 10 + (c.toNat - 48)) % 2 ^ 32 := by
    intro v c
    simp only [accumulate, add32, mul32]
    omega
  rw [numeralValue_eq_foldl]
  exact foldl_mod hstep s 0

theorem not_isDigit_iff (c : UInt8) : c < 48 ∨ c > 57 ↔ ¬ IsDigit c := by
  rw [IsDigit, not_and_or, UInt8.not_le, UInt8.not_le]

theorem AppDisk.parseLoop_eq (s : List UInt8) (v : Nat) :
    parseLoop s v = if AllDigits s then some (s.foldl accumulate v) else none := by
  induction s generalizing v with
  | nil => rw [parseLoop, if_pos allDigits_nil, List.foldl_nil]
  | cons c s ih =>
      simp only [parseLoop, not_isDigit_iff, ih, allDigits_cons]
      by_cases hc : IsDigit c
      · simp [hc, accumulate]
      · simp [hc]

theorem AppSched.parseLoop_eq (s : List UInt8) (seen : Bool) (v : Nat) :
    parseLoop s seen v = if AllDigits s then some (seen || !s.isEmpty, s.foldl accumulate v)
      else none := by
  induction s generalizing seen v with
  | nil => simp [parseLoop, allDigits_nil]
  | cons c s ih =>
      simp only [parseLoop, not_isDigit_iff, ih, allDigits_cons]
      by_cases hc : IsDigit c
      · simp [hc, accumulate]
      · simp [hc]

/-! ## The copies -/

/-- The copy of `disk` reads every numeral, modulo 2^32. -/
theorem AppDisk.parseU32_eq (s : CString) : parseU32 (some s) =
    if IsNumeral s.bytes then some (numeralValue s.bytes % 2 ^ 32) else none := by
  rw [parseU32]
  by_cases hnil : s.bytes = []
  · rw [if_pos hnil, if_neg fun h => h.1 hnil]
  · rw [if_neg hnil, parseLoop_eq, foldl_accumulate]
    simp [IsNumeral, hnil]

/-- So does the copy of `spawn`. -/
theorem AppSched.parseU32_eq (s : CString) : parseU32 s =
    if IsNumeral s.bytes then some (numeralValue s.bytes % 2 ^ 32) else none := by
  rw [parseU32, parseLoop_eq, foldl_accumulate]
  by_cases hdigits : AllDigits s.bytes
  · rw [if_pos hdigits]
    by_cases hnil : s.bytes = []
    · simp [IsNumeral, hnil]
    · rw [if_pos (show IsNumeral s.bytes from ⟨hnil, hdigits⟩)]
      simp [hnil]
  · rw [if_neg hdigits, if_neg fun h => hdigits h.2]
    rfl

/-- Reading modulo 2^32 is reading exactly unless the numeral is too large. -/
theorem readsExactly_mod_iff (s : List UInt8) :
    ReadsExactly (if IsNumeral s then some (numeralValue s % 2 ^ 32) else none) s ↔
      ¬ (IsNumeral s ∧ 2 ^ 32 ≤ numeralValue s) := by
  by_cases hs : IsNumeral s
  · rw [if_pos hs]
    constructor
    · rintro h ⟨-, hlarge⟩
      obtain ⟨-, heq, hlt⟩ := (h _).mp rfl
      omega
    · intro h v
      have hlt : numeralValue s < 2 ^ 32 := by
        by_contra hge
        exact h ⟨hs, Nat.le_of_not_lt hge⟩
      rw [Nat.mod_eq_of_lt hlt, Option.some.injEq]
      constructor
      · rintro rfl
        exact ⟨hs, rfl, hlt⟩
      · exact fun hv => hv.2.1
  · rw [if_neg hs]
    refine iff_of_true (fun v => ⟨fun hv => ?_, fun hv => absurd hv.1 hs⟩) fun h => hs h.1
    cases hv

/-- Both copies read a string exactly unless it is a numeral of 2^32 or more. -/
theorem parseU32_exact_iff (s : CString) :
    (ReadsExactly (AppDisk.parseU32 (some s)) s.bytes ↔
      ¬ (IsNumeral s.bytes ∧ 2 ^ 32 ≤ numeralValue s.bytes)) ∧
    (ReadsExactly (AppSched.parseU32 s) s.bytes ↔
      ¬ (IsNumeral s.bytes ∧ 2 ^ 32 ≤ numeralValue s.bytes)) := by
  rw [AppDisk.parseU32_eq, AppSched.parseU32_eq]
  exact ⟨readsExactly_mod_iff s.bytes, readsExactly_mod_iff s.bytes⟩

/-- `4294967296`, that is 2^32. -/
def twoPow32 : CString := ⟨ascii "4294967296", by decide⟩

/-- Both copies read 2^32 as 0. -/
theorem parseU32_wraps : ¬ ReadsExactly (AppDisk.parseU32 (some twoPow32)) twoPow32.bytes ∧
    ¬ ReadsExactly (AppSched.parseU32 twoPow32) twoPow32.bytes := by
  have hvalue : numeralValue twoPow32.bytes ≠ 0 := by
    rw [numeralValue_eq_foldl]
    decide
  have hdisk : AppDisk.parseU32 (some twoPow32) = some 0 := by decide
  have hsched : AppSched.parseU32 twoPow32 = some 0 := by decide
  exact ⟨fun h => hvalue ((h 0).mp hdisk).2.1, fun h => hvalue ((h 0).mp hsched).2.1⟩

/-! ## The commands -/

/-- `disk read` of a numeral is `disk read` of every other one with the same
value modulo 2^32. -/
theorem cmdRead_mod (devs : List AtaDev) (name countS : CString) {lbaS lbaS' : CString}
    (hs : IsNumeral lbaS.bytes) (hs' : IsNumeral lbaS'.bytes)
    (hmod : numeralValue lbaS.bytes % 2 ^ 32 = numeralValue lbaS'.bytes % 2 ^ 32)
    (buf : Nat → UInt16) (p : PortIo) :
    AppDisk.cmdRead devs name lbaS countS buf p = AppDisk.cmdRead devs name lbaS' countS buf p := by
  have hread : AppDisk.parseU32 (some lbaS) = AppDisk.parseU32 (some lbaS') := by
    rw [AppDisk.parseU32_eq, AppDisk.parseU32_eq, if_pos hs, if_pos hs', hmod]
  rw [AppDisk.cmdRead, AppDisk.cmdRead, hread]

/-- So is `spawn`, of the number of threads. -/
theorem appSpawnMain_mod (bootstrap workerEntry : Nat) (stackOf : Nat → Nat) (cmd : CString)
    {n n' : CString} (hs : IsNumeral n.bytes) (hs' : IsNumeral n'.bytes)
    (hmod : numeralValue n.bytes % 2 ^ 32 = numeralValue n'.bytes % 2 ^ 32) (s : Sched.Scheduler) :
    AppSched.appSpawnMain bootstrap workerEntry stackOf [cmd, n] s
      = AppSched.appSpawnMain bootstrap workerEntry stackOf [cmd, n'] s := by
  have hread : AppSched.parseU32 n = AppSched.parseU32 n' := by
    rw [AppSched.parseU32_eq, AppSched.parseU32_eq, if_pos hs, if_pos hs', hmod]
  simp only [AppSched.appSpawnMain, List.getElem?_cons_succ, List.getElem?_cons_zero,
    Option.bind_some, hread]

end RoninOS.Apps
