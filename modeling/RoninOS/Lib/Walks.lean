/-
RoninOS.Lib.Walks — loops `while (cond(a)) a = next(a);`.

Such a loop ends exactly if it comes back to no place, where the places are
finitely many (`walkEnds_iff`). `EndsIn` is a loop that ends within a number of
rounds, the form in which a loop with fuel returns. A loop that adds a step to a
32-bit place comes back exactly if some of its steps in a row add up to a
multiple of 2^32 (`sumWalk_ends_iff`); over equal steps the places are a residue
class, so that a bound on them decides the end (`stepWalk_ends_iff`).
-/
import RoninOS.Lib.Word32
import Mathlib.Algebra.BigOperators.Intervals
import Mathlib.Data.Fintype.Pigeonhole
import Mathlib.Data.Int.GCD
import Mathlib.Data.Int.ModEq
import Mathlib.Logic.Function.Iterate

namespace RoninOS.Lib

section Walks

variable {α : Type*} {cond : α → Prop} {next : α → α} {a : α}

/-- The loop ends. -/
def WalkEnds (cond : α → Prop) (next : α → α) (a : α) : Prop := ∃ n, ¬ cond (next^[n] a)

/-- The loop ends in fewer than `fuel` rounds. -/
def EndsIn (cond : α → Prop) (next : α → α) (a : α) (fuel : Nat) : Prop :=
  ∃ n < fuel, ¬ cond (next^[n] a) ∧ ∀ k < n, cond (next^[k] a)

theorem endsIn_succ {fuel : Nat} : EndsIn cond next a (fuel + 1) ↔
    ¬ cond a ∨ (cond a ∧ EndsIn cond next (next a) fuel) := by
  constructor
  · rintro ⟨n, hn, hexit, hstay⟩
    cases n with
    | zero => exact Or.inl hexit
    | succ n =>
        exact Or.inr ⟨hstay 0 (Nat.succ_pos n), n, Nat.lt_of_succ_lt_succ hn, hexit,
          fun k hk => hstay (k + 1) (Nat.succ_lt_succ hk)⟩
  · rintro (hexit | ⟨hcond, n, hn, hexit, hstay⟩)
    · exact ⟨0, Nat.succ_pos _, hexit, fun k hk => absurd hk (Nat.not_lt_zero k)⟩
    · refine ⟨n + 1, Nat.succ_lt_succ hn, hexit, fun k hk => ?_⟩
      cases k with
      | zero => exact hcond
      | succ k => exact hstay k (Nat.lt_of_succ_lt_succ hk)

theorem EndsIn.mono {fuel fuel' : Nat} (h : EndsIn cond next a fuel) (hle : fuel ≤ fuel') :
    EndsIn cond next a fuel' := by
  obtain ⟨n, hn, hrest⟩ := h
  exact ⟨n, Nat.lt_of_lt_of_le hn hle, hrest⟩

theorem walkEnds_iff_endsIn : WalkEnds cond next a ↔ ∃ fuel, EndsIn cond next a fuel := by
  constructor
  · intro h
    classical
    refine ⟨Nat.find h + 1, Nat.find h, Nat.lt_succ_self _, Nat.find_spec h, fun k hk => ?_⟩
    exact not_not.mp (Nat.find_min h hk)
  · rintro ⟨-, n, -, hexit, -⟩
    exact ⟨n, hexit⟩

/-- A walk that comes back to a place goes round for ever. -/
theorem not_walkEnds_of_return {i j : Nat} (hij : i < j) (hstay : ∀ k < j, cond (next^[k] a))
    (hback : next^[i] a = next^[j] a) : ¬ WalkEnds cond next a := by
  rintro ⟨n, hexit⟩
  refine hexit ?_
  clear hexit
  induction n using Nat.strong_induction_on with
  | _ n ih =>
      by_cases hn : n < j
      · exact hstay n hn
      · -- the place is the one `j - i` rounds before
        obtain ⟨m, rfl⟩ : ∃ m, n = m + j := ⟨n - j, by omega⟩
        rw [Function.iterate_add_apply, ← hback, ← Function.iterate_add_apply]
        exact ih (m + i) (by omega)

/-- The loop runs its body at this place. -/
def Reached (cond : α → Prop) (next : α → α) (a b : α) : Prop :=
  ∃ n, next^[n] a = b ∧ ∀ k ≤ n, cond (next^[k] a)

theorem reached_iff {b : α} :
    Reached cond next a b ↔ cond a ∧ (a = b ∨ Reached cond next (next a) b) := by
  constructor
  · rintro ⟨n, hn, hstay⟩
    refine ⟨hstay 0 (Nat.zero_le n), ?_⟩
    cases n with
    | zero => exact Or.inl hn
    | succ n => exact Or.inr ⟨n, hn, fun k hk => hstay (k + 1) (Nat.succ_le_succ hk)⟩
  · rintro ⟨hcond, rfl | ⟨n, hn, hstay⟩⟩
    · exact ⟨0, rfl, fun k hk => by rwa [Nat.le_zero.mp hk]⟩
    · refine ⟨n + 1, hn, fun k hk => ?_⟩
      cases k with
      | zero => exact hcond
      | succ k => exact hstay k (Nat.le_of_succ_le_succ hk)

theorem Reached.cond_at {b : α} (h : Reached cond next a b) : cond b := by
  obtain ⟨n, rfl, hstay⟩ := h
  exact hstay n (Nat.le_refl n)

end Walks

/-! ## Finitely many places -/

section Places

variable {cond : Nat → Prop} {next : Nat → Nat} {N : Nat}

/-- A walk over `N` places has come back to one of them after `N + 1` rounds. -/
theorem exists_return (hnext : ∀ a, next a < N) (a : Nat) :
    ∃ i j, i < j ∧ j ≤ N + 1 ∧ next^[i] a = next^[j] a := by
  obtain ⟨i, j, hne, heq⟩ := Fintype.exists_ne_map_eq_of_card_lt
    (fun k : Fin (N + 1) => (⟨next^[k + 1] a, by
      rw [Function.iterate_succ_apply']
      exact hnext _⟩ : Fin N)) (by simp)
  have hback : next^[i + 1] a = next^[j + 1] a := congrArg Fin.val heq
  rcases Nat.lt_or_gt_of_ne (fun hij => hne (Fin.ext hij)) with hlt | hlt
  · exact ⟨i + 1, j + 1, by omega, by omega, hback⟩
  · exact ⟨j + 1, i + 1, by omega, by omega, hback.symm⟩

/-- Over finitely many places a loop ends exactly if it comes back to no place. -/
theorem walkEnds_iff (hnext : ∀ a, next a < N) (a : Nat) : WalkEnds cond next a ↔
    ∀ i j, i < j → (∀ k < j, cond (next^[k] a)) → next^[i] a ≠ next^[j] a := by
  constructor
  · exact fun h i j hij hstay hback => not_walkEnds_of_return hij hstay hback h
  · intro h
    by_contra hforever
    obtain ⟨i, j, hij, -, hback⟩ := exists_return hnext a
    refine h i j hij (fun k _ => ?_) hback
    by_contra hexit
    exact hforever ⟨k, hexit⟩

/-- A loop over `N` places that ends does so within `N + 1` rounds. -/
theorem WalkEnds.endsIn (hnext : ∀ a, next a < N) {a : Nat} (h : WalkEnds cond next a) :
    EndsIn cond next a (N + 2) := by
  obtain ⟨-, n, -, hexit, hstay⟩ := walkEnds_iff_endsIn.mp h
  refine ⟨n, ?_, hexit, hstay⟩
  by_contra hn
  obtain ⟨i, j, hij, hj, hback⟩ := exists_return hnext a
  exact not_walkEnds_of_return hij (fun k hk => hstay k (by omega)) hback h

end Places

/-! ## Adding steps -/

section Steps

variable {cond : Nat → Prop} {next step : Nat → Nat} {a : Nat}

theorem iterate_add_eq (hstep : ∀ i, next (next^[i] a) = add32 (next^[i] a) (step (next^[i] a)))
    {i : Nat} (hi : next^[i] a < 2 ^ 32) (n : Nat) : next^[i + n] a =
      (next^[i] a + ∑ k ∈ Finset.Ico i (i + n), step (next^[k] a)) % 2 ^ 32 := by
  induction n with
  | zero => rw [Nat.add_zero, Finset.Ico_self, Finset.sum_empty, Nat.add_zero, Nat.mod_eq_of_lt hi]
  | succ n ih =>
      rw [← Nat.add_assoc, Function.iterate_succ_apply', hstep, add32,
        Finset.sum_Ico_succ_top (Nat.le_add_right i n), ← Nat.add_assoc,
        ← Nat.mod_add_mod (next^[i] a + _), ← ih]

/-- A loop that adds steps to a 32-bit place ends exactly if no steps in a row
add up to a multiple of 2^32. -/
theorem sumWalk_ends_iff (ha : a < 2 ^ 32) (hnext : ∀ a, next a < 2 ^ 32)
    (hstep : ∀ i, next (next^[i] a) = add32 (next^[i] a) (step (next^[i] a))) :
    WalkEnds cond next a ↔ ∀ i j, i < j → (∀ k < j, cond (next^[k] a)) →
      (∑ k ∈ Finset.Ico i j, step (next^[k] a)) % 2 ^ 32 ≠ 0 := by
  have hlt : ∀ i, next^[i] a < 2 ^ 32 := fun i => by
    cases i with
    | zero => exact ha
    | succ i =>
        rw [Function.iterate_succ_apply']
        exact hnext _
  have hback : ∀ i j, i < j → (next^[i] a = next^[j] a ↔
      (∑ k ∈ Finset.Ico i j, step (next^[k] a)) % 2 ^ 32 = 0) := fun i j hij => by
    obtain ⟨n, rfl⟩ := Nat.exists_eq_add_of_lt hij
    have hi := hlt i
    rw [Nat.add_assoc, iterate_add_eq hstep hi (n + 1)]
    omega
  rw [walkEnds_iff hnext]
  exact forall₃_congr fun i j hij => imp_congr_right fun _ => not_congr (hback i j hij)

end Steps

/-! ## Equal steps -/

/-- The places after the first are 32-bit addresses. -/
theorem iterate_add32 (a e n : Nat) :
    (fun x => add32 x e)^[n + 1] a = (a + (n + 1) * e) % 2 ^ 32 := by
  induction n with
  | zero =>
      rw [Nat.zero_add, Nat.one_mul]
      rfl
  | succ n ih =>
      rw [Function.iterate_succ_apply', ih, add32, Nat.mod_add_mod, Nat.succ_mul (n + 1),
        Nat.add_assoc]

/-- The places that steps of `e` reach from `a`: every number of its residue class. -/
theorem exists_steps_iff {a e x : Nat} (ha : a < 2 ^ 32) (hx : x < 2 ^ 32) :
    (∃ n, (a + n * e) % 2 ^ 32 = x) ↔ x % Nat.gcd e (2 ^ 32) = a % Nat.gcd e (2 ^ 32) := by
  have hde : Nat.gcd e (2 ^ 32) ∣ e := Nat.gcd_dvd_left _ _
  have hd32 : Nat.gcd e (2 ^ 32) ∣ 2 ^ 32 := Nat.gcd_dvd_right _ _
  constructor
  · rintro ⟨n, rfl⟩
    rw [Nat.mod_mod_of_dvd _ hd32]
    exact (Nat.modEq_iff_dvd' (Nat.le_add_right _ _)).mpr
      (by rw [Nat.add_sub_cancel_left]; exact hde.mul_left n) |>.symm
  · intro hmod
    by_cases hlt : Nat.gcd e (2 ^ 32) < 2 ^ 32
    · obtain ⟨m, -, hm⟩ := Nat.exists_mul_mod_eq_gcd hlt
      have hdvd : Nat.gcd e (2 ^ 32) ∣ x + 2 ^ 32 - a := by
        refine (Nat.modEq_iff_dvd' (by omega)).mp ?_
        rw [Nat.ModEq, ← hmod, Nat.add_mod, Nat.mod_eq_zero_of_dvd hd32, Nat.add_zero, Nat.mod_mod]
      obtain ⟨t, ht⟩ := hdvd
      refine ⟨m * t, ?_⟩
      calc (a + m * t * e) % 2 ^ 32 = (a + e * m * t) % 2 ^ 32 := by ring_nf
        _ = (a + e * m % 2 ^ 32 * t) % 2 ^ 32 := by
            rw [Nat.add_mod, Nat.mul_mod, Nat.add_mod a (_ * t), Nat.mul_mod (_ % _) t, Nat.mod_mod]
        _ = (a + Nat.gcd e (2 ^ 32) * t) % 2 ^ 32 := by rw [hm]
        _ = (x + 2 ^ 32) % 2 ^ 32 := by
            rw [← ht]
            congr 1
            omega
        _ = x := by rw [Nat.add_mod_right, Nat.mod_eq_of_lt hx]
    · have heq : Nat.gcd e (2 ^ 32) = 2 ^ 32 :=
        Nat.le_antisymm (Nat.le_of_dvd (by decide) hd32) (Nat.le_of_not_lt hlt)
      rw [heq, Nat.mod_eq_of_lt hx, Nat.mod_eq_of_lt ha] at hmod
      exact ⟨0, by rw [Nat.zero_mul, Nat.add_zero, Nat.mod_eq_of_lt ha, hmod]⟩

/-- The largest place of a residue class. -/
theorem le_of_mod_eq {a d N x : Nat} (hd : d ∣ N) (hx : x < N)
    (hmod : x % d = a % d) : x ≤ N - d + a % d := by
  obtain ⟨q, rfl⟩ := hd
  have hq : x / d < q := Nat.div_lt_of_lt_mul hx
  have hmul : d * (x / d) + d ≤ d * q := Nat.mul_le_mul_left d hq
  have hdiv := Nat.div_add_mod x d
  omega

/-- `while ((a + e) mod 2^32 <= lim) a = (a + e) mod 2^32;` ends exactly if the
largest place of the residue class is above the limit. -/
theorem stepWalk_ends_iff {a e lim : Nat} (ha : a < 2 ^ 32) :
    WalkEnds (fun x => add32 x e ≤ lim) (fun x => add32 x e) a ↔
      lim < 2 ^ 32 - Nat.gcd e (2 ^ 32) + a % Nat.gcd e (2 ^ 32) := by
  have hpos : 0 < Nat.gcd e (2 ^ 32) := Nat.gcd_pos_of_pos_right e (by decide)
  have hd32 : Nat.gcd e (2 ^ 32) ∣ 2 ^ 32 := Nat.gcd_dvd_right _ _
  have hplace : ∀ n, add32 ((fun x => add32 x e)^[n] a) e = (a + (n + 1) * e) % 2 ^ 32 := by
    intro n
    rw [← iterate_add32, Function.iterate_succ_apply']
  constructor
  · rintro ⟨n, hexit⟩
    beta_reduce at hexit
    rw [hplace] at hexit
    have hlt := Nat.mod_lt (a + (n + 1) * e) (show 2 ^ 32 > 0 by decide)
    have hmod := (exists_steps_iff ha hlt).mp ⟨n + 1, rfl⟩
    exact Nat.lt_of_lt_of_le (Nat.lt_of_not_le hexit) (le_of_mod_eq hd32 hlt hmod)
  · intro hlim
    have hmod := Nat.mod_lt a hpos
    have hle : Nat.gcd e (2 ^ 32) ≤ 2 ^ 32 := Nat.le_of_dvd (by decide) hd32
    obtain ⟨n, hn⟩ := (exists_steps_iff (e := e) ha (show 2 ^ 32 - Nat.gcd e (2 ^ 32) +
        a % Nat.gcd e (2 ^ 32) < 2 ^ 32 by omega)).mpr (by
      obtain ⟨q, hq⟩ := Nat.dvd_sub hd32 (dvd_refl (Nat.gcd e (2 ^ 32)))
      rw [hq, Nat.mul_add_mod, Nat.mod_mod])
    -- the loop tests the place after a step: one turn round the address space more
    refine ⟨n + (2 ^ 32 - 1), ?_⟩
    beta_reduce
    rw [hplace, Nat.add_assoc, Nat.sub_add_cancel (by decide), Nat.add_mul, ← Nat.add_assoc,
      Nat.add_mul_mod_self_left, hn]
    exact Nat.not_le.mpr hlim

end RoninOS.Lib
