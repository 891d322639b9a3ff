/-
RoninOS.Lib.Fuel — programs whose loops have a number of rounds.

A program `f` with `n` rounds returns or runs out of them (`none`). What it
returns does not change with more rounds (`FuelMono`), so that a sequence of
programs returns exactly if each of them does on what the one before returns:
there are rounds enough for all. `foldlM_returns_iff` says so of a loop.
-/
import Mathlib.Data.List.Basic

namespace RoninOS.Lib

variable {α β S Op : Type*}

/-- With more rounds the program returns the same. -/
def FuelMono (f : Nat → Option α) : Prop := ∀ n m a, n ≤ m → f n = some a → f m = some a

/-- With some number of rounds the program returns. -/
def Returns (f : Nat → Option α) : Prop := ∃ n a, f n = some a

theorem FuelMono.unique {f : Nat → Option α} (hf : FuelMono f) {n m : Nat} {a b : α}
    (ha : f n = some a) (hb : f m = some b) : a = b := by
  have ha' := hf n (max n m) a (Nat.le_max_left n m) ha
  have hb' := hf m (max n m) b (Nat.le_max_right n m) hb
  exact Option.some.inj (ha'.symm.trans hb')

theorem FuelMono.settles {f : Nat → Option α} (hf : FuelMono f) (hret : Returns f) :
    ∃ a least, ∀ n ≥ least, f n = some a := by
  obtain ⟨n, a, ha⟩ := hret
  exact ⟨a, n, fun m hle => hf n m a hle ha⟩

theorem FuelMono.bind {f : Nat → Option α} {g : Nat → α → Option β} (hf : FuelMono f)
    (hg : ∀ a, FuelMono fun n => g n a) : FuelMono fun n => (f n).bind (g n) := by
  intro n m b hle h
  obtain ⟨a, ha, hb⟩ := Option.bind_eq_some_iff.mp h
  exact Option.bind_eq_some_iff.mpr ⟨a, hf n m a hle ha, hg a n m b hle hb⟩

theorem FuelMono.map {f : Nat → Option α} (hf : FuelMono f) (g : α → β) :
    FuelMono fun n => (f n).map g := by
  intro n m b hle h
  obtain ⟨a, ha, hb⟩ := Option.map_eq_some_iff.mp h
  exact Option.map_eq_some_iff.mpr ⟨a, hf n m a hle ha, hb⟩

theorem returns_map_iff {f : Nat → Option α} (g : α → β) :
    (Returns fun n => (f n).map g) ↔ Returns f := by
  constructor
  · rintro ⟨n, b, h⟩
    obtain ⟨a, ha, -⟩ := Option.map_eq_some_iff.mp h
    exact ⟨n, a, ha⟩
  · rintro ⟨n, a, ha⟩
    exact ⟨n, g a, Option.map_eq_some_iff.mpr ⟨a, ha, rfl⟩⟩

/-- Two programs in a row return exactly if the first one does, and the second
one on what that returns. -/
theorem FuelMono.returns_bind_iff {f : Nat → Option α} {g : Nat → α → Option β} (hf : FuelMono f)
    (hg : ∀ a, FuelMono fun n => g n a) : (Returns fun n => (f n).bind (g n)) ↔
      ∃ a, (∃ n, f n = some a) ∧ Returns fun n => g n a := by
  constructor
  · rintro ⟨n, b, h⟩
    obtain ⟨a, ha, hb⟩ := Option.bind_eq_some_iff.mp h
    exact ⟨a, ⟨n, ha⟩, n, b, hb⟩
  · rintro ⟨a, ⟨n, ha⟩, m, b, hb⟩
    have ha' := hf n (max n m) a (Nat.le_max_left n m) ha
    have hb' := hg a m (max n m) b (Nat.le_max_right n m) hb
    exact ⟨max n m, b, Option.bind_eq_some_iff.mpr ⟨a, ha', hb'⟩⟩

/-! ## Loops -/

variable {next : Nat → S → Op → Option S}

theorem FuelMono.foldlM (hnext : ∀ s op, FuelMono fun n => next n s op) (ops : List Op) (s : S) :
    FuelMono fun n => ops.foldlM (next n) s := by
  induction ops generalizing s with
  | nil => exact fun n m a _ h => h
  | cons op ops ih => exact (hnext s op).bind ih

/-- The condition holds of every step that is come to, in the state it is made in. -/
def EachReached (next : Nat → S → Op → Option S) (Q : S → Op → Prop) : List Op → S → Prop
  | [], _ => True
  | op :: ops, s => Q s op ∧ ∀ n s', next n s op = some s' → EachReached next Q ops s'

/-- A loop returns exactly if each of its steps does that it comes to. -/
theorem foldlM_returns_iff {Q : S → Op → Prop} (hnext : ∀ s op, FuelMono fun n => next n s op)
    {ops : List Op} (hQ : ∀ op ∈ ops, ∀ s, (Returns fun n => next n s op) ↔ Q s op) (s : S) :
    (Returns fun n => ops.foldlM (next n) s) ↔ EachReached next Q ops s := by
  induction ops generalizing s with
  | nil => exact iff_of_true ⟨0, s, rfl⟩ trivial
  | cons op ops ih =>
      have hrest := ih fun op' hop' => hQ op' (List.mem_cons_of_mem _ hop')
      have hseq : (Returns fun n => (op :: ops).foldlM (next n) s) ↔
          ∃ s', (∃ n, next n s op = some s') ∧ Returns fun n => ops.foldlM (next n) s' :=
        (hnext s op).returns_bind_iff (FuelMono.foldlM hnext ops)
      rw [hseq, EachReached, ← hQ op (List.mem_cons_self ..) s]
      constructor
      · rintro ⟨s₁, ⟨n, hn⟩, hreturns⟩
        refine ⟨⟨n, s₁, hn⟩, fun m s' hm => ?_⟩
        obtain rfl := (hnext s op).unique hn hm
        exact (hrest s₁).mp hreturns
      · rintro ⟨⟨n, s₁, hn⟩, hall⟩
        exact ⟨s₁, ⟨n, hn⟩, (hrest s₁).mpr (hall n s₁ hn)⟩

end RoninOS.Lib
