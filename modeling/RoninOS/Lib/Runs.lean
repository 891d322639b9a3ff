/-
RoninOS.Lib.Runs — runs of a system whose calls can be undefined.

`next s op` is the state after a call, or `none`. A run is a list of calls.
`AllStates` says that a property holds in every state of it, `AllCalls` that a
condition holds of every call in the state it is made in. What calls that meet
the condition keep, their runs keep (`AllCalls.invariant`). Where the condition
is exactly what keeps the property, the two are the same (`allStates_iff`).
-/
import Mathlib.Data.List.Basic

namespace RoninOS.Lib

variable {S Op : Type*} (next : S → Op → Option S)

/-- Every call of a run is defined, and the property holds in every state. -/
def AllStates (P : S → Prop) : List Op → S → Prop
  | [], s => P s
  | op :: ops, s => P s ∧ ∃ s', next s op = some s' ∧ AllStates P ops s'

/-- The condition holds of every call of a run. -/
def AllCalls (Q : S → Op → Prop) : List Op → S → Prop
  | [], _ => True
  | op :: ops, s => Q s op ∧ ∀ s', next s op = some s' → AllCalls Q ops s'

variable {next} {P : S → Prop} {Q : S → Op → Prop} {R : Op → Prop}

theorem AllStates.head {ops : List Op} {s : S} (h : AllStates next P ops s) : P s := by
  cases ops with
  | nil => exact h
  | cons op ops => exact h.1

/-- The property holds in the state a run ends in. -/
theorem AllStates.last {ops : List Op} {s s' : S} (h : AllStates next P ops s)
    (hrun : ops.foldlM next s = some s') : P s' := by
  induction ops generalizing s with
  | nil =>
      obtain rfl := Option.some.inj hrun
      exact h
  | cons op ops ih =>
      obtain ⟨-, s₁, hnext, hrest⟩ := h
      rw [List.foldlM_cons, hnext] at hrun
      exact ih hrest hrun

/-- What satisfies the equations of `AllCalls` is `AllCalls`. -/
theorem allCalls_unique {F : List Op → S → Prop} (hnil : ∀ s, F [] s)
    (hcons : ∀ op ops s, F (op :: ops) s ↔ Q s op ∧ ∀ s', next s op = some s' → F ops s')
    (ops : List Op) (s : S) : F ops s ↔ AllCalls next Q ops s := by
  induction ops generalizing s with
  | nil => exact iff_of_true (hnil s) trivial
  | cons op ops ih =>
      rw [hcons]
      exact and_congr_right fun _ => forall_congr' fun s' => imp_congr_right fun _ => ih s'

/-- What satisfies the equations of `AllStates` is `AllStates`. -/
theorem allStates_unique {F : List Op → S → Prop} (hnil : ∀ s, F [] s ↔ P s)
    (hcons : ∀ op ops s, F (op :: ops) s ↔ P s ∧ ∃ s', next s op = some s' ∧ F ops s')
    (ops : List Op) (s : S) : F ops s ↔ AllStates next P ops s := by
  induction ops generalizing s with
  | nil => exact hnil s
  | cons op ops ih =>
      rw [hcons]
      exact and_congr_right fun _ => exists_congr fun s' => and_congr_right fun _ => ih s'

theorem allCalls_of_mem {ops : List Op} (h : ∀ op ∈ ops, ∀ s, Q s op) (s : S) :
    AllCalls next Q ops s := by
  induction ops generalizing s with
  | nil => exact trivial
  | cons op ops ih =>
      exact ⟨h op (List.mem_cons_self ..) s,
        fun s' _ => ih (fun op' hop' => h op' (List.mem_cons_of_mem _ hop')) s'⟩

/-- What calls that meet a condition keep holds at the end of a run of them. -/
theorem AllCalls.invariant {ops : List Op} {s s' : S} (hall : AllCalls next Q ops s)
    (Inv : S → Prop) (hkeep : ∀ s op s', Inv s → Q s op → next s op = some s' → Inv s')
    (hinv : Inv s) (hrun : ops.foldlM next s = some s') : Inv s' := by
  induction ops generalizing s with
  | nil =>
      obtain rfl := Option.some.inj hrun
      exact hinv
  | cons op ops ih =>
      rw [List.foldlM_cons] at hrun
      obtain ⟨s₁, hnext, hrun⟩ := Option.bind_eq_some_iff.mp hrun
      exact ih (hall.2 s₁ hnext) (hkeep s op s₁ hinv hall.1 hnext) hrun

/-- What every call keeps holds at the end of a run. -/
theorem run_invariant (Inv : S → Prop)
    (hkeep : ∀ s op s', Inv s → next s op = some s' → Inv s') {ops : List Op} {s s' : S}
    (hinv : Inv s) (hrun : ops.foldlM next s = some s') : Inv s' := by
  have hall : AllCalls next (fun _ _ => True) ops s := allCalls_of_mem (fun _ _ _ => trivial) s
  exact hall.invariant Inv (fun s op s' hinv _ hnext => hkeep s op s' hinv hnext) hinv hrun

/-- Two conditions that agree under an invariant agree throughout a run. -/
theorem allCalls_congr {Q' : S → Op → Prop} (Inv : S → Prop)
    (hkeep : ∀ s op s', Inv s → next s op = some s' → Inv s')
    (hiff : ∀ s op, Inv s → (Q s op ↔ Q' s op)) {ops : List Op} {s : S} (hinv : Inv s) :
    AllCalls next Q ops s ↔ AllCalls next Q' ops s := by
  induction ops generalizing s with
  | nil => exact Iff.rfl
  | cons op ops ih =>
      exact and_congr (hiff s op hinv) (forall_congr' fun s' => forall_congr' fun hnext =>
        ih (hkeep s op s' hinv hnext))

/-- An invariant that gives the property, that calls which meet the condition
keep and that others break the property from: the property holds throughout a
run exactly where all its calls meet the condition. -/
theorem allStates_iff (Inv : S → Prop) (hgives : ∀ s, Inv s → P s)
    (hdefined : ∀ s op, Inv s → R op → ∃ s', next s op = some s')
    (hkeep : ∀ s op s', Inv s → R op → Q s op → next s op = some s' → Inv s')
    (hbreak : ∀ s op s', Inv s → R op → ¬ Q s op → next s op = some s' → ¬ P s')
    {ops : List Op} {s : S} (hinv : Inv s) (hops : ∀ op ∈ ops, R op) :
    AllStates next P ops s ↔ AllCalls next Q ops s := by
  induction ops generalizing s with
  | nil => exact iff_of_true (hgives s hinv) trivial
  | cons op ops ih =>
      have hop := hops op (List.mem_cons_self ..)
      obtain ⟨s', hnext⟩ := hdefined s op hinv hop
      have hsame : ∀ s'', next s op = some s'' → s'' = s' := by
        intro s'' h
        rw [hnext] at h
        exact (Option.some.inj h).symm
      by_cases hcond : Q s op
      · have hrest := ih (hkeep s op s' hinv hop hcond hnext)
          fun op' hop' => hops op' (List.mem_cons_of_mem _ hop')
        constructor
        · rintro ⟨-, s'', hnext', hall⟩
          obtain rfl := hsame s'' hnext'
          refine ⟨hcond, fun s₁ h₁ => ?_⟩
          rw [hsame s₁ h₁]
          exact hrest.mp hall
        · rintro ⟨-, hall⟩
          exact ⟨hgives s hinv, s', hnext, hrest.mpr (hall s' hnext)⟩
      · refine iff_of_false (fun hall => ?_) fun hall => hcond hall.1
        obtain ⟨-, s'', hnext', hall⟩ := hall
        exact hbreak s op s'' hinv hop hcond hnext' hall.head

end RoninOS.Lib
