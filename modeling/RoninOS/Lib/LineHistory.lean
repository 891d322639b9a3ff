/-
RoninOS.Lib.LineHistory — the history of a line editor over a whole run.

`kept` is the history without a bound: the submitted lines, no line empty and
none the same as the one kept before it. A history of `depth` lines is the end of
it (`history_run`). `older` and `newer` are steps along the history, so that
repeating them counts from the newest line.
-/
import RoninOS.Lib.LineEditor
import Mathlib.Data.List.Destutter
import Mathlib.Logic.Function.Iterate

namespace RoninOS.Lib.Editor

variable {α : Type}

/-! ## The lines that are kept -/

section Kept

variable [DecidableEq α] {lines : List (List α)} {xs : List α} {depth : Nat}

/-- The submitted lines without the empty ones and without each that is the same as
the one kept before it. -/
def kept (lines : List (List α)) : List (List α) := (lines.filter (· ≠ [])).destutter (· ≠ ·)

theorem destutter'_concat (x : List α) : ∀ (l : List (List α)) (a : List α),
    (l ++ [x]).destutter' (· ≠ ·) a =
      if (l.destutter' (· ≠ ·) a).getLast? = some x then l.destutter' (· ≠ ·) a
      else l.destutter' (· ≠ ·) a ++ [x] := by
  intro l
  induction l with
  | nil =>
      intro a
      by_cases h : a = x
      · simp [h]
      · simp [h]
  | cons b l ih =>
      intro a
      by_cases h : a ≠ b
      · rw [List.cons_append, List.destutter'_cons_pos _ h, List.destutter'_cons_pos _ h, ih,
          List.getLast?_cons_of_ne_nil (List.destutter'_ne_nil l (· ≠ ·))]
        split
        · rfl
        · rfl
      · rw [List.cons_append, List.destutter'_cons_neg _ h, List.destutter'_cons_neg _ h, ih]

/-- One more line. -/
theorem kept_concat (lines : List (List α)) (xs : List α) : kept (lines ++ [xs]) =
    if xs = [] ∨ (kept lines).getLast? = some xs then kept lines else kept lines ++ [xs] := by
  unfold kept
  rw [List.filter_append]
  by_cases hnil : xs = []
  · simp [hnil]
  · have hone : [xs].filter (· ≠ []) = [xs] := by simp [hnil]
    rw [hone]
    cases lines.filter (· ≠ []) with
    | nil => simp [hnil]
    | cons a l =>
        rw [List.cons_append, List.destutter_cons', List.destutter_cons', destutter'_concat]
        simp only [hnil, false_or]

/-- A bounded history loses nothing that the next line is compared with. -/
theorem remember_kept (hdepth : 0 < depth) (lines : List (List α)) (xs : List α) :
    remember depth ((kept lines).rtake depth) xs = (kept (lines ++ [xs])).rtake depth := by
  obtain ⟨n, rfl⟩ := Nat.exists_eq_succ_of_ne_zero (Nat.ne_of_gt hdepth)
  have hlast : ((kept lines).rtake (n + 1)).getLast? = (kept lines).getLast? := by
    rw [List.rtake, List.getLast?_drop]
    split
    · rw [List.eq_nil_of_length_eq_zero (show (kept lines).length = 0 by omega)]
      rfl
    · rfl
  rw [remember, hlast, kept_concat]
  split
  · rfl
  · rw [List.rtake_concat_succ, List.rtake_concat_succ]
    congr 1
    rw [List.rtake, List.rtake, List.rtake, List.length_drop, List.drop_drop]
    congr 1
    omega

/-- A command changes the history only by the line it submits. -/
theorem history_step (lim : EditorLimits α) (e : Editor α) (c : EditCommand α) :
    (step lim e c).1.history =
      (step lim e c).2.elim e.history (remember lim.depth e.history) := by
  cases c with
  | insert x =>
      simp only [step]
      split
      · rfl
      · rfl
  | older =>
      simp only [step, older]
      split
      · rfl
      · rfl
  | newer =>
      simp only [step, newer]
      split
      · rfl
      · split
        · rfl
        · rfl
  | _ => rfl

theorem run_cons (lim : EditorLimits α) (c : EditCommand α) (cs : List (EditCommand α))
    (e : Editor α) : run lim (c :: cs) e =
      ((run lim cs (step lim e c).1).1,
        (step lim e c).2.toList ++ (run lim cs (step lim e c).1).2) := rfl

/-- Over a run the history is the end of the lines kept so far. -/
theorem history_run {lim : EditorLimits α} (hdepth : 0 < lim.depth) (cs : List (EditCommand α)) :
    ∀ (e : Editor α) (lines : List (List α)), e.history = (kept lines).rtake lim.depth →
    (run lim cs e).1.history = (kept (lines ++ (run lim cs e).2)).rtake lim.depth := by
  induction cs with
  | nil =>
      intro e lines h
      rw [run, List.append_nil]
      exact h
  | cons c cs ih =>
      intro e lines h
      have hstep := history_step lim e c
      rw [run_cons]
      cases hout : (step lim e c).2 with
      | none =>
          rw [hout, Option.elim_none] at hstep
          exact ih _ lines (hstep.trans h)
      | some xs =>
          rw [hout, Option.elim_some, h, remember_kept hdepth] at hstep
          have hrest := ih _ (lines ++ [xs]) hstep
          rwa [List.append_assoc] at hrest

end Kept

/-! ## Walking along the history -/

section Walk

variable {e : Editor α}

theorem blank_index_lt (e : Editor α) (i : Nat) (h : none = some i) : i < e.history.length :=
  nomatch h

/-- The editor with an empty line, which is not of the history. -/
def blank (e : Editor α) : Editor α := ⟨.atEnd [], e.history, none, blank_index_lt e⟩

theorem older_none (h : e.index = none) (hlt : e.history.length - 1 < e.history.length) :
    e.older = e.showLine (e.history.length - 1) hlt := by
  have holder : e.olderIndex = e.history.length - 1 := by
    unfold olderIndex
    rw [h]
  simp only [older, holder, dif_pos hlt]

theorem older_showLine {i : Nat} (h : i < e.history.length) (hlt : i - 1 < e.history.length) :
    (e.showLine i h).older = e.showLine (i - 1) hlt := dif_pos hlt

theorem newer_showLine {i : Nat} (h : i < e.history.length) (hlt : i + 1 < e.history.length) :
    (e.showLine i h).newer = e.showLine (i + 1) hlt := dif_pos hlt

theorem newer_showLine_last {i : Nat} (h : i < e.history.length)
    (hlast : e.history.length ≤ i + 1) : (e.showLine i h).newer = e.blank := dif_neg (Nat.not_lt.mpr hlast)

/-- Going back `j` times shows line `j` from the end, or the first line. -/
theorem older_iterate (h : e.index = none) {j : Nat} (hj : 0 < j) (hpos : 0 < e.history.length) :
    older^[j] e = e.showLine (e.history.length - min j e.history.length) (by omega) := by
  induction j, hj using Nat.le_induction with
  | base =>
      have hmin : e.history.length - min 1 e.history.length = e.history.length - 1 := by omega
      simp only [hmin]
      exact older_none h (by omega)
  | succ j hj ih =>
      have hprev : e.history.length - min (j + 1) e.history.length =
          e.history.length - min j e.history.length - 1 := by omega
      rw [Function.iterate_succ_apply', ih, older_showLine _ (by omega)]
      simp only [hprev]

/-- Going on from line `i` shows the lines that follow, and then an empty line. -/
theorem newer_iterate {i : Nat} (h : i < e.history.length) (j : Nat) :
    newer^[j] (e.showLine i h) =
      if hlt : i + j < e.history.length then e.showLine (i + j) hlt else e.blank := by
  induction j with
  | zero => exact (dif_pos h).symm
  | succ j ih =>
      rw [Function.iterate_succ_apply', ih]
      by_cases hnext : i + (j + 1) < e.history.length
      · rw [dif_pos (by omega), dif_pos hnext]
        exact newer_showLine _ _
      · rw [dif_neg hnext]
        by_cases hlt : i + j < e.history.length
        · rw [dif_pos hlt, newer_showLine_last _ (by omega)]
        · rw [dif_neg hlt]
          rfl

end Walk

/-! ## As commands -/

section Commands

variable [DecidableEq α]

theorem run_older (lim : EditorLimits α) (j : Nat) (cs : List (EditCommand α)) (e : Editor α) :
    run lim (List.replicate j .older ++ cs) e = run lim cs (older^[j] e) := by
  induction j generalizing e with
  | zero => rfl
  | succ j ih =>
      rw [List.replicate_succ, List.cons_append, run_cons, Function.iterate_succ_apply]
      exact ih e.older

theorem run_newer (lim : EditorLimits α) (j : Nat) (cs : List (EditCommand α)) (e : Editor α) :
    run lim (List.replicate j .newer ++ cs) e = run lim cs (newer^[j] e) := by
  induction j generalizing e with
  | zero => rfl
  | succ j ih =>
      rw [List.replicate_succ, List.cons_append, run_cons, Function.iterate_succ_apply]
      exact ih e.newer

end Commands

end RoninOS.Lib.Editor
