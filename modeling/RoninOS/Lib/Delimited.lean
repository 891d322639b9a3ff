/-
RoninOS.Lib.Delimited — lists of segments written out with a separator.

`delimited sep segs` writes every segment after one separator, the form of
an absolute path. As long as no segment contains the separator, the writing
determines the segments, and a prefix that ends at a separator (or at the
end) is the writing of a prefix of the segments: `delimited_eq_append_iff`.
-/
import Mathlib.Data.List.Infix

namespace RoninOS.Lib

variable {α : Type*} (sep : α)

/-- Every segment, each after one separator. -/
def delimited (segs : List (List α)) : List α := segs.flatMap (sep :: ·)

@[simp] theorem delimited_nil : delimited sep [] = [] := rfl

@[simp] theorem delimited_cons (seg : List α) (segs : List (List α)) :
    delimited sep (seg :: segs) = sep :: (seg ++ delimited sep segs) := rfl

@[simp] theorem delimited_append (xs ys : List (List α)) :
    delimited sep (xs ++ ys) = delimited sep xs ++ delimited sep ys := by
  simp [delimited]

/-- The list is empty or starts with the separator. -/
def AtBoundary (t : List α) : Prop := ∀ c ∈ t.head?, c = sep

variable {sep}

theorem atBoundary_delimited (segs : List (List α)) : AtBoundary sep (delimited sep segs) := by
  cases segs <;> simp [AtBoundary]

/-- Two separator-free segments followed by boundaries split a list the same way. -/
theorem segment_append_inj {x y s t : List α} (hx : sep ∉ x) (hy : sep ∉ y)
    (hs : AtBoundary sep s) (ht : AtBoundary sep t) (h : x ++ s = y ++ t) :
    x = y ∧ s = t := by
  induction x generalizing y with
  | nil =>
      cases y with
      | nil => exact ⟨rfl, h⟩
      | cons b y =>
          exfalso
          rw [List.nil_append] at h
          exact hy (by rw [hs b (by rw [h]; rfl)]; simp)
  | cons a x ih =>
      cases y with
      | nil =>
          exfalso
          rw [List.nil_append] at h
          exact hx (by rw [ht a (by rw [← h]; rfl)]; simp)
      | cons b y =>
          simp only [List.cons_append, List.cons.injEq] at h
          obtain ⟨hxy, hst⟩ := ih (fun hm => hx (by simp [hm])) (fun hm => hy (by simp [hm])) h.2
          exact ⟨by rw [h.1, hxy], hst⟩

/-- A prefix that ends at a boundary is the writing of a prefix of the
segments, and what follows it is the writing of the others. -/
theorem delimited_eq_append_iff {ms : List (List α)} : ∀ {cs : List (List α)} {t : List α},
    (∀ m ∈ ms, sep ∉ m) → (∀ c ∈ cs, sep ∉ c) →
    ((delimited sep cs = delimited sep ms ++ t ∧ AtBoundary sep t) ↔
      ∃ rest, cs = ms ++ rest ∧ t = delimited sep rest) := by
  induction ms with
  | nil =>
      intro cs t _ _
      constructor
      · rintro ⟨h, _⟩
        exact ⟨cs, rfl, by simpa using h.symm⟩
      · rintro ⟨rest, rfl, rfl⟩
        exact ⟨rfl, atBoundary_delimited _⟩
  | cons m ms ih =>
      intro cs t hms hcs
      constructor
      · rintro ⟨h, ht⟩
        cases cs with
        | nil => simp at h
        | cons c cs =>
            simp only [delimited_cons, List.cons_append, List.cons.injEq, true_and,
              List.append_assoc] at h
            have hb : AtBoundary sep (delimited sep ms ++ t) := by
              cases ms with
              | nil => simpa using ht
              | cons _ _ => simp [AtBoundary]
            obtain ⟨hcm, hrest⟩ := segment_append_inj (hcs c (by simp)) (hms m (by simp))
              (atBoundary_delimited cs) hb h
            obtain ⟨rest, hcs', ht'⟩ := (ih (fun x hx => hms x (by simp [hx]))
              (fun x hx => hcs x (by simp [hx]))).mp ⟨hrest, ht⟩
            exact ⟨rest, by rw [hcm, hcs']; rfl, ht'⟩
      · rintro ⟨rest, rfl, rfl⟩
        exact ⟨by simp, atBoundary_delimited rest⟩

/-- Without its leading separator the writing is the plain join. -/
theorem tail_delimited (segs : List (List α)) :
    (delimited sep segs).tail = [sep].intercalate segs := by
  induction segs with
  | nil => rfl
  | cons seg segs ih =>
      cases segs with
      | nil => simp [List.intercalate]
      | cons seg' segs =>
          rw [delimited_cons, List.tail_cons, List.intercalate_cons_cons, ← ih]
          simp

/-- Splitting at the separator and dropping the empty pieces gives back the
segments of a writing. -/
theorem splitOn_delimited [DecidableEq α] {segs : List (List α)}
    (hsep : ∀ s ∈ segs, sep ∉ s) (hne : ∀ s ∈ segs, s ≠ []) :
    ((delimited sep segs).splitOn sep).filter (· ≠ []) = segs := by
  have hjoin : delimited sep segs = [sep].intercalate ([] :: segs) := by
    cases segs with
    | nil => rfl
    | cons s segs =>
        rw [List.intercalate_cons_cons, ← tail_delimited]
        simp
  rw [hjoin, List.splitOn_intercalate sep (by simpa using hsep) (by simp)]
  simp only [ne_eq, not_true_eq_false, decide_false, Bool.false_eq_true, not_false_eq_true,
    List.filter_cons_of_neg, List.filter_eq_self, decide_eq_true_eq]
  exact hne

end RoninOS.Lib
