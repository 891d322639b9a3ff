/-
RoninOS.Lib.Teletype — a teletype of characters.

The cursor is always on the paper. Writing past the last column starts a new line,
a new line below the last one moves all lines up and leaves the last one blank,
and going back passes from the first column to the end of the line before.
-/
import Mathlib.Logic.Function.Basic

namespace RoninOS.Lib

/-- The cursor and what is written in each column of each line. -/
structure Teletype (α : Type*) (cols rows : Nat) where
  x : Nat
  y : Nat
  x_lt : x < cols
  y_lt : y < rows
  grid : Nat → Nat → α

namespace Teletype

variable {α : Type*} {cols rows : Nat} (blank : α)

/-- A blank page. -/
def start (hcols : 0 < cols) (hrows : 0 < rows) : Teletype α cols rows where
  x := 0
  y := 0
  x_lt := hcols
  y_lt := hrows
  grid := fun _ _ => blank

variable (t : Teletype α cols rows)

/-- Nothing is written. -/
def Blank : Prop := ∀ x < cols, ∀ y < rows, t.grid x y = blank

/-- The cursor at the start of its line. -/
def carriageReturn : Teletype α cols rows :=
  { t with x := 0, x_lt := Nat.lt_of_le_of_lt (Nat.zero_le _) t.x_lt }

/-- A blank page again. -/
def clear : Teletype α cols rows :=
  start blank (Nat.lt_of_le_of_lt (Nat.zero_le _) t.x_lt)
    (Nat.lt_of_le_of_lt (Nat.zero_le _) t.y_lt)

/-- All lines move up. -/
def scroll : Teletype α cols rows :=
  { t with grid := fun x y => if y + 1 < rows then t.grid x (y + 1) else blank }

/-- The start of the next line. -/
def newline : Teletype α cols rows :=
  if h : t.y + 1 < rows then { t.carriageReturn with y := t.y + 1, y_lt := h }
  else (t.scroll blank).carriageReturn

/-- A character at the cursor. -/
def write (c : α) : Teletype α cols rows :=
  { t with grid := Function.update t.grid t.x (Function.update (t.grid t.x) t.y c) }

/-- The cursor behind what was written. -/
def advance : Teletype α cols rows :=
  if h : t.x + 1 < cols then { t with x := t.x + 1, x_lt := h } else t.newline blank

/-- The cursor before what was written. -/
def back : Teletype α cols rows :=
  if 0 < t.x then { t with x := t.x - 1, x_lt := Nat.lt_of_le_of_lt (Nat.sub_le _ _) t.x_lt }
  else if 0 < t.y then
    { t with
      x := cols - 1
      x_lt := Nat.sub_lt (Nat.lt_of_le_of_lt (Nat.zero_le _) t.x_lt) Nat.one_pos
      y := t.y - 1
      y_lt := Nat.lt_of_le_of_lt (Nat.sub_le _ _) t.y_lt }
  else t

theorem scroll_grid (x y : Nat) :
    (t.scroll blank).grid x y = if y + 1 < rows then t.grid x (y + 1) else blank := rfl

theorem write_grid (c : α) (x y : Nat) :
    (t.write c).grid x y = if x = t.x ∧ y = t.y then c else t.grid x y := by
  unfold write
  by_cases hx : x = t.x
  · subst hx
    by_cases hy : y = t.y <;> simp [hy]
  · simp [hx]

/-- Only on the last line does a new line move the others. -/
theorem newline_of_lt (h : t.y + 1 < rows) : (t.newline blank).y = t.y + 1 ∧
    (t.newline blank).grid = t.grid := by
  rw [newline, dif_pos h]
  exact ⟨rfl, rfl⟩

theorem newline_of_last (h : t.y + 1 = rows) : (t.newline blank).y = t.y ∧
    (t.newline blank).grid = (t.scroll blank).grid := by
  rw [newline, dif_neg (Nat.not_lt.mpr (Nat.le_of_eq h.symm))]
  exact ⟨rfl, rfl⟩

theorem newline_x : (t.newline blank).x = 0 := by
  unfold newline
  split <;> rfl

/-- Moving a blank page up leaves a blank page. -/
theorem Blank.scroll {t : Teletype α cols rows} (h : t.Blank blank) :
    (t.scroll blank).Blank blank := by
  intro x hx y hy
  rw [scroll_grid]
  split
  · next hnext => exact h x hx (y + 1) hnext
  · rfl

/-- With one line nothing is left of it. -/
theorem blank_newline_of_oneRow (h : rows = 1) : (t.newline blank).Blank blank := by
  intro x _ y hy
  have hlast : t.y + 1 = rows := by
    have hlt := t.y_lt
    omega
  rw [(t.newline_of_last blank hlast).2, scroll_grid, if_neg (by omega)]

end Teletype

end RoninOS.Lib
