/-
RoninOS.Lib.LineEditor — a line editor with a history, over any alphabet.

A `TextCursor` is a text with a place in it, between two characters or at an
end. An `Editor` adds the lines submitted before, oldest first, and the one of
them that it shows. `EditorLimits` gives the longest text, the number of lines
that the history keeps, and the characters that separate words. `Editor.Within`
is what every step keeps.
-/
import Mathlib.Data.List.DropRight

namespace RoninOS.Lib

variable {α : Type}

/-! ## A text and a place in it -/

/-- A text and a place in it: the number of characters before the place. -/
structure TextCursor (α : Type) where
  text : List α
  cursor : Nat
  cursor_le : cursor ≤ text.length

namespace TextCursor

/-- A text with the cursor at its end. -/
def atEnd (xs : List α) : TextCursor α := ⟨xs, xs.length, le_refl _⟩

/-- A character comes in before the cursor. -/
def insert (c : TextCursor α) (x : α) : TextCursor α where
  text := c.text.insertIdx c.cursor x
  cursor := c.cursor + 1
  cursor_le := by
    have hle := c.cursor_le
    rw [List.length_insertIdx_of_le_length hle]
    omega

/-- The character before the cursor goes. -/
def backspace (c : TextCursor α) : TextCursor α :=
  if h : c.cursor = 0 then c
  else {
    text := c.text.eraseIdx (c.cursor - 1)
    cursor := c.cursor - 1
    cursor_le := by
      have hle := c.cursor_le
      rw [List.length_eraseIdx_of_lt (by omega)]
      omega }

/-- The character at the cursor goes. -/
def delete (c : TextCursor α) : TextCursor α :=
  if h : c.cursor < c.text.length then {
    text := c.text.eraseIdx c.cursor
    cursor := c.cursor
    cursor_le := by
      rw [List.length_eraseIdx_of_lt h]
      omega }
  else c

/-- The cursor moves to a place, or to the end. -/
def moveTo (c : TextCursor α) (k : Nat) : TextCursor α :=
  ⟨c.text, min k c.text.length, Nat.min_le_right _ _⟩

/-- The place before the word that ends before the cursor, blanks between them
skipped. -/
def wordStart (c : TextCursor α) (blank : α → Bool) : Nat :=
  (((c.text.take c.cursor).rdropWhile blank).rdropWhile fun x => !blank x).length

/-- The place behind the word at the cursor and the blanks that follow it. -/
def wordEnd (c : TextCursor α) (blank : α → Bool) : Nat :=
  c.text.length - (((c.text.drop c.cursor).dropWhile fun x => !blank x).dropWhile blank).length

/-- Only `insert` makes a text longer. -/
theorem length_backspace_le (c : TextCursor α) : c.backspace.text.length ≤ c.text.length := by
  unfold backspace
  split
  · exact le_refl _
  · exact List.length_eraseIdx_le _ _

theorem length_delete_le (c : TextCursor α) : c.delete.text.length ≤ c.text.length := by
  unfold delete
  split
  · exact List.length_eraseIdx_le _ _
  · exact le_refl _

theorem length_insert (c : TextCursor α) (x : α) :
    (c.insert x).text.length = c.text.length + 1 :=
  List.length_insertIdx_of_le_length c.cursor_le x

end TextCursor

/-! ## The editor -/

/-- The longest text, the number of lines kept, and the characters between words. -/
structure EditorLimits (α : Type) where
  capacity : Nat
  depth : Nat
  blank : α → Bool

/-- A text being edited, the submitted lines, and which of them it was loaded
from. -/
structure Editor (α : Type) where
  line : TextCursor α
  history : List (List α)
  index : Option Nat
  index_lt : ∀ i, index = some i → i < history.length

/-- What the user can ask for. -/
inductive EditCommand (α : Type)
  | insert (x : α)
  | backspace | delete | left | right | wordLeft | wordRight | home | «end»
  | older | newer | submit | idle

namespace Editor

/-- Nothing typed, nothing submitted. -/
def empty : Editor α := ⟨.atEnd [], [], none, by simp⟩

/-- The history after a submitted line: neither an empty line nor a repetition
is kept, and no more than the newest lines. -/
def remember [DecidableEq α] (depth : Nat) (history : List (List α)) (xs : List α) :
    List (List α) :=
  if xs = [] ∨ history.getLast? = some xs then history else (history ++ [xs]).rtake depth

/-- The line `i` of the history, for editing. -/
def showLine (e : Editor α) (i : Nat) (h : i < e.history.length) : Editor α where
  line := .atEnd e.history[i]
  history := e.history
  index := some i
  index_lt := fun j hj => Option.some.inj hj ▸ h

/-- The place of the line before the one shown, or of the newest one. -/
def olderIndex (e : Editor α) : Nat :=
  match e.index with
  | none => e.history.length - 1
  | some i => i - 1

/-- The line before the one shown, or the newest one. -/
def older (e : Editor α) : Editor α :=
  if h : e.olderIndex < e.history.length then e.showLine e.olderIndex h else e

/-- The line after the one shown, or none. -/
def newer (e : Editor α) : Editor α :=
  match e.index with
  | none => e
  | some i =>
      if h : i + 1 < e.history.length then e.showLine (i + 1) h
      else ⟨.atEnd [], e.history, none, by simp⟩

/-- One command: the editor after it, and the line it submits. -/
def step [DecidableEq α] (lim : EditorLimits α) (e : Editor α) :
    EditCommand α → Editor α × Option (List α)
  | .insert x =>
      (if e.line.text.length < lim.capacity then { e with line := e.line.insert x } else e, none)
  | .backspace => ({ e with line := e.line.backspace }, none)
  | .delete => ({ e with line := e.line.delete }, none)
  | .left => ({ e with line := e.line.moveTo (e.line.cursor - 1) }, none)
  | .right => ({ e with line := e.line.moveTo (e.line.cursor + 1) }, none)
  | .wordLeft => ({ e with line := e.line.moveTo (e.line.wordStart lim.blank) }, none)
  | .wordRight => ({ e with line := e.line.moveTo (e.line.wordEnd lim.blank) }, none)
  | .home => ({ e with line := e.line.moveTo 0 }, none)
  | .end => ({ e with line := e.line.moveTo e.line.text.length }, none)
  | .older => (e.older, none)
  | .newer => (e.newer, none)
  | .submit =>
      (⟨.atEnd [], remember lim.depth e.history e.line.text, none, by simp⟩, some e.line.text)
  | .idle => (e, none)

/-- A run: the editor after it, and the lines submitted, in order. -/
def run [DecidableEq α] (lim : EditorLimits α) : List (EditCommand α) → Editor α →
    Editor α × List (List α)
  | [], e => (e, [])
  | c :: cs, e =>
      let (e', submitted) := step lim e c
      let (e'', rest) := run lim cs e'
      (e'', submitted.toList ++ rest)

/-! ## What every step keeps -/

/-- The text and the lines of the history have at most `capacity` characters,
and the history has at most `depth` lines. -/
structure Within (lim : EditorLimits α) (e : Editor α) : Prop where
  text : e.line.text.length ≤ lim.capacity
  lines : ∀ xs ∈ e.history, xs.length ≤ lim.capacity
  history : e.history.length ≤ lim.depth

theorem within_empty (lim : EditorLimits α) : Within lim empty :=
  ⟨Nat.zero_le _, by simp [empty], Nat.zero_le _⟩

/-- Only the text changes. -/
theorem Within.withLine {lim : EditorLimits α} {e : Editor α} (h : Within lim e)
    {c : TextCursor α} (hc : c.text.length ≤ lim.capacity) : Within lim { e with line := c } :=
  ⟨hc, h.lines, h.history⟩

theorem Within.showLine {lim : EditorLimits α} {e : Editor α} (h : Within lim e) {i : Nat}
    (hi : i < e.history.length) : Within lim (e.showLine i hi) :=
  ⟨h.lines _ (List.getElem_mem hi), h.lines, h.history⟩

theorem length_rtake_le (depth : Nat) (l : List α) : (l.rtake depth).length ≤ depth := by
  rw [List.rtake, List.length_drop]
  omega

theorem Within.step [DecidableEq α] {lim : EditorLimits α} {e : Editor α} (h : Within lim e)
    (c : EditCommand α) : Within lim (step lim e c).1 := by
  cases c with
  | insert x =>
      simp only [Editor.step]
      split
      · rename_i hlt
        refine h.withLine ?_
        rw [TextCursor.length_insert]
        exact hlt
      · exact h
  | backspace => exact h.withLine ((TextCursor.length_backspace_le _).trans h.text)
  | delete => exact h.withLine ((TextCursor.length_delete_le _).trans h.text)
  | left => exact h.withLine h.text
  | right => exact h.withLine h.text
  | wordLeft => exact h.withLine h.text
  | wordRight => exact h.withLine h.text
  | home => exact h.withLine h.text
  | «end» => exact h.withLine h.text
  | older =>
      simp only [Editor.step, older]
      split
      · exact h.showLine _
      · exact h
  | newer =>
      simp only [Editor.step, newer]
      split
      · exact h
      · split
        · exact h.showLine _
        · exact ⟨Nat.zero_le _, h.lines, h.history⟩
  | submit =>
      simp only [Editor.step, remember]
      split
      · exact ⟨Nat.zero_le _, h.lines, h.history⟩
      · refine ⟨Nat.zero_le _, fun xs hxs => ?_, length_rtake_le _ _⟩
        rcases List.mem_append.mp (List.mem_of_mem_drop hxs) with hold | hnew
        · exact h.lines xs hold
        · rw [List.mem_singleton.mp hnew]
          exact h.text
  | idle => exact h

/-! ## The alphabet -/

/-- The text and the lines of the history are made of certain characters. -/
structure Over (P : α → Prop) (e : Editor α) : Prop where
  text : ∀ x ∈ e.line.text, P x
  lines : ∀ xs ∈ e.history, ∀ x ∈ xs, P x

section Alphabet

variable {P : α → Prop} {e : Editor α} {lim : EditorLimits α}

theorem over_empty (P : α → Prop) : Over P empty :=
  ⟨by simp [empty, TextCursor.atEnd], by simp [empty]⟩

theorem Over.withLine (h : Over P e) {c : TextCursor α} (hc : ∀ x ∈ c.text, P x) :
    Over P { e with line := c } := ⟨hc, h.lines⟩

theorem Over.showLine (h : Over P e) {i : Nat} (hi : i < e.history.length) :
    Over P (e.showLine i hi) := ⟨h.lines _ (List.getElem_mem hi), h.lines⟩

/-- Where only such characters are inserted, they stay the only ones. -/
theorem Over.step [DecidableEq α] (h : Over P e) (c : EditCommand α)
    (hc : ∀ x, c = .insert x → P x) : Over P (step lim e c).1 := by
  cases c with
  | insert x =>
      simp only [Editor.step]
      split
      · refine h.withLine fun y hy => ?_
        rcases (List.mem_insertIdx e.line.cursor_le).mp hy with rfl | hold
        · exact hc y rfl
        · exact h.text y hold
      · exact h
  | backspace =>
      refine h.withLine fun y hy => ?_
      unfold TextCursor.backspace at hy
      split at hy
      · exact h.text y hy
      · exact h.text y (List.mem_of_mem_eraseIdx hy)
  | delete =>
      refine h.withLine fun y hy => ?_
      unfold TextCursor.delete at hy
      split at hy
      · exact h.text y (List.mem_of_mem_eraseIdx hy)
      · exact h.text y hy
  | left => exact h.withLine h.text
  | right => exact h.withLine h.text
  | wordLeft => exact h.withLine h.text
  | wordRight => exact h.withLine h.text
  | home => exact h.withLine h.text
  | «end» => exact h.withLine h.text
  | older =>
      simp only [Editor.step, older]
      split
      · exact h.showLine _
      · exact h
  | newer =>
      simp only [Editor.step, newer]
      split
      · exact h
      · split
        · exact h.showLine _
        · exact ⟨by simp [TextCursor.atEnd], h.lines⟩
  | submit =>
      refine ⟨by simp [Editor.step, TextCursor.atEnd], fun xs hxs => ?_⟩
      simp only [Editor.step, remember] at hxs
      split at hxs
      · exact h.lines xs hxs
      · rcases List.mem_append.mp (List.mem_of_mem_drop hxs) with hold | hnew
        · exact h.lines xs hold
        · rw [List.mem_singleton.mp hnew]
          exact h.text
  | idle => exact h

/-- A submitted line is the text. -/
theorem step_submitted [DecidableEq α] {c : EditCommand α} {xs : List α}
    (hxs : (step lim e c).2 = some xs) : xs = e.line.text := by
  cases c <;> simp_all [step]

/-- The lines of a run fit, and are made of what was inserted. -/
theorem submitted_run [DecidableEq α] {cs : List (EditCommand α)}
    (hcs : ∀ x, EditCommand.insert x ∈ cs → P x) (hw : Within lim e) (h : Over P e) :
    ∀ xs ∈ (run lim cs e).2, xs.length ≤ lim.capacity ∧ ∀ x ∈ xs, P x := by
  induction cs generalizing e with
  | nil => simp [run]
  | cons c cs ih =>
      intro xs hxs
      rw [run] at hxs
      rcases List.mem_append.mp hxs with hfirst | hrest
      · obtain rfl := step_submitted (Option.mem_toList.mp hfirst)
        exact ⟨hw.text, h.text⟩
      · refine ih (fun x hx => hcs x (List.mem_cons_of_mem _ hx)) (hw.step c)
          (h.step c fun x hx => ?_) xs hrest
        exact hcs x (hx ▸ List.mem_cons_self)

end Alphabet

/-! ## Typing -/

theorem run_append [DecidableEq α] {lim : EditorLimits α} (cs ds : List (EditCommand α)) :
    ∀ (e : Editor α), run lim (cs ++ ds) e =
      ((run lim ds (run lim cs e).1).1, (run lim cs e).2 ++ (run lim ds (run lim cs e).1).2) := by
  induction cs with
  | nil => intro e; rfl
  | cons c cs ih => intro e; simp [run, ih]

/-- Inserting a text that fits at the end of the line puts it there. -/
theorem run_insert [DecidableEq α] {lim : EditorLimits α} (xs : List α) :
    ∀ {e : Editor α}, e.line.cursor = e.line.text.length →
      e.line.text.length + xs.length ≤ lim.capacity →
      run lim (xs.map .insert) e = ({ e with line := .atEnd (e.line.text ++ xs) }, []) := by
  induction xs with
  | nil =>
      intro e hcursor _
      obtain ⟨⟨text, cursor, hle⟩, history, index, hindex⟩ := e
      obtain rfl : cursor = text.length := hcursor
      simp [run, TextCursor.atEnd]
  | cons x xs ih =>
      intro e hcursor hroom
      rw [List.length_cons] at hroom
      have hlt : e.line.text.length < lim.capacity := by omega
      have hinsert : e.line.insert x = .atEnd (e.line.text ++ [x]) := by
        simp [TextCursor.insert, TextCursor.atEnd, hcursor, List.insertIdx_length_self]
      have hnext := @ih { e with line := .atEnd (e.line.text ++ [x]) } rfl
        (by simp [TextCursor.atEnd]; omega)
      simp only [List.map_cons, run, step, if_pos hlt, hinsert]
      rw [hnext]
      simp [TextCursor.atEnd]

end Editor

end RoninOS.Lib
