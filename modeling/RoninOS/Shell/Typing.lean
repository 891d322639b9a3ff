/-
RoninOS.Shell.Typing — which command lines can be typed at all.

`strokes` is the way back from a character to the scan codes of its key, with Shift
where the character is in `keymap_shift`. Typing is a round trip: the keyboard
driver and the shell turn the strokes of a text and Enter into the command line of
that text. Nothing else reaches `shell_execute_line` (`typed_lines_iff`).
-/
import RoninOS.Shell.SessionTheorems
import RoninOS.Shell.ShellHistory

namespace RoninOS.Shell

open RoninOS.Lib RoninOS.Input

/-! ## Strokes -/

/-- `c >= 32 && c <= 126`. -/
def Printable (c : UInt8) : Prop := 32 ≤ c ∧ c ≤ 126

/-- Pressing and releasing the key of a character. -/
def strokes (c : UInt8) : List UInt8 :=
  if c ∈ keymap then
    let sc := UInt8.ofNat (keymap.idxOf c)
    [sc, sc ||| 0x80]
  else
    let sc := UInt8.ofNat (keymapShift.idxOf c)
    [0x2A, sc, sc ||| 0x80, 0xAA]

/-- The event of the character. -/
def strokeEvent (c : UInt8) : KeyEvent :=
  { code := .char, ch := c, modifiers := if c ∈ keymap then 0 else keymodShift }

/-- The driver after some bytes. -/
def keyboardAfter (k : Keyboard) (bytes : List UInt8) : Keyboard :=
  bytes.foldl (fun k sc => (keyboardIsr k sc).1) k

theorem keyboardRun_append (k : Keyboard) (bytes rest : List UInt8) :
    keyboardRun k (bytes ++ rest) =
      keyboardRun k bytes ++ keyboardRun (keyboardAfter k bytes) rest := by
  induction bytes generalizing k with
  | nil => rfl
  | cons sc bytes ih =>
      rw [List.cons_append, keyboardRun, keyboardRun, ih, List.append_assoc]
      rfl

/-- Each printable character has its strokes, after which the driver is as before. -/
theorem keyboardRun_strokes {c : UInt8} (hc : Printable c) :
    keyboardRun keyboardInit (strokes c) = [strokeEvent c] ∧
      keyboardAfter keyboardInit (strokes c) = keyboardInit := by
  have htable : ∀ n < 127, 32 ≤ n →
      keyboardRun keyboardInit (strokes (UInt8.ofNat n)) = [strokeEvent (UInt8.ofNat n)] ∧
        keyboardAfter keyboardInit (strokes (UInt8.ofNat n)) = keyboardInit := by decide +kernel
  have hlow : 32 ≤ c.toNat := UInt8.le_iff_toNat_le.mp hc.1
  have hhigh : c.toNat ≤ 126 := UInt8.le_iff_toNat_le.mp hc.2
  have hrow := htable c.toNat (by omega) hlow
  rwa [UInt8.ofNat_toNat] at hrow

/-- Typing a text gives its characters. -/
theorem keyboardRun_typed {text : List UInt8} (htext : ∀ c ∈ text, Printable c)
    (rest : List UInt8) : keyboardRun keyboardInit (text.flatMap strokes ++ rest) =
      text.map strokeEvent ++ keyboardRun keyboardInit rest := by
  induction text with
  | nil => rfl
  | cons c text ih =>
      obtain ⟨hevents, hafter⟩ := keyboardRun_strokes (htext c List.mem_cons_self)
      rw [List.flatMap_cons, List.append_assoc, keyboardRun_append, hevents, hafter,
        ih fun x hx => htext x (List.mem_cons_of_mem _ hx)]
      rfl

/-! ## The command line -/

/-- The scan codes of a text and Enter. -/
def typeLine (text : List UInt8) : List UInt8 := text.flatMap strokes ++ [0x1C, 0x9C]

/-- What a key asks of the editor, on both consoles. -/
def consoleCommand (framebuffer : Bool) (ev : KeyEvent) : EditCommand UInt8 :=
  if framebuffer then simpleCommandOf ev else commandOf ev

theorem consoleCommand_strokeEvent (framebuffer : Bool) (c : UInt8) :
    consoleCommand framebuffer (strokeEvent c) = .insert c := by
  cases framebuffer <;> simp [consoleCommand, simpleCommandOf, commandOf, scrolls, strokeEvent]

/-- Only characters are inserted. -/
theorem eq_ch_of_consoleCommand {framebuffer : Bool} {ev : KeyEvent} {c : UInt8}
    (h : consoleCommand framebuffer ev = .insert c) : ev.code = .char ∧ ev.ch = c := by
  cases framebuffer with
  | true =>
      simp only [consoleCommand, if_true, simpleCommandOf] at h
      cases hcode : ev.code <;> simp_all
  | false =>
      simp only [consoleCommand, Bool.false_eq_true, if_false, commandOf] at h
      split at h
      · cases h
      · cases hcode : ev.code <;> simp only [hcode] at h <;> simp_all
        all_goals split at h <;> simp_all

theorem keyboardRun_printable (bytes : List UInt8) : ∀ (k : Keyboard),
    ∀ ev ∈ keyboardRun k bytes, ev.code = .char → Printable ev.ch := by
  induction bytes with
  | nil => intro k ev hev; cases hev
  | cons sc bytes ih =>
      intro k ev hev
      rcases List.mem_append.mp hev with hfirst | hrest
      · exact keyboardIsr_printable k sc ev hfirst
      · exact ih _ ev hrest

/-- The lines that the shell executes while the bytes arrive. -/
def executedLines (framebuffer : Bool) (bytes : List UInt8) : List (List UInt8) :=
  (shellRun (keyboardRun keyboardInit bytes) (shellInit framebuffer shellStatics)).2

/-- They are the lines that the editor submits. -/
theorem executedLines_eq (framebuffer : Bool) (bytes : List UInt8) :
    executedLines framebuffer bytes = (Editor.run shellLimits
      ((keyboardRun keyboardInit bytes).map (consoleCommand framebuffer)) .empty).2 := by
  have hch := ch_ne_zero (keyboardRun_printable bytes keyboardInit)
  have hw := Editor.within_empty shellLimits
  cases framebuffer with
  | true => exact (shellRun_atEnd atEnd_shellInit hw hch).2.1
  | false => exact (shellRun_shows shows_shellInit hw hch).2.1

/-- Typing a line and Enter executes the line. -/
theorem executedLines_typeLine (framebuffer : Bool) {line : List UInt8} (hlen : line.length ≤ 127)
    (hline : ∀ c ∈ line, Printable c) : executedLines framebuffer (typeLine line) = [line] := by
  have henter : keyboardRun keyboardInit [0x1C, 0x9C] = [⟨.enter, 0, 0⟩] := by decide
  have hsubmit : consoleCommand framebuffer ⟨.enter, 0, 0⟩ = .submit := by
    cases framebuffer <;> rfl
  have hinsert : line.map (consoleCommand framebuffer ∘ strokeEvent) = line.map .insert :=
    List.map_congr_left fun c _ => consoleCommand_strokeEvent framebuffer c
  have hroom : (Editor.empty : Editor UInt8).line.text.length + line.length ≤
      shellLimits.capacity := by
    simpa [Editor.empty, TextCursor.atEnd, shellLimits, shellLineMax] using hlen
  rw [executedLines_eq, typeLine, keyboardRun_typed hline, henter, List.map_append, List.map_map,
    hinsert, List.map_singleton, hsubmit, Editor.run_append, Editor.run_insert line rfl hroom]
  rfl

/-- **Typing.** On both consoles, the lines that some scan codes make the shell execute
are exactly the lines of at most 127 printable characters. -/
theorem typed_lines_iff (framebuffer : Bool) (line : List UInt8) :
    (∃ bytes, line ∈ executedLines framebuffer bytes) ↔
      line.length ≤ 127 ∧ ∀ c ∈ line, Printable c := by
  constructor
  · rintro ⟨bytes, hline⟩
    rw [executedLines_eq] at hline
    refine Editor.submitted_run (fun c hc => ?_) (Editor.within_empty shellLimits)
      (Editor.over_empty Printable) line hline
    obtain ⟨ev, hev, hcommand⟩ := List.mem_map.mp hc
    obtain ⟨hcode, rfl⟩ := eq_ch_of_consoleCommand hcommand
    exact keyboardRun_printable bytes keyboardInit ev hev hcode
  · rintro ⟨hlen, hprintable⟩
    refine ⟨typeLine line, ?_⟩
    rw [executedLines_typeLine framebuffer hlen hprintable]
    exact List.mem_singleton_self line

end RoninOS.Shell
