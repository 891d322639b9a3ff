/-
RoninOS.Shell.Shell — the line editor of `kernel/shell/shell.c`: the history,
`shell_init` and `shell_handle_key`.

The statics of the file are the state. A key yields the line that it passes to
`shell_execute_line`, if any; what that command does, and drawing the prompt,
the input line and the scrollback, changes none of the statics and is left out.
The arrays of 128 bytes are memories that start at 0.
-/
import RoninOS.Input.Keyboard
import RoninOS.Lib.StringAt
import RoninOS.Lib.Word32

namespace RoninOS.Shell

open RoninOS.Lib RoninOS.Input

/-! ## Statics -/

/-- `SHELL_LINE_MAX`. -/
def shellLineMax : Nat := 128
/-- `SHELL_HISTORY_MAX`. -/
def shellHistoryMax : Nat := 32

/-- The statics of `shell.c`. -/
structure ShellState where
  line : Mem
  len : Nat
  cursor : Nat
  history : Nat → Mem
  histCount : Nat
  histIndex : Int
  simpleMode : Bool

/-- Their initial values. -/
def shellStatics : ShellState where
  line := fun _ => 0
  len := 0
  cursor := 0
  history := fun _ _ => 0
  histCount := 0
  histIndex := -1
  simpleMode := false

/-! ## The history -/

/-- The loop of `history_store` over a full history, from row `i` on: each row is
copied to the one before it. -/
def shiftRows : Nat → Nat → (Nat → Mem) → Nat → Mem
  | 0, _, history => history
  | rounds + 1, i, history =>
      shiftRows rounds (i + 1) (Function.update history (i - 1)
        (stBytes (history (i - 1)) 0 (bytesAt (history i) 0 shellLineMax)))

/-- `history_store`. -/
def historyStore (g : ShellState) : ShellState :=
  if g.len = 0 then g
  else if g.histCount > 0 ∧ strcmp (strAt (g.history (g.histCount - 1)) shellLineMax)
      (strAt g.line shellLineMax) = 0 then g
  else
    let (i, g) :=
      if g.histCount < shellHistoryMax then
        (g.histCount, { g with histCount := g.histCount + 1 })
      else
        (shellHistoryMax - 1,
          { g with history := shiftRows (shellHistoryMax - 1) 1 g.history })
    let row := stBytes (g.history i) 0 (bytesAt g.line 0 g.len)
    { g with history := Function.update g.history i (Function.update row g.len 0) }

/-- The loop of `history_load`, from byte `i` on. -/
def loadBytes (row : Mem) : Nat → Nat → Mem → Mem × Nat
  | 0, i, line => (line, i)
  | rounds + 1, i, line =>
      if row i = 0 then (line, i)
      else loadBytes row rounds (i + 1) (Function.update line i (row i))

/-- `history_load`. -/
def historyLoad (index : Int) (g : ShellState) : ShellState :=
  if index < 0 ∨ index ≥ g.histCount then g
  else
    let (line, i) := loadBytes (g.history index.toNat) (shellLineMax - 1) 0 g.line
    { g with line := Function.update line i 0, len := i, cursor := i }

/-! ## The input line -/

/-- The empty line. -/
def clearLine (g : ShellState) : ShellState :=
  { g with line := Function.update g.line 0 0, len := 0, cursor := 0 }

/-- `shell_init`; `framebuffer` is what `console_using_framebuffer` returns. -/
def shellInit (framebuffer : Bool) (g : ShellState) : ShellState :=
  { clearLine g with simpleMode := framebuffer }

/-- `for (i = g_len; i > g_cursor; i--) g_line[i] = g_line[i - 1];`, from `i` on. -/
def openGap (cursor : Nat) : Nat → Mem → Mem
  | 0, line => line
  | i + 1, line =>
      if i + 1 > cursor then openGap cursor i (Function.update line (i + 1) (line i)) else line

/-- `for (; i < g_len - 1; i++) g_line[i] = g_line[i + 1];`, for a number of rounds. -/
def closeGap : Nat → Nat → Mem → Mem
  | 0, _, line => line
  | rounds + 1, i, line => closeGap rounds (i + 1) (Function.update line i (line (i + 1)))

/-- `while (g_cursor > 0 && p(g_line[g_cursor - 1])) g_cursor--;`. -/
def skipBack (p : UInt8 → Bool) (line : Mem) : Nat → Nat
  | 0 => 0
  | cursor + 1 => if p (line cursor) then skipBack p line cursor else cursor + 1

/-- `while (g_cursor < g_len && p(g_line[g_cursor])) g_cursor++;`, with so many
characters up to `g_len`. -/
def skipAhead (p : UInt8 → Bool) (line : Mem) : Nat → Nat → Nat
  | 0, cursor => cursor
  | rounds + 1, cursor =>
      if p (line cursor) then skipAhead p line rounds (cursor + 1) else cursor

/-- `c == ' '`. -/
def isSpace (c : UInt8) : Bool := c == 32

/-- `c != ' '`. -/
def notSpace (c : UInt8) : Bool := !isSpace c

/-- The string that `shell_execute_line` copies out of its argument. -/
def executedLine (line : Mem) : List UInt8 := strAt line 127

/-- The end of both `KEY_ENTER` cases: the line is stored and executed, and then
emptied. -/
def submitLine (g : ShellState) : ShellState × Option (List UInt8) :=
  let g := historyStore g
  ({ clearLine g with histIndex := -1 }, some (executedLine g.line))

/-! ## `shell_handle_key` -/

/-- The `switch` for the framebuffer console. -/
def handleSimple (ev : KeyEvent) (g : ShellState) : ShellState × Option (List UInt8) :=
  match ev.code with
  | .char =>
      if g.len < shellLineMax - 1 ∧ g.cursor = g.len then
        ({ g with
          line := Function.update (Function.update g.line g.cursor ev.ch) (g.cursor + 1) 0
          cursor := g.cursor + 1
          len := g.cursor + 1 }, none)
      else (g, none)
  | .backspace =>
      if g.cursor > 0 ∧ g.cursor = g.len then
        ({ g with
          line := Function.update g.line (g.len - 1) 0
          len := g.len - 1
          cursor := g.cursor - 1 }, none)
      else (g, none)
  | .enter => submitLine g
  | _ => (g, none)

/-- Removing the character at `i`, as `KEY_BACKSPACE` and `KEY_DELETE` do. -/
def removeAt (i : Nat) (g : ShellState) : ShellState :=
  { g with
    line := Function.update (closeGap (sub32 g.len 1 - i) i g.line) (sub32 g.len 1) 0
    len := sub32 g.len 1 }

/-- The `switch` for the terminal. -/
def handleTerminal (ev : KeyEvent) (g : ShellState) : ShellState × Option (List UInt8) :=
  match ev.code with
  | .char =>
      if g.len < shellLineMax - 1 then
        ({ g with
          line := Function.update (Function.update (openGap g.cursor g.len g.line) g.cursor ev.ch)
            (g.len + 1) 0
          len := g.len + 1
          cursor := g.cursor + 1 }, none)
      else (g, none)
  | .backspace =>
      if g.cursor > 0 then
        ({ removeAt (sub32 g.cursor 1) g with cursor := sub32 g.cursor 1 }, none)
      else (g, none)
  | .delete => if g.cursor < g.len then (removeAt g.cursor g, none) else (g, none)
  | .left =>
      if ev.modifiers &&& keymodCtrl ≠ 0 then
        ({ g with cursor := skipBack notSpace g.line (skipBack isSpace g.line g.cursor) }, none)
      else if g.cursor > 0 then ({ g with cursor := sub32 g.cursor 1 }, none)
      else (g, none)
  | .right =>
      if ev.modifiers &&& keymodCtrl ≠ 0 then
        let cursor := skipAhead notSpace g.line (g.len - g.cursor) g.cursor
        ({ g with cursor := skipAhead isSpace g.line (g.len - cursor) cursor }, none)
      else if g.cursor < g.len then ({ g with cursor := g.cursor + 1 }, none)
      else (g, none)
  | .home => ({ g with cursor := 0 }, none)
  | .end => ({ g with cursor := g.len }, none)
  | .up =>
      if g.histCount > 0 then
        let index :=
          if g.histIndex < 0 then (g.histCount : Int) - 1
          else if g.histIndex > 0 then g.histIndex - 1
          else g.histIndex
        (historyLoad index { g with histIndex := index }, none)
      else (g, none)
  | .down =>
      if g.histCount > 0 ∧ g.histIndex ≥ 0 then
        if g.histIndex + 1 ≥ g.histCount then ({ clearLine g with histIndex := -1 }, none)
        else (historyLoad (g.histIndex + 1) { g with histIndex := g.histIndex + 1 }, none)
      else (g, none)
  | .enter => submitLine g
  | _ => (g, none)

/-- The keys that scroll the terminal. -/
def scrolls (ev : KeyEvent) : Bool :=
  ev.code = .pageUp ∨ (ev.code = .up ∧ ev.modifiers &&& keymodShift ≠ 0) ∨
    ev.code = .pageDown ∨ (ev.code = .down ∧ ev.modifiers &&& keymodShift ≠ 0)

/-- `shell_handle_key`. -/
def shellHandleKey (ev : KeyEvent) (g : ShellState) : ShellState × Option (List UInt8) :=
  if g.simpleMode then handleSimple ev g
  else if scrolls ev then (g, none)
  else handleTerminal ev g

/-- A sequence of keys: the state after it, and the lines executed, in order. -/
def shellRun : List KeyEvent → ShellState → ShellState × List (List UInt8)
  | [], g => (g, [])
  | ev :: evs, g =>
      let (g', executed) := shellHandleKey ev g
      let (g'', rest) := shellRun evs g'
      (g'', executed.toList ++ rest)

end RoninOS.Shell
