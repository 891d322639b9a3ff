/-
RoninOS.Terminal.OutputLog — what the terminal's output means: a log that
forgets no line.

The log gets the characters and colour codes of the calls and knows neither
slots nor a window. `Refines` says that the terminal keeps the end of the log in
its ring and shows a window of it.
-/
import RoninOS.Terminal.Terminal

namespace RoninOS.Terminal

open RoninOS.Lib

/-! ## The log -/

/-- The line and the column that are written next, the colours, and the cells of
all lines. -/
structure OutputLog where
  line : Nat
  col : Nat
  attr : UInt8
  cells : Nat → Nat → TermCell

/-- A cell of a line on which nothing was written. -/
def blankCell (theme : Theme) : TermCell := ⟨32, themeAttr theme.fgOutput theme.bg⟩

namespace OutputLog

/-- One blank line. -/
def start (theme : Theme) : OutputLog where
  line := 0
  col := 0
  attr := themeAttr theme.fgOutput theme.bg
  cells := fun _ _ => blankCell theme

/-- All cells of a line are blank. -/
def blankLine (theme : Theme) (line : Nat) (log : OutputLog) : OutputLog :=
  { log with cells := Function.update log.cells line fun _ => blankCell theme }

/-- A cell of the current line. -/
def setCell (col : Nat) (cell : TermCell) (log : OutputLog) : OutputLog :=
  { log with
    cells := Function.update log.cells log.line (Function.update (log.cells log.line) col cell) }

/-- A new line starts blank. -/
def newline (theme : Theme) (log : OutputLog) : OutputLog :=
  { (log.blankLine theme (log.line + 1)) with line := log.line + 1, col := 0 }

/-- Backspace blanks the cell before. -/
def backspace (log : OutputLog) : OutputLog :=
  if log.col = 0 then log
  else { (log.setCell (log.col - 1) ⟨32, log.attr⟩) with col := log.col - 1 }

/-- A character at column 0 blanks its line first, and one in the last column ends it. -/
def print (theme : Theme) (c : UInt8) (log : OutputLog) : OutputLog :=
  let blanked := if log.col = 0 then log.blankLine theme log.line else log
  let written := { (blanked.setCell log.col ⟨c, log.attr⟩) with col := log.col + 1 }
  if written.col = termWidth then written.newline theme else written

/-- Newline, carriage return, backspace and the printable characters; others are
ignored. -/
def char (theme : Theme) (c : UInt8) (log : OutputLog) : OutputLog :=
  if c = 10 then log.newline theme
  else if c = 13 then { log with col := 0 }
  else if c = 8 then log.backspace
  else if 32 ≤ c ∧ c ≤ 126 then log.print theme c
  else log

end OutputLog

/-! ## Strings -/

/-- What a string to write is made of. -/
inductive Token
  | char (c : UInt8)
  | colour (attr : UInt8)

/-- The colour codes. -/
def colourCodes (theme : Theme) : List (List UInt8 × UInt8) :=
  [(ascii "\x1b[0m", themeAttr theme.fgOutput theme.bg),
    (ascii "\x1b[31m", themeAttr 4 theme.bg), (ascii "\x1b[32m", themeAttr 2 theme.bg)]

/-- The tokens of a string behind its first `skip` bytes. -/
def tokensFrom (theme : Theme) : Nat → List UInt8 → List Token
  | _, [] => []
  | skip + 1, _ :: s => tokensFrom theme skip s
  | 0, c :: s =>
      match (colourCodes theme).find? fun code => code.1.isPrefixOf (c :: s) with
      | some (code, attr) => .colour attr :: tokensFrom theme (code.length - 1) s
      | none => .char c :: tokensFrom theme 0 s

/-- The log after a token. -/
def OutputLog.feed (theme : Theme) (log : OutputLog) : Token → OutputLog
  | .char c => log.char theme c
  | .colour attr => { log with attr := attr }

/-- The log after a call; scrolling writes nothing. -/
def OutputLog.next (theme : Theme) (log : OutputLog) : TermCall → OutputLog
  | .write none _ => log
  | .write (some s) _ => (tokensFrom theme 0 s.bytes).foldl (OutputLog.feed theme) log
  | .putc c => log.char theme c
  | .scroll _ _ => log

/-! ## Refinement -/

/-- The first line of the window, `offset` lines up from the end, but not before
the last 512 lines. -/
def windowTop (line offset : Nat) : Nat :=
  max (line + 1 - termScrollbackLines) (line - (termOutputRows - 1 + offset))

/-- The screen shows the window of the log, and blanks below its last line. -/
def ShowsWindow (theme : Theme) (log : OutputLog) (offset : Nat) (vga : Nat → UInt16) : Prop :=
  ∀ row < termOutputRows, ∀ col < termWidth,
    let line := windowTop log.line offset + row
    let cell := if line ≤ log.line then log.cells line col else blankCell theme
    vga (row * termWidth + col) = vgaEntry cell.ch cell.attr

/-- The terminal keeps the last 512 lines of the log and shows a window of them. -/
structure Refines (theme : Theme) (t : TermState) (log : OutputLog) : Prop where
  line : t.currentLine = log.line
  col_lt : t.currentCol < termWidth
  total : t.totalLines = t.currentLine + 1
  offset_nonneg : 0 ≤ t.scrollOffset
  offset_le : t.scrollOffset ≤ min t.currentLine (termScrollbackLines - 1)
  ring : ∀ i, t.totalLines - termScrollbackLines ≤ i → i ≤ t.currentLine → ∀ col < termWidth,
    t.lines (i % termScrollbackLines) col = log.cells i col
  screen : ShowsWindow theme log t.scrollOffset.toNat t.vga
  render : ShowsWindow theme log t.scrollOffset.toNat (terminalRender t).vga

end RoninOS.Terminal
