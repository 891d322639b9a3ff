/-
RoninOS.Terminal.Screen — what the 80 × 25 cells of the screen mean.

A `View` has what a user of the terminal is told: the log of the output and how
far it is scrolled back, the prompt, the input line with its cursor, and the
status. It knows neither the ring nor the arrays. `View.cell` is the screen of a
view, and `Draws` says that the VGA memory and the hardware cursor show it.
-/
import RoninOS.Terminal.Calls
import RoninOS.Terminal.OutputLog

namespace RoninOS.Terminal

open RoninOS.Lib

/-- What the terminal shows. -/
structure View where
  theme : Theme
  log : OutputLog
  offset : Int
  prompt : List UInt8
  input : List UInt8
  cursor : Nat
  status : List UInt8

namespace View

/-- The view after `terminal_init` of the statics. -/
def start (theme : Theme) : View where
  theme := theme
  log := OutputLog.start theme
  offset := 0
  prompt := ascii "ronin> "
  input := []
  cursor := 0
  status := ascii "PgUp/PgDn scroll  Up/Down history"

/-! ## Calls -/

/-- New output; a new line scrolls to the end. -/
def withLog (v : View) (log : OutputLog) : View :=
  { v with log := log, offset := if log.line = v.log.line then v.offset else 0 }

/-- Scrolling stays within the lines that are kept. -/
def scroll (v : View) (offset : Int) : View :=
  { v with offset := max 0 (min offset (min v.log.line (termScrollbackLines - 1) : Nat)) }

/-- The view after a call. -/
def next (v : View) : Call → View
  | .init theme =>
      { v with
        theme := theme.getD themeRoninDark
        log := OutputLog.start (theme.getD themeRoninDark)
        offset := 0 }
  | .applyTheme none => v
  | .applyTheme (some theme) =>
      { v with
        theme := theme
        log := { v.log with attr := themeAttr theme.fgOutput theme.bg } }
  | .clearScrollback => { v with log := OutputLog.start v.theme, offset := 0 }
  | .text (.scroll delta undef) => v.scroll (addInt undef v.offset delta)
  | .text op => v.withLog (v.log.next v.theme op)
  | .writeError s behind =>
      -- the colours of the output come back, whatever colour codes the text has
      let log := { v.log with attr := themeAttr v.theme.fgError v.theme.bg }
      v.withLog { (log.next v.theme (.write s behind)) with attr := v.log.attr }
  | .setPrompt none => v
  | .setPrompt (some prompt) => { v with prompt := prompt.bytes.take 31 }
  | .setInputLine none _ _ => { v with input := [], cursor := 0 }
  | .setInputLine (some input) len cursor =>
      { v with input := bytesAt input 0 (min len 127), cursor := min cursor (min len 127) }
  | .setStatus none => v
  | .setStatus (some status) => { v with status := status.bytes.take 79 }

/-! ## The screen -/

/-- The cell of the output in a row. -/
def outputCell (v : View) (row col : Nat) : TermCell :=
  let line := windowTop v.log.line v.offset.toNat + row
  if line ≤ v.log.line then v.log.cells line col else blankCell v.theme

/-- The prompt and the input in their colours. -/
def inputRow (v : View) : List UInt16 :=
  v.prompt.map (vgaEntry · (themeAttr v.theme.fgPrompt v.theme.bg)) ++
    v.input.map (vgaEntry · (themeAttr v.theme.fgInput v.theme.bg))

/-- The screen: the output, the row with the input, and the row with the status.
What is too long for its row is cut off. -/
def cell (v : View) (row col : Nat) : UInt16 :=
  if row < termOutputRows then vgaEntry (v.outputCell row col).ch (v.outputCell row col).attr
  else if row = termOutputRows then
    v.inputRow.getD col (vgaEntry 32 (themeAttr v.theme.fgInput v.theme.bg))
  else
    (v.status.map (vgaEntry · (themeAttr v.theme.fgStatus 1))).getD col
      (vgaEntry 32 (themeAttr v.theme.fgStatus 1))

/-- Where the cursor is: in the row with the input, and not behind its last column. -/
def cursorPos (v : View) : Nat :=
  termOutputRows * termWidth + min (v.prompt.length + v.cursor) (termWidth - 1)

end View

/-! ## The hardware -/

/-- The registers of the CRT controller after port writes, and the one selected. -/
def crtc : List PortEvent → UInt8 × (UInt8 → UInt8)
  | [] => (0, fun _ => 0)
  | .outb 0x3D4 index :: before => (index, (crtc before).2)
  | .outb 0x3D5 value :: before =>
      ((crtc before).1, Function.update (crtc before).2 (crtc before).1 value)
  | _ :: before => crtc before

/-- The place of the hardware cursor. -/
def hwCursor (p : PortIo) : Nat :=
  ((crtc p.trace).2 0x0E).toNat * 256 + ((crtc p.trace).2 0x0F).toNat

/-- The VGA memory and the hardware cursor show the view. -/
structure Shown (v : View) (t : TermState) : Prop where
  cell : ∀ row < termHeight, ∀ col < termWidth, t.vga (row * termWidth + col) = v.cell row col
  cursor : hwCursor t.ports = v.cursorPos

end RoninOS.Terminal
