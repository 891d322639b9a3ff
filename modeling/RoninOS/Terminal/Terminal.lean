/-
RoninOS.Terminal.Terminal — the text terminal of `kernel/terminal/terminal.c`:
the scrollback ring, the output of characters, `terminal_render` and the calls
`terminal_init`, `terminal_write`, `terminal_putc` and `terminal_scroll_lines`.

The statics of the file are the state, with the VGA memory and the port writes
of the hardware cursor. An array is a function of its index where only the loops
bound that, and a string to write is the memory at its pointer.
-/
import RoninOS.Lib.Buffer
import RoninOS.Lib.CString
import RoninOS.Lib.Loops
import RoninOS.Lib.PortIo
import RoninOS.Lib.StringAt
import RoninOS.Lib.Word32

namespace RoninOS.Terminal

open RoninOS.Lib

/-! ## Themes (`ui/theme.h`) -/

/-- `terminal_theme_t`. -/
structure Theme where
  bg : UInt8
  fgOutput : UInt8
  fgPrompt : UInt8
  fgInput : UInt8
  fgError : UInt8
  fgStatus : UInt8
  fgAccent : UInt8
  deriving DecidableEq

/-- `theme_attr`. -/
def themeAttr (fg bg : UInt8) : UInt8 := bg <<< 4 ||| fg &&& 0x0F

/-- `THEME_RONIN_DARK`. -/
def themeRoninDark : Theme where
  bg := 0
  fgOutput := 7
  fgPrompt := 10
  fgInput := 15
  fgError := 12
  fgStatus := 11
  fgAccent := 14

/-! ## Statics -/

/-- `TERM_WIDTH`. -/
def termWidth : Nat := 80
/-- `TERM_HEIGHT`. -/
def termHeight : Nat := 25
/-- `TERM_SCROLLBACK_LINES`. -/
def termScrollbackLines : Nat := 512
/-- `TERM_OUTPUT_ROWS`. -/
def termOutputRows : Nat := termHeight - 2

/-- `term_cell_t`. -/
structure TermCell where
  ch : UInt8
  attr : UInt8
  deriving DecidableEq

/-- The statics of `terminal.c`, the memory at `VGA` and the ports. -/
structure TermState where
  lines : Nat → Nat → TermCell
  totalLines : Nat
  currentLine : Nat
  currentCol : Nat
  scrollOffset : Int
  currentAttr : UInt8
  theme : Theme
  prompt : Buffer 32
  input : Buffer 128
  inputLen : Nat
  inputCursor : Nat
  status : Buffer 80
  vga : Nat → UInt16
  ports : PortIo

/-- The statics before any call. -/
def termStatics (vga : Nat → UInt16) (ports : PortIo) : TermState where
  lines := fun _ _ => ⟨0, 0⟩
  totalLines := 1
  currentLine := 0
  currentCol := 0
  scrollOffset := 0
  currentAttr := 7
  theme := ⟨0, 0, 0, 0, 0, 0, 0⟩
  prompt := (Buffer.zero 32).write 0 (ascii "ronin> ")
  input := Buffer.zero 128
  inputLen := 0
  inputCursor := 0
  status := (Buffer.zero 80).write 0 (ascii "PgUp/PgDn scroll  Up/Down history")
  vga := vga
  ports := ports

/-- `vga_entry`. -/
def vgaEntry (c attr : UInt8) : UInt16 := c.toUInt16 ||| attr.toUInt16 <<< 8

/-- `(int)x` of an `uint32_t`. -/
def asInt (x : Nat) : Int := if x < 2 ^ 31 then x else x - 2 ^ 32

/-! ## The ring -/

/-- `first_abs_line`. -/
def firstAbsLine (t : TermState) : Nat :=
  if t.totalLines > termScrollbackLines then t.totalLines - termScrollbackLines else 0

/-- `g_lines[idx][col] = cell`. -/
def setCell (idx col : Nat) (cell : TermCell) (t : TermState) : TermState :=
  { t with lines := Function.update t.lines idx (Function.update (t.lines idx) col cell) }

/-- `clear_line`. -/
def clearLine (absLine : Nat) (t : TermState) : TermState :=
  let idx := absLine % termScrollbackLines
  let attr := themeAttr t.theme.fgOutput t.theme.bg
  forLoop termWidth (fun i t => setCell idx i ⟨32, attr⟩ t) t

/-- `ensure_current_line_initialized`. -/
def ensureCurrentLineInitialized (t : TermState) : TermState :=
  if t.currentCol = 0 then clearLine t.currentLine t else t

/-- `linefeed`. -/
def linefeed (t : TermState) : TermState :=
  let t := { t with currentCol := 0, currentLine := add32 t.currentLine 1 }
  let t := { t with totalLines := add32 t.currentLine 1 }
  let t := clearLine t.currentLine t
  { t with scrollOffset := 0 }

/-! ## Output -/

/-- `put_output_char`. A `char` from 128 on is negative, and ignored as one below 32 is. -/
def putOutputChar (c : UInt8) (t : TermState) : TermState :=
  if c = 10 then linefeed t
  else if c = 13 then { t with currentCol := 0 }
  else if c = 8 then
    if t.currentCol > 0 then
      let t := { t with currentCol := t.currentCol - 1 }
      setCell (t.currentLine % termScrollbackLines) t.currentCol ⟨32, t.currentAttr⟩ t
    else t
  else if c < 32 ∨ c > 126 then t
  else
    let t := ensureCurrentLineInitialized t
    let t := setCell (t.currentLine % termScrollbackLines) t.currentCol ⟨c, t.currentAttr⟩ t
    let t := { t with currentCol := t.currentCol + 1 }
    if t.currentCol ≥ termWidth then linefeed t else t

/-- `parse_ansi_code` of the string at `s + i`: how much of it is a colour code, and
the colour set; `none` where it returns 0. The byte `s[i + 4]` is read behind
`"\x1b[3"` too, where it may lie behind the terminator. -/
def parseAnsiCode (s : Mem) (i : Nat) (t : TermState) : Option (Nat × TermState) :=
  if s i ≠ 27 ∨ s (i + 1) ≠ 91 then none
  else if s (i + 2) = 48 ∧ s (i + 3) = 109 then
    some (4, { t with currentAttr := themeAttr t.theme.fgOutput t.theme.bg })
  else if s (i + 2) = 51 ∧ s (i + 4) = 109 then
    if s (i + 3) = 49 then some (5, { t with currentAttr := themeAttr 4 t.theme.bg })
    else if s (i + 3) = 50 then some (5, { t with currentAttr := themeAttr 2 t.theme.bg })
    else none
  else none

/-! ## The screen -/

/-- `outb` of `set_hw_cursor`. -/
def setHwCursor (row col : Nat) (p : PortIo) : PortIo :=
  let pos := (row * termWidth + col) % 2 ^ 16
  let p := p.outb 0x3D4 0x0F
  let p := p.outb 0x3D5 (UInt8.ofNat (pos &&& 0xFF))
  let p := p.outb 0x3D4 0x0E
  p.outb 0x3D5 (UInt8.ofNat (pos >>> 8 &&& 0xFF))

/-- The line at the top of the screen in `terminal_render`. -/
def topLine (t : TermState) : Nat :=
  let bottom := t.currentLine
  let back := add32 (termOutputRows - 1) t.scrollOffset.toNat
  let top := if bottom ≥ back then bottom - back else 0
  if top < firstAbsLine t then firstAbsLine t else top

/-- The cell that `terminal_render` shows of a line. -/
def shownCell (t : TermState) (absLine col : Nat) : TermCell :=
  if absLine ≤ t.currentLine ∧ absLine ≥ firstAbsLine t then
    t.lines (absLine % termScrollbackLines) col
  else ⟨32, themeAttr t.theme.fgOutput t.theme.bg⟩

/-- The rows of the output. -/
def renderOutput (t : TermState) (vga : Nat → UInt16) : Nat → UInt16 :=
  forLoop termOutputRows (fun row vga =>
    let absLine := add32 (topLine t) row
    forLoop termWidth (fun col vga =>
      let cell := shownCell t absLine col
      Function.update vga (row * termWidth + col) (vgaEntry cell.ch cell.attr)) vga) vga

/-- `while (g_prompt[col] && col < TERM_WIDTH)`. -/
def promptLoop (prompt : Buffer 32) (attr : UInt8) : Nat → Nat → (Nat → UInt16) →
    Nat × (Nat → UInt16)
  | 0, col, vga => (col, vga)
  | rounds + 1, col, vga =>
      let c := prompt.bytes.getD col 0
      if c ≠ 0 ∧ col < termWidth then
        promptLoop prompt attr rounds (col + 1)
          (Function.update vga (termOutputRows * termWidth + col) (vgaEntry c attr))
      else (col, vga)

/-- `while (i < g_input_len && col < TERM_WIDTH)`. -/
def inputLoop (input : Buffer 128) (len : Nat) (attr : UInt8) : Nat → Nat → Nat →
    (Nat → UInt16) → Nat → UInt16
  | 0, _, _, vga => vga
  | rounds + 1, i, col, vga =>
      if i < len ∧ col < termWidth then
        inputLoop input len attr rounds (i + 1) (col + 1)
          (Function.update vga (termOutputRows * termWidth + col)
            (vgaEntry (input.bytes.getD i 0) attr))
      else vga

/-- The row with the prompt and the input. -/
def renderInput (t : TermState) (vga : Nat → UInt16) : Nat → UInt16 :=
  let promptAttr := themeAttr t.theme.fgPrompt t.theme.bg
  let inputAttr := themeAttr t.theme.fgInput t.theme.bg
  let vga := forLoop termWidth (fun col vga =>
    Function.update vga (termOutputRows * termWidth + col) (vgaEntry 32 inputAttr)) vga
  let (col, vga) := promptLoop t.prompt promptAttr termWidth 0 vga
  inputLoop t.input t.inputLen inputAttr termWidth 0 col vga

/-- The row with the status. -/
def renderStatus (t : TermState) (vga : Nat → UInt16) : Nat → UInt16 :=
  let statusAttr := themeAttr t.theme.fgStatus 1
  forLoop termWidth (fun col vga =>
    let c := t.status.bytes.getD col 0
    Function.update vga ((termHeight - 1) * termWidth + col)
      (vgaEntry (if c ≠ 0 then c else 32) statusAttr)) vga

/-- `terminal_render`. -/
def terminalRender (t : TermState) : TermState :=
  let t := if t.scrollOffset < 0 then { t with scrollOffset := 0 } else t
  let t := if t.currentLine < t.scrollOffset.toNat then
      { t with scrollOffset := asInt t.currentLine }
    else t
  let cursorCol := t.prompt.str.length + t.inputCursor
  let cursorCol := if cursorCol ≥ termWidth then termWidth - 1 else cursorCol
  { t with
    vga := renderStatus t (renderInput t (renderOutput t t.vga))
    ports := setHwCursor termOutputRows cursorCol t.ports }

/-! ## Calls -/

/-- `terminal_init`; no theme is a null pointer. -/
def terminalInit (theme : Option Theme) (t : TermState) : TermState :=
  let t := { t with theme := theme.getD themeRoninDark }
  let t := { t with
    currentAttr := themeAttr t.theme.fgOutput t.theme.bg
    totalLines := 1
    currentLine := 0
    currentCol := 0
    scrollOffset := 0 }
  terminalRender (forLoop termScrollbackLines clearLine t)

/-- The loop of `terminal_write`, from `s[i]` on. -/
def writeLoop (s : Mem) : Nat → Nat → TermState → TermState
  | 0, _, t => t
  | rounds + 1, i, t =>
      if s i = 0 then t
      else
        match parseAnsiCode s i t with
        | some (consumed, t) => writeLoop s rounds (i + consumed) t
        | none => writeLoop s rounds (i + 1) (putOutputChar (s i) t)

/-- The memory at a string, with what lies behind its terminator. -/
def stringMem (s : CString) (behind : Mem) : Mem := fun i =>
  if i < s.bytes.length then s.bytes.getD i 0 else if i = s.bytes.length then 0 else behind i

/-- `terminal_write`; no string is a null pointer. A round of the loop takes at
least one byte. -/
def terminalWrite (s : Option CString) (behind : Mem) (t : TermState) : TermState :=
  match s with
  | none => terminalRender t
  | some s => terminalRender (writeLoop (stringMem s behind) (s.bytes.length + 1) 0 t)

/-- `terminal_putc`. -/
def terminalPutc (c : UInt8) (t : TermState) : TermState := terminalRender (putOutputChar c t)

/-- `a + b` on `int`. A sum that overflows is undefined, and `undef` stands for
what the program then makes of it. -/
def addInt (undef a b : Int) : Int := if -2 ^ 31 ≤ a + b ∧ a + b < 2 ^ 31 then a + b else undef

/-- `terminal_scroll_lines`. -/
def terminalScrollLines (undef delta : Int) (t : TermState) : TermState :=
  let maxOff := asInt (sub32 t.currentLine (firstAbsLine t))
  let t := { t with scrollOffset := addInt undef t.scrollOffset delta }
  let t := if t.scrollOffset < 0 then { t with scrollOffset := 0 } else t
  let t := if t.scrollOffset > maxOff then { t with scrollOffset := maxOff } else t
  terminalRender t

/-- A call that writes or scrolls. -/
inductive TermCall
  | write (s : Option CString) (behind : Mem)
  | putc (c : UInt8)
  | scroll (delta undef : Int)

/-- The terminal after a call. -/
def termNext (t : TermState) : TermCall → TermState
  | .write s behind => terminalWrite s behind t
  | .putc c => terminalPutc c t
  | .scroll delta undef => terminalScrollLines undef delta t

end RoninOS.Terminal
