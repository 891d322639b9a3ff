/-
RoninOS.Terminal.Calls — the other calls of `kernel/terminal/terminal.c`: themes,
`terminal_clear_scrollback`, `terminal_write_error`, and what the two rows below
the output show.

The copies into the arrays of the prompt, the input line and the status are the
loops of the source, one byte after another.
-/
import RoninOS.Terminal.Terminal

namespace RoninOS.Terminal

open RoninOS.Lib

/-- `THEME_RONIN_AMBER`. -/
def themeRoninAmber : Theme where
  bg := 0
  fgOutput := 6
  fgPrompt := 14
  fgInput := 15
  fgError := 4
  fgStatus := 14
  fgAccent := 3

/-! ## Output -/

/-- `terminal_apply_theme`; no theme is a null pointer. -/
def terminalApplyTheme (theme : Option Theme) (t : TermState) : TermState :=
  match theme with
  | none => t
  | some theme =>
      terminalRender
        { t with theme := theme, currentAttr := themeAttr theme.fgOutput theme.bg }

/-- `terminal_clear_scrollback`. -/
def terminalClearScrollback (t : TermState) : TermState :=
  let t := { t with
    totalLines := 1
    currentLine := 0
    currentCol := 0
    scrollOffset := 0
    currentAttr := themeAttr t.theme.fgOutput t.theme.bg }
  terminalRender (forLoop termScrollbackLines clearLine t)

/-- `terminal_write_error`. -/
def terminalWriteError (s : Option CString) (behind : Mem) (t : TermState) : TermState :=
  let old := t.currentAttr
  let t := { t with currentAttr := themeAttr t.theme.fgError t.theme.bg }
  let t := terminalWrite s behind t
  { t with currentAttr := old }

/-! ## The rows below -/

/-- `while (s[i] && i < sizeof(b) - 1) { b[i] = s[i]; i++; }`, over the string from
`s[i]` on: the array after it, and `i`. -/
def copyLoop {n : Nat} : List UInt8 → Nat → Buffer n → Buffer n × Nat
  | [], i, b => (b, i)
  | c :: s, i, b => if i < n - 1 then copyLoop s (i + 1) (b.write i [c]) else (b, i)

/-- `terminal_set_prompt`; no prompt is a null pointer. -/
def terminalSetPrompt (prompt : Option CString) (t : TermState) : TermState :=
  match prompt with
  | none => t
  | some prompt =>
      let (b, i) := copyLoop prompt.bytes 0 t.prompt
      terminalRender { t with prompt := b.write i [0] }

/-- `terminal_set_input_line`; no input is a null pointer. -/
def terminalSetInputLine (input : Option Mem) (len cursor : Nat) (t : TermState) : TermState :=
  match input with
  | none =>
      terminalRender { t with input := t.input.write 0 [0], inputLen := 0, inputCursor := 0 }
  | some input =>
      let len := if len ≥ 128 then 128 - 1 else len
      let b := forLoop len (fun i b => b.write i [input i]) t.input
      terminalRender { t with
        input := b.write len [0]
        inputLen := len
        inputCursor := if cursor > len then len else cursor }

/-- `terminal_set_status`; no status is a null pointer. -/
def terminalSetStatus (status : Option CString) (t : TermState) : TermState :=
  match status with
  | none => t
  | some status =>
      let (b, i) := copyLoop status.bytes 0 t.status
      terminalRender { t with status := forLoop (80 - i) (fun k b => b.write (i + k) [0]) b }

/-! ## Calls -/

/-- A call of the terminal's interface. -/
inductive Call
  | init (theme : Option Theme)
  | applyTheme (theme : Option Theme)
  | clearScrollback
  | text (op : TermCall)
  | writeError (s : Option CString) (behind : Mem)
  | setPrompt (prompt : Option CString)
  | setInputLine (input : Option Mem) (len cursor : Nat)
  | setStatus (status : Option CString)

/-- The terminal after a call. -/
def callNext (t : TermState) : Call → TermState
  | .init theme => terminalInit theme t
  | .applyTheme theme => terminalApplyTheme theme t
  | .clearScrollback => terminalClearScrollback t
  | .text op => termNext t op
  | .writeError s behind => terminalWriteError s behind t
  | .setPrompt prompt => terminalSetPrompt prompt t
  | .setInputLine input len cursor => terminalSetInputLine input len cursor t
  | .setStatus status => terminalSetStatus status t

end RoninOS.Terminal
