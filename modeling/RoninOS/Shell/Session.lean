/-
RoninOS.Shell.Session — the shell at the terminal, from the scan codes of the
keyboard to the screen: `keyboard_isr`, and `shell_init` and `shell_handle_key`
with the calls of the terminal that `RoninOS.Shell.Shell` leaves out.

What a command does is left open but for what it writes: it gets its line, and
its output is any list of calls. A call of the terminal runs to its end.
-/
import RoninOS.Shell.ShellTheorems
import RoninOS.Terminal.Screen

namespace RoninOS.Shell

open RoninOS.Lib RoninOS.Input RoninOS.Terminal

/-! ## Commands -/

/-- What the kernel writes: `console_print`, `console_putc`, `console_clear` and the
error of an unknown command. -/
inductive Output
  | print (s : CString) (behind : Mem)
  | putc (c : UInt8)
  | clear
  | error (s : CString) (behind : Mem)

/-- The call of the terminal. -/
def Output.call : Output → Call
  | .print s behind => .text (.write (some s) behind)
  | .putc c => .text (.putc c)
  | .clear => .clearScrollback
  | .error s behind => .writeError (some s) behind

/-- What each command line writes. -/
abbrev Commands := List UInt8 → List Output

/-! ## The session -/

/-- The statics of the keyboard driver, the shell and the terminal. -/
structure Session where
  keyboard : Keyboard
  shell : ShellState
  term : TermState

/-- `redraw_input`. -/
def redrawInput (g : ShellState) (t : TermState) : TermState :=
  if g.simpleMode then t else terminalSetInputLine (some g.line) g.len g.cursor t

/-- `"ronin> "`. -/
def shellPrompt : CString := ⟨ascii "ronin> ", by decide⟩

/-- `shell_init` without a framebuffer. -/
def Session.shellInit (s : Session) : Session :=
  let shell := Shell.shellInit false s.shell
  { s with shell := shell, term := redrawInput shell (terminalSetPrompt (some shellPrompt) s.term) }

/-- `ev.code == KEY_PAGEUP || (ev.code == KEY_UP && (ev.modifiers & KEYMOD_SHIFT))`. -/
def scrollsUp (ev : KeyEvent) : Bool :=
  ev.code = .pageUp ∨ (ev.code = .up ∧ ev.modifiers &&& keymodShift ≠ 0)

/-- `shell_handle_key` on the terminal; the line is executed after `terminal_putc('\n')`. -/
def Session.handleKey (undef : Int) (commands : Commands) (s : Session) (ev : KeyEvent) :
    Session :=
  let (shell, executed) := shellHandleKey ev s.shell
  if scrolls ev then
    { s with
      shell := shell
      term := terminalScrollLines undef (if scrollsUp ev then 8 else -8) s.term }
  else
    let term := match executed with
      | some line => (commands line).foldl (fun t o => callNext t o.call) (terminalPutc 10 s.term)
      | none => s.term
    { s with shell := shell, term := redrawInput shell term }

/-- What happens: an interrupt of the keyboard with a scan code, output of the kernel
or of a thread, and `shell_init`. -/
inductive Event
  | irq1 (sc : UInt8) (commands : Commands)
  | output (o : Output)
  | shellInit

/-- The session after it. -/
def Session.next (undef : Int) (s : Session) : Event → Session
  | .irq1 sc commands =>
      let (keyboard, evs) := keyboardIsr s.keyboard sc
      evs.foldl (Session.handleKey undef commands) { s with keyboard := keyboard }
  | .output o => { s with term := callNext s.term o.call }
  | .shellInit => s.shellInit

/-- The lines that keys hand to `shell_execute_line`. -/
def Session.executedByKeys (undef : Int) (commands : Commands) :
    Session → List KeyEvent → List (List UInt8)
  | _, [] => []
  | s, ev :: evs =>
      (shellHandleKey ev s.shell).2.toList ++
        Session.executedByKeys undef commands (s.handleKey undef commands ev) evs

/-- The lines that an event hands to it. -/
def Session.executedBy (undef : Int) (s : Session) : Event → List (List UInt8)
  | .irq1 sc commands =>
      let (keyboard, evs) := keyboardIsr s.keyboard sc
      Session.executedByKeys undef commands { s with keyboard := keyboard } evs
  | .output _ => []
  | .shellInit => []

/-- The lines executed in a run. -/
def Session.executed (undef : Int) : Session → List Event → List (List UInt8)
  | _, [] => []
  | s, event :: events =>
      s.executedBy undef event ++ Session.executed undef (s.next undef event) events

/-- The session after `console_init`. -/
def Session.start (theme : Option Theme) (vga : Nat → UInt16) (ports : PortIo) : Session where
  keyboard := keyboardInit
  shell := shellStatics
  term := terminalInit theme (termStatics vga ports)

/-! ## What the user sees -/

/-- The line that is edited, the output, and the number of characters written so far. -/
structure Desk where
  keyboard : Keyboard
  editor : Editor UInt8
  log : OutputLog
  offset : Int
  written : Nat

namespace Desk

variable (theme : Theme)

/-- The prompt stands before the line, and the cursor is where the line is edited. -/
def view (d : Desk) : View where
  theme := theme
  log := d.log
  offset := d.offset
  prompt := shellPrompt.bytes
  input := d.editor.line.text
  cursor := d.editor.line.cursor
  status := ascii "PgUp/PgDn scroll  Up/Down history"

/-- The characters that an output may write. -/
def length : Output → Nat
  | .print s _ => s.bytes.length
  | .putc _ => 1
  | .clear => 0
  | .error s _ => s.bytes.length

/-- Output goes to the log. -/
def output (d : Desk) (o : Output) : Desk :=
  { d with
    log := ((d.view theme).next o.call).log
    offset := ((d.view theme).next o.call).offset
    written := d.written + length o }

/-- A key scrolls or is a command of the editor. A submitted line ends with a newline
in the log, and the output of its command follows. -/
def key (commands : Commands) (d : Desk) (ev : KeyEvent) : Desk :=
  if scrolls ev then
    { d with
      offset := ((d.view theme).scroll (d.offset + if scrollsUp ev then 8 else -8)).offset }
  else
    let (editor, submitted) := Editor.step shellLimits d.editor (commandOf ev)
    let d := match submitted with
      | some line => (commands line).foldl (output theme) (d.output theme (.putc 10))
      | none => d
    { d with editor := editor }

/-- The desk after an event; `shell_init` empties the line. -/
def next (d : Desk) : Event → Desk
  | .irq1 sc commands =>
      let (keyboard, evs) := keyboardIsr d.keyboard sc
      evs.foldl (key theme commands) { d with keyboard := keyboard }
  | .output o => d.output theme o
  | .shellInit => { d with editor := { d.editor with line := .atEnd [] } }

/-- The lines that keys submit. -/
def submittedByKeys (commands : Commands) : Desk → List KeyEvent → List (List UInt8)
  | _, [] => []
  | d, ev :: evs =>
      (Editor.step shellLimits d.editor (commandOf ev)).2.toList ++
        submittedByKeys commands (d.key theme commands ev) evs

/-- The lines that an event submits. -/
def submittedBy (d : Desk) : Event → List (List UInt8)
  | .irq1 sc commands =>
      let (keyboard, evs) := keyboardIsr d.keyboard sc
      submittedByKeys theme commands { d with keyboard := keyboard } evs
  | .output _ => []
  | .shellInit => []

/-- The lines submitted in a run. -/
def submitted : Desk → List Event → List (List UInt8)
  | _, [] => []
  | d, event :: events => d.submittedBy theme event ++ submitted (d.next theme event) events

/-- An empty line and no output. -/
def start : Desk where
  keyboard := keyboardInit
  editor := Editor.empty
  log := OutputLog.start theme
  offset := 0
  written := 0

end Desk

end RoninOS.Shell
