/-
RoninOS.Shell.SessionTheorems — the screen shows the line that is edited and what
was written, after any events.

`Session.At` ties a session to its desk. Each output keeps it (`At.output`), each key
(`At.key`) and so each interrupt, and with them any run (`session_shows`). The lines that
the keys hand to the shell on the way are those submitted at the desk (`At.executed`).
-/
import RoninOS.Shell.Session
import RoninOS.Terminal.ScreenTheorems
import RoninOS.Input.HeldKeys

namespace RoninOS.Shell

open RoninOS.Lib RoninOS.Input RoninOS.Terminal

/-! ## Lines and characters -/

theorem feed_line_le (theme : Theme) (log : OutputLog) (token : Token) :
    (log.feed theme token).line ≤ log.line + 1 := by
  cases token with
  | colour attr => exact Nat.le_succ _
  | char c =>
      simp only [OutputLog.feed, OutputLog.char]
      split_ifs
      · exact le_rfl
      · exact Nat.le_succ _
      · unfold OutputLog.backspace
        split <;> exact Nat.le_succ _
      · unfold OutputLog.print
        dsimp only [OutputLog.newline, OutputLog.blankLine, OutputLog.setCell]
        split_ifs
        · exact le_rfl
        · exact le_rfl
        · exact Nat.le_succ _
        · exact Nat.le_succ _
      · exact Nat.le_succ _

/-- Each token starts one line at the most. -/
theorem foldl_feed_line_le (theme : Theme) (tokens : List Token) (log : OutputLog) :
    (tokens.foldl (OutputLog.feed theme) log).line ≤ log.line + tokens.length := by
  induction tokens generalizing log with
  | nil => exact le_rfl
  | cons token tokens ih =>
      have hfirst := feed_line_le theme log token
      have hrest := ih (log.feed theme token)
      simp only [List.foldl_cons, List.length_cons]
      omega

theorem length_tokensFrom_le (theme : Theme) (s : List UInt8) : ∀ skip,
    (tokensFrom theme skip s).length ≤ s.length := by
  induction s with
  | nil => intro skip; simp [tokensFrom]
  | cons c s ih =>
      intro skip
      cases skip with
      | succ skip =>
          rw [tokensFrom]
          exact (ih skip).trans (Nat.le_succ _)
      | zero =>
          rw [tokensFrom]
          split
          · simpa using ih _
          · simpa using ih 0

/-- Output starts no more lines than it has characters. -/
theorem next_line_le (v : View) (o : Output) :
    (v.next o.call).log.line ≤ v.log.line + Desk.length o := by
  have hwrite : ∀ (log : OutputLog) (s : CString),
      ((tokensFrom v.theme 0 s.bytes).foldl (OutputLog.feed v.theme) log).line
        ≤ log.line + s.bytes.length := by
    intro log s
    have hlines := foldl_feed_line_le v.theme (tokensFrom v.theme 0 s.bytes) log
    have htokens := length_tokensFrom_le v.theme s.bytes 0
    omega
  cases o with
  | print s behind => exact hwrite v.log s
  | putc c => exact feed_line_le v.theme v.log (.char c)
  | clear => exact Nat.zero_le _
  | error s behind => exact hwrite _ s

/-- Output leaves the rows below alone. -/
theorem next_call_eq (v : View) (o : Output) : v.next o.call =
    { v with log := (v.next o.call).log, offset := (v.next o.call).offset } := by
  cases o <;> rfl

/-! ## The desk -/

/-- The session is at its desk: the line of the shell is the one that is edited, and
the terminal shows it with the output. -/
structure Session.At (theme : Theme) (vga : Nat → UInt16) (s : Session) (d : Desk) : Prop where
  keyboard : s.keyboard = d.keyboard
  shell : Shows s.shell d.editor
  within : Editor.Within shellLimits d.editor
  screen : Draws vga (d.view theme) s.term
  lines : d.log.line ≤ d.written

variable {theme : Theme} {vga : Nat → UInt16} {s : Session} {d : Desk}

theorem Session.At.output (h : s.At theme vga d) (o : Output)
    (hwritten : (d.output theme o).written + 1 < 2 ^ 31) :
    Session.At theme vga { s with term := callNext s.term o.call } (d.output theme o) := by
  have hlines : ((d.view theme).next o.call).log.line ≤ (d.output theme o).written :=
    (next_line_le (d.view theme) o).trans (Nat.add_le_add_right h.lines _)
  have hnext := h.screen.next o.call (by omega)
  rw [next_call_eq] at hnext
  exact {
    keyboard := h.keyboard
    shell := h.shell
    within := h.within
    screen := hnext
    lines := hlines }

theorem written_le_foldl (theme : Theme) (outs : List Output) (d : Desk) :
    d.written ≤ (outs.foldl (Desk.output theme) d).written := by
  induction outs generalizing d with
  | nil => exact le_rfl
  | cons o outs ih => exact (Nat.le_add_right _ _).trans (ih (d.output theme o))

/-- So does the output of a command. -/
theorem Session.At.outputs (h : s.At theme vga d) (outs : List Output)
    (hwritten : (outs.foldl (Desk.output theme) d).written + 1 < 2 ^ 31) :
    Session.At theme vga { s with term := outs.foldl (fun t o => callNext t o.call) s.term }
      (outs.foldl (Desk.output theme) d) := by
  induction outs generalizing s d with
  | nil => exact h
  | cons o outs ih =>
      rw [List.foldl_cons] at hwritten
      have hfirst := written_le_foldl theme outs (d.output theme o)
      exact ih (h.output o (by omega)) hwritten

/-- `redraw_input` shows the line after a key. -/
theorem Session.At.redraw (h : s.At theme vga d) {shell : ShellState} {editor : Editor UInt8}
    (hshell : Shows shell editor) (hwithin : Editor.Within shellLimits editor)
    (hwritten : d.written + 1 < 2 ^ 31) :
    Session.At theme vga { s with shell := shell, term := redrawInput shell s.term }
      { d with editor := editor } := by
  have hlines := h.lines
  have htext : editor.line.text.length ≤ 127 := hwithin.text
  have hcursor := editor.line.cursor_le
  have hnext := h.screen.next (.setInputLine (some shell.line) shell.len shell.cursor)
    (show d.log.line + 1 < 2 ^ 31 by omega)
  have hview : (d.view theme).next (.setInputLine (some shell.line) shell.len shell.cursor)
      = ({ d with editor := editor } : Desk).view theme := by
    simp only [View.next, Desk.view, hshell.line.len, hshell.line.cursor, Nat.min_eq_left htext,
      Nat.min_eq_left hcursor, hshell.line.text.bytesAt_eq]
  rw [hview] at hnext
  refine ⟨h.keyboard, hshell, hwithin, ?_, hlines⟩
  rw [redrawInput, if_neg (by rw [hshell.terminal]; exact Bool.false_ne_true)]
  exact hnext

/-! ## Events -/

/-- Scrolling by a few lines does not overflow. -/
theorem addInt_offset (h : s.At theme vga d) (undef : Int) {delta : Int}
    (hdelta : -8 ≤ delta ∧ delta ≤ 8) : addInt undef d.offset delta = d.offset + delta := by
  have hnonneg := h.screen.keeps.holds.offset_nonneg
  have hle := h.screen.keeps.holds.offset_le
  have hoffset : s.term.scrollOffset = d.offset := h.screen.keeps.offset
  simp only [termScrollbackLines] at hle
  rw [addInt, if_pos]
  omega

theorem written_le_key (theme : Theme) (commands : Commands) (d : Desk) (ev : KeyEvent) :
    d.written ≤ (d.key theme commands ev).written := by
  unfold Desk.key
  split
  · exact le_rfl
  · dsimp only
    split
    · exact (Nat.le_add_right _ _).trans (written_le_foldl theme _ (d.output theme (.putc 10)))
    · exact le_rfl

theorem written_le_keys (theme : Theme) (commands : Commands) (evs : List KeyEvent) (d : Desk) :
    d.written ≤ (evs.foldl (Desk.key theme commands) d).written := by
  induction evs generalizing d with
  | nil => exact le_rfl
  | cons ev evs ih => exact (written_le_key theme commands d ev).trans (ih _)

/-- A key edits the line on the screen, scrolls, or submits the line. -/
theorem Session.At.key (h : s.At theme vga d) (undef : Int) (commands : Commands) {ev : KeyEvent}
    (hch : ev.code = .char → ev.ch ≠ 0)
    (hwritten : (d.key theme commands ev).written + 1 < 2 ^ 31) :
    Session.At theme vga (s.handleKey undef commands ev) (d.key theme commands ev) := by
  obtain ⟨hshell, hexecuted⟩ := shellHandleKey_shows h.shell h.within hch
  have hwithin := h.within.step (commandOf ev)
  have hbefore := written_le_key theme commands d ev
  have hlines := h.lines
  unfold Session.handleKey Desk.key at *
  by_cases hscroll : scrolls ev
  · have hidle : commandOf ev = .idle := by rw [commandOf, if_pos hscroll]
    have hdelta : ∀ up : Bool, -8 ≤ (if up then 8 else -8 : Int) ∧
        (if up then 8 else -8 : Int) ≤ 8 := by decide
    have hscrolled := h.screen.next (.text (.scroll (if scrollsUp ev then 8 else -8) undef))
      (show d.log.line + 1 < 2 ^ 31 by omega)
    rw [hidle] at hshell
    simp only [if_pos hscroll] at hwritten ⊢
    rw [View.next, show (d.view theme).offset = d.offset from rfl,
      addInt_offset h undef (hdelta _)] at hscrolled
    exact {
      keyboard := h.keyboard
      shell := hshell
      within := h.within
      screen := hscrolled
      lines := hlines }
  · simp only [if_neg hscroll] at hwritten ⊢
    generalize Editor.step shellLimits d.editor (commandOf ev) = step at *
    obtain ⟨editor, submitted⟩ := step
    rw [hexecuted]
    cases submitted with
    | none => exact h.redraw hshell hwithin hwritten
    | some line =>
        dsimp only at hwritten ⊢
        have houts := written_le_foldl theme (commands line) (d.output theme (.putc 10))
        exact ((h.output (.putc 10) (by omega)).outputs (commands line) hwritten).redraw hshell
          hwithin hwritten

/-- The characters of the keyboard can be printed. -/
theorem keyboardIsr_printable (k : Keyboard) (sc : UInt8) :
    ∀ ev ∈ (keyboardIsr k sc).2, ev.code = .char → 32 ≤ ev.ch ∧ ev.ch ≤ 126 := by
  intro ev hev hchar
  by_cases hpress : IsKeyPress sc
  · rw [keyboardIsr_press k hpress, onKeyPress] at hev
    split at hev
    · unfold extendedEvents at hev
      split at hev
      · rw [List.mem_singleton.mp hev] at hchar
        exact absurd hchar (extendedCode_ne_char sc)
      · cases hev
    · unfold plainEvents at hev
      split at hev
      · rw [List.mem_singleton.mp hev] at hchar
        exact absurd hchar (plainCode_ne_char sc)
      · dsimp only at hev
        split at hev
        · rename_i hprintable
          rw [List.mem_singleton.mp hev]
          exact hprintable
        · cases hev
  · rw [keyboardIsr_notPress k hpress] at hev
    cases hev

theorem Session.At.keys (h : s.At theme vga d) (undef : Int) (commands : Commands)
    {evs : List KeyEvent} (hch : ∀ ev ∈ evs, ev.code = .char → ev.ch ≠ 0)
    (hwritten : (evs.foldl (Desk.key theme commands) d).written + 1 < 2 ^ 31) :
    Session.At theme vga (evs.foldl (Session.handleKey undef commands) s)
      (evs.foldl (Desk.key theme commands) d) := by
  induction evs generalizing s d with
  | nil => exact h
  | cons ev evs ih =>
      rw [List.foldl_cons] at hwritten
      have hfirst := written_le_keys theme commands evs (d.key theme commands ev)
      exact ih (h.key undef commands (hch ev List.mem_cons_self) (by omega))
        (fun ev' hev' => hch ev' (List.mem_cons_of_mem _ hev')) hwritten

/-- The keys hand the lines to the shell that they submit at the desk. -/
theorem Session.At.executedByKeys (h : s.At theme vga d) (undef : Int) (commands : Commands)
    {evs : List KeyEvent} (hch : ∀ ev ∈ evs, ev.code = .char → ev.ch ≠ 0)
    (hwritten : (evs.foldl (Desk.key theme commands) d).written + 1 < 2 ^ 31) :
    Session.executedByKeys undef commands s evs = d.submittedByKeys theme commands evs := by
  induction evs generalizing s d with
  | nil => rfl
  | cons ev evs ih =>
      rw [List.foldl_cons] at hwritten
      have hfirst := written_le_keys theme commands evs (d.key theme commands ev)
      have hev : ev.code = .char → ev.ch ≠ 0 := hch ev List.mem_cons_self
      obtain ⟨-, hexecuted⟩ := shellHandleKey_shows h.shell h.within hev
      have hrest := ih (h.key undef commands hev (by omega))
        (fun ev' hev' => hch ev' (List.mem_cons_of_mem _ hev')) hwritten
      rw [Session.executedByKeys, Desk.submittedByKeys, hexecuted, hrest]

/-- `shell_init` shows an empty line. -/
theorem Session.At.shellInit (h : s.At theme vga d) (hwritten : d.written + 1 < 2 ^ 31) :
    Session.At theme vga s.shellInit { d with editor := { d.editor with line := .atEnd [] } } := by
  have hlines := h.lines
  have hshell : Shows (Shell.shellInit false s.shell) { d.editor with line := .atEnd [] } :=
    { terminal := rfl
      line := ⟨holdsStr_nil (clearLine_zero s.shell), rfl, rfl⟩
      history := ⟨h.shell.history.count, h.shell.history.rows⟩
      index := h.shell.index }
  have hprompt := h.screen.next (.setPrompt (some shellPrompt))
    (show d.log.line + 1 < 2 ^ 31 by omega)
  have hprompted : Session.At theme vga
      { s with term := terminalSetPrompt (some shellPrompt) s.term } d :=
    { h with screen := hprompt }
  exact hprompted.redraw hshell (h.within.withLine (Nat.zero_le _)) hwritten

/-! ## Runs -/

theorem written_le_next (theme : Theme) (d : Desk) (event : Event) :
    d.written ≤ (d.next theme event).written := by
  cases event with
  | irq1 sc commands =>
      exact written_le_keys theme commands (keyboardIsr d.keyboard sc).2
        { d with keyboard := (keyboardIsr d.keyboard sc).1 }
  | output o => exact Nat.le_add_right _ _
  | shellInit => exact le_rfl

/-- An event keeps the session at its desk. -/
theorem Session.At.next (h : s.At theme vga d) (undef : Int) (event : Event)
    (hwritten : (d.next theme event).written + 1 < 2 ^ 31) :
    Session.At theme vga (s.next undef event) (d.next theme event) := by
  cases event with
  | irq1 sc commands =>
      have hpressed : Session.At theme vga { s with keyboard := (keyboardIsr d.keyboard sc).1 }
          { d with keyboard := (keyboardIsr d.keyboard sc).1 } := { h with keyboard := rfl }
      unfold Session.next
      rw [h.keyboard]
      exact hpressed.keys undef commands
        (ch_ne_zero (keyboardIsr_printable d.keyboard sc)) hwritten
  | output o => exact h.output o hwritten
  | shellInit => exact h.shellInit hwritten

/-- So does an event. -/
theorem Session.At.executedBy (h : s.At theme vga d) (undef : Int) (event : Event)
    (hwritten : (d.next theme event).written + 1 < 2 ^ 31) :
    s.executedBy undef event = d.submittedBy theme event := by
  cases event with
  | irq1 sc commands =>
      have hpressed : Session.At theme vga { s with keyboard := (keyboardIsr d.keyboard sc).1 }
          { d with keyboard := (keyboardIsr d.keyboard sc).1 } := { h with keyboard := rfl }
      unfold Session.executedBy Desk.submittedBy
      rw [h.keyboard]
      exact hpressed.executedByKeys undef commands
        (ch_ne_zero (keyboardIsr_printable d.keyboard sc)) hwritten
  | output o => rfl
  | shellInit => rfl

theorem written_le_run (theme : Theme) (events : List Event) (d : Desk) :
    d.written ≤ (events.foldl (Desk.next theme) d).written := by
  induction events generalizing d with
  | nil => exact le_rfl
  | cons event events ih => exact (written_le_next theme d event).trans (ih _)

theorem Session.At.run (h : s.At theme vga d) (undef : Int) {events : List Event}
    (hwritten : (events.foldl (Desk.next theme) d).written + 1 < 2 ^ 31) :
    Session.At theme vga (events.foldl (Session.next undef) s)
      (events.foldl (Desk.next theme) d) := by
  induction events generalizing s d with
  | nil => exact h
  | cons event events ih =>
      rw [List.foldl_cons] at hwritten
      have hfirst := written_le_run theme events (d.next theme event)
      exact ih (h.next undef event (by omega)) hwritten

/-- The lines of a run are those submitted at the desk. -/
theorem Session.At.executed (h : s.At theme vga d) (undef : Int) {events : List Event}
    (hwritten : (events.foldl (Desk.next theme) d).written + 1 < 2 ^ 31) :
    Session.executed undef s events = d.submitted theme events := by
  induction events generalizing s d with
  | nil => rfl
  | cons event events ih =>
      rw [List.foldl_cons] at hwritten
      have hfirst := written_le_run theme events (d.next theme event)
      have hnow := h.executedBy undef event (by omega)
      have hrest := ih (h.next undef event (by omega)) hwritten
      rw [Session.executed, Desk.submitted, hnow, hrest]

theorem at_start (theme : Option Theme) (vga : Nat → UInt16) (ports : PortIo) :
    Session.At (theme.getD themeRoninDark) vga (Session.start theme vga ports)
      (Desk.start (theme.getD themeRoninDark)) where
  keyboard := rfl
  shell := {
    terminal := rfl
    line := ⟨holdsStr_nil rfl, rfl, rfl⟩
    history := ⟨rfl, fun i hi => absurd hi (Nat.not_lt_zero i)⟩
    index := rfl }
  within := Editor.within_empty shellLimits
  screen := draws_terminalInit theme vga ports
  lines := le_rfl

/-- **The screen and the line.** After any scan codes, with whatever the commands write,
and any output in between, the keyboard has the modifiers of the desk, the shell edits the
line of the desk and has executed the lines submitted there, and the screen and the hardware
cursor show the desk: the output, the prompt with the line, and the status. -/
theorem session_shows (theme : Option Theme) (vga : Nat → UInt16) (ports : PortIo) (undef : Int)
    (events : List Event)
    (hwritten : (events.foldl (Desk.next (theme.getD themeRoninDark))
      (Desk.start (theme.getD themeRoninDark))).written + 1 < 2 ^ 31) :
    let d := events.foldl (Desk.next (theme.getD themeRoninDark))
      (Desk.start (theme.getD themeRoninDark))
    let s := events.foldl (Session.next undef) (Session.start theme vga ports)
    s.keyboard = d.keyboard ∧ Shows s.shell d.editor ∧
      Session.executed undef (Session.start theme vga ports) events
        = (Desk.start (theme.getD themeRoninDark)).submitted (theme.getD themeRoninDark) events ∧
      Shown (d.view (theme.getD themeRoninDark)) s.term := by
  have hstart := at_start theme vga ports
  have hrun := hstart.run undef hwritten
  exact ⟨hrun.keyboard, hrun.shell, hstart.executed undef hwritten, hrun.screen.shown⟩

/-- `a`, `Left`, `b` and Enter, a command that clears the screen and writes a line, and
a message of the kernel. -/
theorem session_shows_command :
    let events : List Event := [.output (.print ⟨ascii "OK.\n", by decide⟩ fun _ => 0), .shellInit,
      .irq1 0x1E fun _ => [], .irq1 0xE0 fun _ => [], .irq1 0x4B fun _ => [],
      .irq1 0x30 fun _ => [], .irq1 0x1C fun line => [.clear, .print ⟨line.filter (· ≠ 0),
        by simp⟩ fun _ => 0], .output (.putc 33), .irq1 0x49 fun _ => []]
    let start := Session.start none (fun _ => 0) (PortIo.start fun _ _ => 0)
    let d := events.foldl (Desk.next themeRoninDark) (Desk.start themeRoninDark)
    let s := events.foldl (Session.next 0) start
    Session.executed 0 start events = [ascii "ba"] ∧ s.keyboard = d.keyboard ∧
      Shows s.shell d.editor ∧ Shown (d.view themeRoninDark) s.term := by
  intro events start d s
  obtain ⟨hkeyboard, hshell, hexecuted, hshown⟩ :=
    session_shows none (fun _ => 0) (PortIo.start fun _ _ => 0) 0 events (by decide)
  refine ⟨hexecuted.trans ?_, hkeyboard, hshell, hshown⟩
  decide

end RoninOS.Shell
