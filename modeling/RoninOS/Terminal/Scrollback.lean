/-
RoninOS.Terminal.Scrollback — the scrollback ring refines an unbounded log.

Every call ends with `terminal_render`, which changes no more than the screen and
draws it from a state that keeps the end of the log.
-/
import RoninOS.Terminal.TerminalTheorems

namespace RoninOS.Terminal

open RoninOS.Lib

variable {theme : Theme} {t : TermState} {log : OutputLog}

/-! ## The window -/

theorem Holds.firstAbsLine_eq (h : Holds theme t log) :
    firstAbsLine t = log.line + 1 - termScrollbackLines := by
  rw [firstAbsLine, h.total]
  split <;> omega

/-- The window starts at line `top` of the log. -/
theorem Holds.topLine_eq (h : Holds theme t log) :
    topLine t = windowTop log.line t.scrollOffset.toNat := by
  have hoffset := h.offset_le
  have hback : add32 (termOutputRows - 1) t.scrollOffset.toNat
      = termOutputRows - 1 + t.scrollOffset.toNat := by
    refine add32_of_lt ?_
    simp only [termOutputRows, termHeight, termScrollbackLines] at hoffset ⊢
    omega
  simp only [topLine, hback, h.line, h.firstAbsLine_eq, windowTop]
  split_ifs <;> omega

/-- The cells that are drawn are those of the log, and never those of a slot that
was used again. -/
theorem Holds.shownCell_eq (h : Holds theme t log) {line col : Nat}
    (hfirst : log.line + 1 - termScrollbackLines ≤ line) (hcol : col < termWidth) :
    shownCell t line col = if line ≤ log.line then log.cells line col else blankCell theme := by
  unfold shownCell
  rw [h.line, h.firstAbsLine_eq]
  by_cases hline : line ≤ log.line
  · rw [if_pos ⟨hline, hfirst⟩, if_pos hline]
    exact h.cells col hcol line hline (by omega)
  · rw [if_neg fun hshown => hline hshown.1, if_neg hline, h.theme]
    rfl

/-! ## Drawing -/

theorem renderOutput_cell (t : TermState) (vga : Nat → UInt16) {row col : Nat}
    (hrow : row < termOutputRows) (hcol : col < termWidth) :
    renderOutput t vga (row * termWidth + col) =
      vgaEntry (shownCell t (add32 (topLine t) row) col).ch
        (shownCell t (add32 (topLine t) row) col).attr := by
  have hother : ∀ row' col', col' < termWidth → row' ≠ row ∨ col' ≠ col →
      row * termWidth + col ≠ row' * termWidth + col' := by
    simp only [termWidth] at hcol ⊢
    omega
  unfold renderOutput
  refine forLoop_touched (fun vga : Nat → UInt16 => vga (row * termWidth + col)) hrow
    (fun vga => ?_) fun row' _ hne vga => ?_
  · refine forLoop_touched (fun vga : Nat → UInt16 => vga (row * termWidth + col)) hcol
      (fun vga => ?_) fun col' hcol' hne vga => ?_
    · exact Function.update_self ..
    · exact Function.update_of_ne (hother row col' hcol' (Or.inr hne)) ..
  · refine forLoop_untouched (fun vga : Nat → UInt16 => vga (row * termWidth + col))
      fun col' hcol' vga => ?_
    exact Function.update_of_ne (hother row' col' hcol' (Or.inl hne)) ..

section Frame

variable {i : Nat} (hi : i < termOutputRows * termWidth)

include hi

theorem promptLoop_above (prompt : Buffer 32) (attr : UInt8) (rounds col : Nat)
    (vga : Nat → UInt16) : (promptLoop prompt attr rounds col vga).2 i = vga i := by
  induction rounds generalizing col vga with
  | zero => rfl
  | succ rounds ih =>
      unfold promptLoop
      dsimp only
      split
      · rw [ih, Function.update_of_ne (by omega)]
      · rfl

theorem inputLoop_above (input : Buffer 128) (len : Nat) (attr : UInt8) (rounds j col : Nat)
    (vga : Nat → UInt16) : inputLoop input len attr rounds j col vga i = vga i := by
  induction rounds generalizing j col vga with
  | zero => rfl
  | succ rounds ih =>
      unfold inputLoop
      split
      · rw [ih, Function.update_of_ne (by omega)]
      · rfl

/-- The row with the input is below the output. -/
theorem renderInput_above (t : TermState) (vga : Nat → UInt16) : renderInput t vga i = vga i := by
  unfold renderInput
  dsimp only
  rw [inputLoop_above hi, promptLoop_above hi]
  exact forLoop_untouched (fun vga : Nat → UInt16 => vga i)
    fun col _ vga => Function.update_of_ne (by omega) ..

/-- So is the row with the status. -/
theorem renderStatus_above (t : TermState) (vga : Nat → UInt16) :
    renderStatus t vga i = vga i := by
  unfold renderStatus
  refine forLoop_untouched (fun vga : Nat → UInt16 => vga i)
    fun col _ vga => Function.update_of_ne ?_ ..
  simp only [termOutputRows, termHeight, termWidth] at hi ⊢
  omega

end Frame

/-- Drawing changes the screen and the hardware cursor. -/
theorem Holds.terminalRender_eq (h : Holds theme t log) : ∃ ports, terminalRender t =
    { t with vga := renderStatus t (renderInput t (renderOutput t t.vga)), ports := ports } := by
  have hoffset := h.offset_le
  have hbottom : ¬ t.currentLine < t.scrollOffset.toNat := by
    rw [h.line]
    omega
  simp only [terminalRender, if_neg (not_lt.mpr h.offset_nonneg), if_neg hbottom]
  exact ⟨_, rfl⟩

theorem Holds.terminalRender (h : Holds theme t log) : Holds theme (terminalRender t) log := by
  obtain ⟨ports, heq⟩ := h.terminalRender_eq
  rw [heq]
  exact { h with }

theorem Holds.scrollOffset_render (h : Holds theme t log) :
    (Terminal.terminalRender t).scrollOffset = t.scrollOffset := by
  obtain ⟨ports, heq⟩ := h.terminalRender_eq
  rw [heq]

/-- `terminal_render` shows the window of the log. -/
theorem Holds.showsWindow (h : Holds theme t log) (hline : log.line + 1 < 2 ^ 31) :
    ShowsWindow theme log t.scrollOffset.toNat (Terminal.terminalRender t).vga := by
  intro row hrow col hcol
  have habove : row * termWidth + col < termOutputRows * termWidth := by
    simp only [termOutputRows, termHeight, termWidth] at hrow hcol ⊢
    omega
  have htop : windowTop log.line t.scrollOffset.toNat ≤ log.line := by
    unfold windowTop
    simp only [termScrollbackLines]
    omega
  have hadd : add32 (topLine t) row = windowTop log.line t.scrollOffset.toNat + row := by
    rw [h.topLine_eq]
    refine add32_of_lt ?_
    simp only [termOutputRows, termHeight] at hrow
    omega
  have hfirst : log.line + 1 - termScrollbackLines
      ≤ windowTop log.line t.scrollOffset.toNat + row :=
    (le_max_left _ _).trans (Nat.le_add_right _ _)
  obtain ⟨ports, heq⟩ := h.terminalRender_eq
  rw [heq]
  dsimp only
  rw [renderStatus_above habove, renderInput_above habove, renderOutput_cell t t.vga hrow hcol,
    hadd, h.shownCell_eq hfirst hcol]

/-! ## Calls -/

/-- The furthest that can be scrolled up. -/
theorem Holds.maxOff_eq (h : Holds theme t log) (hline : log.line + 1 < 2 ^ 31) :
    asInt (sub32 t.currentLine (firstAbsLine t)) = min log.line (termScrollbackLines - 1) := by
  rw [h.firstAbsLine_eq, h.line, sub32_of_le (by simp only [termScrollbackLines]; omega) (by omega),
    asInt, if_pos (by omega)]
  simp only [termScrollbackLines]
  omega

/-- Scrolling ends at both ends of the log, whatever the sum was. -/
theorem Holds.scroll (h : Holds theme t log) (hline : log.line + 1 < 2 ^ 31) (undef delta : Int) :
    ∃ t', terminalScrollLines undef delta t = Terminal.terminalRender t' ∧ Holds theme t' log := by
  unfold terminalScrollLines
  rw [h.maxOff_eq hline]
  generalize addInt undef t.scrollOffset delta = offset
  refine ⟨_, rfl, ?_⟩
  by_cases hneg : offset < 0
  · simp only [if_pos hneg]
    rw [if_neg (by omega)]
    exact { h with offset_nonneg := le_rfl, offset_le := Int.natCast_nonneg _ }
  · simp only [if_neg hneg]
    by_cases hend : offset > (min log.line (termScrollbackLines - 1) : Nat)
    · rw [if_pos hend]
      exact { h with offset_nonneg := Int.natCast_nonneg _, offset_le := le_rfl }
    · rw [if_neg hend]
      exact { h with offset_nonneg := not_lt.mp hneg, offset_le := not_lt.mp hend }

theorem holdsAt_stringMem (s : CString) (behind : Mem) :
    HoldsAt (stringMem s behind) 0 s.bytes where
  noNul := s.noNul
  byte i hi := by
    rw [Nat.zero_add, stringMem, if_pos hi, List.getD_eq_getElem _ _ hi]
  terminator := by
    rw [Nat.zero_add, stringMem, if_neg (lt_irrefl _), if_pos rfl]

/-- A call draws a state that keeps the end of the log. -/
theorem Holds.termNext (h : Holds theme t log) (op : TermCall)
    (hline : (log.next theme op).line + 1 < 2 ^ 31) :
    ∃ t', termNext t op = Terminal.terminalRender t' ∧ Holds theme t' (log.next theme op) := by
  have hbefore := log.line_le_next theme op
  cases op with
  | write s behind =>
      cases s with
      | none => exact ⟨t, rfl, h⟩
      | some s =>
          exact ⟨_, rfl, h.writeLoop (holdsAt_stringMem s behind) (Nat.lt_succ_self _) hline⟩
  | putc c => exact ⟨_, rfl, h.char (by omega) c⟩
  | scroll delta undef => exact h.scroll hline undef delta

/-- `terminal_init` draws an empty log. -/
theorem terminalInit_holds (theme : Option Theme) (t : TermState) :
    ∃ t', terminalInit theme t = terminalRender t' ∧
      Holds (theme.getD themeRoninDark) t' (OutputLog.start (theme.getD themeRoninDark)) := by
  refine ⟨_, rfl, ?_⟩
  generalize theme.getD themeRoninDark = theme
  have hkeep : ∀ {α : Type} (view : TermState → α) (s : TermState),
      (∀ absLine s, view (clearLine absLine s) = view s) →
      view (forLoop termScrollbackLines clearLine s) = view s :=
    fun view s hview => forLoop_untouched view fun i _ s => hview i s
  exact {
    theme := hkeep TermState.theme _ clearLine_theme
    line := hkeep TermState.currentLine _ clearLine_currentLine
    total := hkeep TermState.totalLines _ clearLine_totalLines
    col := hkeep TermState.currentCol _ clearLine_currentCol
    col_lt := Nat.succ_pos _
    attr := hkeep TermState.currentAttr _ clearLine_currentAttr
    offset_nonneg := (hkeep TermState.scrollOffset _ clearLine_scrollOffset).ge
    offset_le := (hkeep TermState.scrollOffset _ clearLine_scrollOffset).le
    cells := fun col hcol => by
      refine holdsEnd_zero (forLoop_stored (fun s => s.theme = theme) rfl
        (fun i _ s hs => (clearLine_theme i s).trans hs) (fun s => s.lines 0 col)
        (show 0 < termScrollbackLines by decide) (fun s hs => ?_) fun i hi hne s => ?_)
      · rw [clearLine_lines, if_pos ⟨rfl, hcol⟩, hs]
        rfl
      · rw [clearLine_lines, if_neg]
        rw [Nat.mod_eq_of_lt hi]
        exact fun hzero => hne hzero.1.symm }

/-! ## Runs -/

/-- The terminal is drawn from a state that keeps the end of the log, in any run. -/
theorem Holds.run (h : Holds theme t log) (ops : List TermCall)
    (hline : (ops.foldl (OutputLog.next theme) log).line + 1 < 2 ^ 31) :
    ∃ t', ops.foldl Terminal.termNext (Terminal.terminalRender t) = Terminal.terminalRender t' ∧
      Holds theme t' (ops.foldl (OutputLog.next theme) log) := by
  induction ops generalizing t log with
  | nil => exact ⟨t, rfl, h⟩
  | cons op ops ih =>
      rw [List.foldl_cons] at hline ⊢
      have hnext := OutputLog.line_le_run theme ops (log.next theme op)
      obtain ⟨t', heq, h'⟩ := h.terminalRender.termNext op (by omega)
      rw [List.foldl_cons, heq]
      exact ih h' hline

/-- The ring and the screen after any calls: the ring holds the last 512 lines of the log of all
characters, and the screen shows a window of them. -/
theorem scrollback_refines (theme : Option Theme) (t : TermState) (ops : List TermCall)
    (hline : (ops.foldl (OutputLog.next (theme.getD themeRoninDark))
      (OutputLog.start (theme.getD themeRoninDark))).line + 1 < 2 ^ 31) :
    Refines (theme.getD themeRoninDark) (ops.foldl termNext (terminalInit theme t))
      (ops.foldl (OutputLog.next (theme.getD themeRoninDark))
        (OutputLog.start (theme.getD themeRoninDark))) := by
  obtain ⟨t₀, hinit, h₀⟩ := terminalInit_holds theme t
  obtain ⟨t', hrun, h⟩ := h₀.run ops hline
  rw [hinit, hrun]
  generalize ops.foldl _ _ = log at h hline
  have hdrawn := h.terminalRender
  exact {
    line := hdrawn.line
    col_lt := hdrawn.col ▸ hdrawn.col_lt
    total := hdrawn.total.trans (by rw [hdrawn.line])
    offset_nonneg := hdrawn.offset_nonneg
    offset_le := hdrawn.line ▸ hdrawn.offset_le
    ring := fun i hfirst hlast col hcol => by
      rw [hdrawn.total] at hfirst
      rw [hdrawn.line] at hlast
      exact hdrawn.cells col hcol i hlast (by omega)
    screen := by
      rw [h.scrollOffset_render]
      exact h.showsWindow hline
    render := hdrawn.showsWindow hline }

/-- A line, a colour code, a character and a scroll back from the statics. -/
theorem scrollback_refines_colour :
    Refines themeRoninDark
      ([.write (some ⟨ascii "a\n\x1b[31mb", by decide⟩) (fun _ => 0), .putc 8, .scroll 1 0].foldl
        termNext (terminalInit none (termStatics (fun _ => 0) (PortIo.start fun _ _ => 0))))
      ([.write (some ⟨ascii "a\n\x1b[31mb", by decide⟩) (fun _ => 0), .putc 8, .scroll 1 0].foldl
        (OutputLog.next themeRoninDark) (OutputLog.start themeRoninDark)) :=
  scrollback_refines none _ _ (by decide)

end RoninOS.Terminal
