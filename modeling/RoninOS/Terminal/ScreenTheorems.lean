/-
RoninOS.Terminal.ScreenTheorems — the screen shows the view, after any calls.

`Keeps v t` says that the statics hold the view. `terminal_render` then shows it
(`Keeps.render`), whatever was on the screen before, and each call keeps it
(`Keeps.next`). Nothing is written outside the 2000 cells of the screen.
-/
import RoninOS.Terminal.ScreenRows

namespace RoninOS.Terminal

open RoninOS.Lib

/-- The statics hold the view. -/
structure Keeps (v : View) (t : TermState) : Prop where
  holds : Holds v.theme t v.log
  offset : t.scrollOffset = v.offset
  prompt : t.prompt.str = v.prompt
  promptNul : 0 ∈ t.prompt.bytes
  input : t.input.bytes.take t.inputLen = v.input
  inputLen : t.inputLen = v.input.length
  cursor : t.inputCursor = v.cursor
  status : t.status.bytes = v.status ++ List.replicate (80 - v.status.length) 0
  statusNoNul : 0 ∉ v.status

section Render

variable {v : View} {t : TermState}

/-! ## Drawing -/

/-- The output of the screen. -/
theorem Keeps.render_output (h : Keeps v t) (hline : v.log.line + 1 < 2 ^ 31) {row col : Nat}
    (hrow : row < termOutputRows) (hcol : col < termWidth) :
    (terminalRender t).vga (row * termWidth + col) = v.cell row col := by
  have hshown := h.holds.showsWindow hline row hrow col hcol
  rw [h.offset] at hshown
  rw [hshown, View.cell, if_pos hrow]
  rfl

/-- The row with the input. -/
theorem Keeps.render_input (h : Keeps v t) {col : Nat} (hcol : col < termWidth) :
    (terminalRender t).vga (termOutputRows * termWidth + col) = v.cell termOutputRows col := by
  obtain ⟨ports, heq⟩ := h.holds.terminalRender_eq
  have hother : termOutputRows * termWidth + col < (termHeight - 1) * termWidth := by
    simp only [termOutputRows, termHeight, termWidth] at hcol ⊢
    omega
  rw [heq]
  dsimp only
  rw [renderStatus_other t _ (Or.inl hother), renderInput_row t h.promptNul _ hcol, View.cell,
    if_neg (lt_irrefl _), if_pos rfl, View.inputRow, h.prompt, h.holds.theme]
  by_cases hin : col < v.prompt.length
  · rw [if_pos hin, List.getD_append _ _ _ _ (by simpa using hin)]
    simp [List.getD_eq_getElem?_getD, hin]
  · rw [if_neg hin, List.getD_append_right _ _ _ _ (by simpa using hin), List.length_map,
      h.inputLen]
    by_cases htext : col - v.prompt.length < v.input.length
    · have hbyte : t.input.bytes.getD (col - v.prompt.length) 0
          = v.input.getD (col - v.prompt.length) 0 := by
        rw [← h.input, List.getD_eq_getElem?_getD, List.getD_eq_getElem?_getD,
          List.getElem?_take_of_lt (by rw [h.inputLen]; exact htext)]
      rw [if_pos htext, hbyte]
      simp [List.getD_eq_getElem?_getD, htext]
    · rw [if_neg htext]
      simp [List.getD_eq_getElem?_getD, htext]

/-- The row with the status. -/
theorem Keeps.render_status (h : Keeps v t) {col : Nat} (hcol : col < termWidth) :
    (terminalRender t).vga ((termHeight - 1) * termWidth + col) = v.cell (termHeight - 1) col := by
  obtain ⟨ports, heq⟩ := h.holds.terminalRender_eq
  rw [heq]
  dsimp only
  have hbelow : ¬ termHeight - 1 < termOutputRows ∧ termHeight - 1 ≠ termOutputRows := by decide
  rw [renderStatus_row t _ hcol, View.cell, h.status, h.holds.theme]
  simp only [if_neg hbelow.1, if_neg hbelow.2]
  by_cases hin : col < v.status.length
  · have hne : v.status.getD col 0 ≠ 0 := by
      rw [List.getD_eq_getElem _ _ hin]
      exact fun hzero => h.statusNoNul (hzero ▸ List.getElem_mem hin)
    rw [List.getD_append _ _ _ _ hin, if_pos hne]
    simp [List.getD_eq_getElem?_getD, hin]
  · have hzero : (List.replicate (80 - v.status.length) (0 : UInt8)).getD (col - v.status.length) 0
        = 0 := by
      simp [List.getD_eq_getElem?_getD, List.getElem?_replicate]
      split <;> rfl
    rw [List.getD_append_right _ _ _ _ (not_lt.mp hin), hzero, if_neg (by simp)]
    simp [List.getD_eq_getElem?_getD, hin]

/-- The four port writes put the cursor where they are told to. -/
theorem hwCursor_setHwCursor (row col : Nat) (p : PortIo)
    (hpos : row * termWidth + col < 2 ^ 16) :
    hwCursor (setHwCursor row col p) = row * termWidth + col := by
  have hlow : ∀ x, (UInt8.ofNat (x &&& 0xFF)).toNat = x % 256 := by
    intro x
    rw [UInt8.toNat_ofNat', show (0xFF : Nat) = 2 ^ 8 - 1 from rfl, Nat.and_two_pow_sub_one_eq_mod]
    omega
  simp only [hwCursor, setHwCursor, PortIo.outb, crtc, Nat.mod_eq_of_lt hpos]
  rw [Function.update_self, Function.update_of_ne (by decide), Function.update_self, hlow, hlow,
    Nat.shiftRight_eq_div_pow]
  omega

theorem Keeps.render_cursor (h : Keeps v t) :
    hwCursor (terminalRender t).ports = v.cursorPos := by
  have hcol : ∀ n : Nat, (if n ≥ termWidth then termWidth - 1 else n) = min n (termWidth - 1) := by
    intro n
    by_cases hn : n ≥ termWidth
    · rw [if_pos hn]
      omega
    · rw [if_neg hn]
      omega
  have hoffset := h.holds.offset_le
  have hbottom : ¬ t.currentLine < t.scrollOffset.toNat := by
    rw [h.holds.line]
    omega
  simp only [terminalRender, if_neg (not_lt.mpr h.holds.offset_nonneg), if_neg hbottom]
  rw [hwCursor_setHwCursor, hcol, h.prompt, h.cursor]
  · rfl
  · rw [hcol]
    simp only [termOutputRows, termHeight, termWidth]
    omega

/-- `terminal_render` shows what the statics hold. -/
theorem Keeps.render (h : Keeps v t) (hline : v.log.line + 1 < 2 ^ 31) :
    Shown v (terminalRender t) where
  cell row hrow col hcol := by
    rcases Nat.lt_trichotomy row termOutputRows with habove | rfl | hbelow
    · exact h.render_output hline habove hcol
    · exact h.render_input hcol
    · obtain rfl : row = termHeight - 1 := by
        simp only [termOutputRows, termHeight] at *
        omega
      exact h.render_status hcol
  cursor := h.render_cursor

/-- It changes none of them. -/
theorem Keeps.rendered (h : Keeps v t) : Keeps v (terminalRender t) := by
  have hholds := h.holds.terminalRender
  obtain ⟨ports, heq⟩ := h.holds.terminalRender_eq
  rw [heq] at hholds ⊢
  exact { h with holds := hholds }

/-- It writes no cell behind the last one. -/
theorem Keeps.render_outside (h : Keeps v t) {i : Nat} (hi : termHeight * termWidth ≤ i) :
    (terminalRender t).vga i = t.vga i := by
  obtain ⟨ports, heq⟩ := h.holds.terminalRender_eq
  have hinput : (termOutputRows + 1) * termWidth ≤ i := by
    simp only [termOutputRows, termHeight, termWidth] at hi ⊢
    omega
  rw [heq]
  dsimp only
  rw [renderStatus_other t _ (Or.inr hi), renderInput_below hinput]
  unfold renderOutput
  refine forLoop_untouched (fun vga : Nat → UInt16 => vga i) fun row hrow vga => ?_
  refine forLoop_untouched (fun vga : Nat → UInt16 => vga i) fun col hcol vga => ?_
  refine Function.update_of_ne ?_ ..
  simp only [termOutputRows, termHeight, termWidth] at hi hrow hcol ⊢
  omega

end Render

/-! ## Output -/

@[simp] theorem linefeed_scrollOffset (t : TermState) : (linefeed t).scrollOffset = 0 := by
  simp only [linefeed]

theorem linefeed_currentLine (t : TermState) :
    (linefeed t).currentLine = add32 t.currentLine 1 := by
  simp only [linefeed, clearLine_currentLine]

/-- Where a line was started the terminal is scrolled to the end, and otherwise as
before. -/
def ScrollsAfter (t t' : TermState) : Prop :=
  t'.scrollOffset = if t'.currentLine = t.currentLine then t.scrollOffset else 0

theorem scrollsAfter_linefeed {t t' : TermState} (hline : t.currentLine + 1 < 2 ^ 32)
    (h : t'.currentLine = t.currentLine) : ScrollsAfter t (linefeed t') := by
  rw [ScrollsAfter, linefeed_currentLine, h, add32_of_lt hline, if_neg (by omega),
    linefeed_scrollOffset]

theorem scrollsAfter_of_eq {t t' : TermState} (h : t'.currentLine = t.currentLine)
    (hoffset : t'.scrollOffset = t.scrollOffset) : ScrollsAfter t t' := by
  rw [ScrollsAfter, if_pos h, hoffset]

theorem putOutputChar_scrolls (c : UInt8) (t : TermState) (hline : t.currentLine + 1 < 2 ^ 32) :
    ScrollsAfter t (putOutputChar c t) := by
  have hready : (ensureCurrentLineInitialized t).currentLine = t.currentLine ∧
      (ensureCurrentLineInitialized t).scrollOffset = t.scrollOffset := by
    unfold ensureCurrentLineInitialized
    split <;> simp
  unfold putOutputChar
  split_ifs
  · exact scrollsAfter_linefeed hline rfl
  · exact scrollsAfter_of_eq rfl rfl
  · exact scrollsAfter_of_eq rfl rfl
  · exact scrollsAfter_of_eq rfl rfl
  · exact scrollsAfter_of_eq rfl rfl
  · generalize ensureCurrentLineInitialized t = ready at hready ⊢
    extract_lets start written moved
    by_cases hend : moved.currentCol ≥ termWidth
    · rw [if_pos hend]
      exact scrollsAfter_linefeed hline hready.1
    · rw [if_neg hend]
      exact scrollsAfter_of_eq hready.1 hready.2

variable {theme : Theme} {log : OutputLog} {v : View} {t : TermState}

theorem Holds.feed (h : Holds theme t log) (token : Token) (hline : log.line + 2 < 2 ^ 32) :
    Holds theme (t.feed token) (log.feed theme token) := by
  cases token with
  | char c => exact h.char hline c
  | colour attr => exact h.withAttr attr

/-- So of the tokens of a string. -/
theorem Holds.foldl_feed (h : Holds theme t log) (tokens : List Token)
    (hline : (tokens.foldl (OutputLog.feed theme) log).line + 1 < 2 ^ 31) :
    Holds theme (tokens.foldl TermState.feed t) (tokens.foldl (OutputLog.feed theme) log) ∧
      (tokens.foldl TermState.feed t).scrollOffset =
        if (tokens.foldl (OutputLog.feed theme) log).line = log.line then t.scrollOffset
        else 0 := by
  induction tokens generalizing t log with
  | nil => exact ⟨h, (if_pos rfl).symm⟩
  | cons token tokens ih =>
      rw [List.foldl_cons] at hline ⊢
      have hfirst := log.line_le_feed theme token
      have hrest := OutputLog.line_le_foldl theme tokens (log.feed theme token)
      have hfed := h.feed token (by omega)
      have hoffset : (t.feed token).scrollOffset =
          if (log.feed theme token).line = log.line then t.scrollOffset else 0 := by
        cases token with
        | char c =>
            have hchar := putOutputChar_scrolls c t (by rw [h.line]; omega)
            rwa [ScrollsAfter, show (putOutputChar c t).currentLine = _ from hfed.line, h.line]
              at hchar
        | colour attr => exact (if_pos rfl).symm
      obtain ⟨hholds, hscrolled⟩ := ih hfed hline
      rw [List.foldl_cons, hscrolled, hoffset]
      refine ⟨hholds, ?_⟩
      -- the offset is kept exactly while no token starts a line
      by_cases hsame : (log.feed theme token).line = log.line
      · rw [if_pos hsame, hsame]
      · rw [if_neg hsame, if_neg (by omega : ¬ (tokens.foldl (OutputLog.feed theme)
          (log.feed theme token)).line = log.line), ite_self]

/-! ## Calls -/

/-- Output keeps the rows below. -/
theorem Keeps.withLog (h : Keeps v t) {t' : TermState} {log : OutputLog}
    (hholds : Holds v.theme t' log) (hbelow : t'.below = t.below)
    (hoffset : t'.scrollOffset = if log.line = v.log.line then t.scrollOffset else 0) :
    Keeps (v.withLog log) t' := by
  simp only [TermState.below, Prod.mk.injEq] at hbelow
  obtain ⟨-, hprompt, hinput, hlen, hcursor, hstatus, -, -⟩ := hbelow
  exact {
    holds := hholds
    offset := by rw [hoffset, h.offset]; rfl
    prompt := by rw [hprompt]; exact h.prompt
    promptNul := by rw [hprompt]; exact h.promptNul
    input := by rw [hinput, hlen]; exact h.input
    inputLen := by rw [hlen]; exact h.inputLen
    cursor := by rw [hcursor]; exact h.cursor
    status := by rw [hstatus]; exact h.status
    statusNoNul := h.statusNoNul }

/-- `terminal_write` draws a state that keeps the view with the string in its log. -/
theorem Keeps.write (h : Keeps v t) (s : Option CString) (behind : Mem)
    (hline : (v.log.next v.theme (.write s behind)).line + 1 < 2 ^ 31) :
    ∃ t', terminalWrite s behind t = terminalRender t' ∧ t'.below = t.below ∧
      Keeps (v.withLog (v.log.next v.theme (.write s behind))) t' := by
  cases s with
  | none => exact ⟨t, rfl, rfl, h.withLog h.holds rfl (if_pos rfl).symm⟩
  | some s =>
      have htokens := writeLoop_eq_foldl (t := t) (holdsAt_stringMem s behind)
        (Nat.lt_succ_self _)
      have hbelow := foldl_feed_below (tokensFrom t.theme 0 s.bytes) t
      rw [h.holds.theme] at htokens hbelow
      obtain ⟨hholds, hoffset⟩ := h.holds.foldl_feed _ hline
      exact ⟨_, congrArg terminalRender htokens, hbelow, h.withLog hholds hbelow hoffset⟩

/-- `terminal_putc` draws one that keeps the character. -/
theorem Keeps.putc (h : Keeps v t) (c : UInt8)
    (hline : (v.log.char v.theme c).line + 1 < 2 ^ 31) :
    Keeps (v.withLog (v.log.char v.theme c)) (putOutputChar c t) := by
  obtain ⟨hholds, hoffset⟩ := h.holds.foldl_feed [.char c] hline
  exact h.withLog hholds (putOutputChar_below c t) hoffset

/-- `terminal_scroll_lines` stays within the lines that are kept. -/
theorem Keeps.scroll (h : Keeps v t) (hline : v.log.line + 1 < 2 ^ 31) (undef delta : Int) :
    ∃ t', terminalScrollLines undef delta t = terminalRender t' ∧ t'.below = t.below ∧
      Keeps (v.scroll (addInt undef v.offset delta)) t' := by
  have heq : terminalScrollLines undef delta t = terminalRender { t with
      scrollOffset := (v.scroll (addInt undef v.offset delta)).offset } := by
    unfold terminalScrollLines View.scroll
    rw [h.holds.maxOff_eq hline, h.offset]
    generalize addInt undef v.offset delta = offset
    generalize min v.log.line (termScrollbackLines - 1) = last
    dsimp only
    by_cases hneg : offset < 0
    · have hzero : max (0 : Int) (min offset last) = 0 := by omega
      simp only [if_pos hneg, hzero]
      rw [if_neg (by omega)]
    · simp only [if_neg hneg]
      by_cases hend : offset > last
      · have hlast : max (0 : Int) (min offset last) = last := by omega
        rw [if_pos hend, hlast]
      · have hstay : max (0 : Int) (min offset last) = offset := by omega
        rw [if_neg hend, hstay]
  refine ⟨_, heq, rfl, ?_⟩
  have hholds : Holds v.theme { t with
      scrollOffset := (v.scroll (addInt undef v.offset delta)).offset } v.log :=
    { h.holds with
      offset_nonneg := le_max_left _ _
      offset_le := by
        simp only [View.scroll]
        omega }
  exact { h with holds := hholds, offset := rfl }

/-- `terminal_init` and `terminal_clear_scrollback` blank the ring. -/
theorem terminalInit_below (theme : Option Theme) (t : TermState) :
    ∃ t', terminalInit theme t = terminalRender t' ∧
      t'.below = ({ t with theme := theme.getD themeRoninDark } : TermState).below ∧
      t'.scrollOffset = 0 ∧
      Holds (theme.getD themeRoninDark) t' (OutputLog.start (theme.getD themeRoninDark)) := by
  obtain ⟨drawn, heq, hdrawn⟩ := terminalInit_holds theme t
  have hframe : ∀ {α : Type} (view : TermState → α) (s : TermState),
      (∀ absLine s, view (clearLine absLine s) = view s) →
      view (forLoop termScrollbackLines clearLine s) = view s :=
    fun view s hview => forLoop_untouched view fun i _ s => hview i s
  have hinit : ∃ t', terminalInit theme t = terminalRender t' ∧
      t'.below = ({ t with theme := theme.getD themeRoninDark } : TermState).below ∧
      t'.scrollOffset = 0 :=
    ⟨_, rfl, hframe TermState.below _ clearLine_below,
      hframe TermState.scrollOffset _ clearLine_scrollOffset⟩
  obtain ⟨t', hrender, hbelow, hoffset⟩ := hinit
  refine ⟨t', hrender, hbelow, hoffset, ?_⟩
  -- both states are drawn as the same one, and drawing changes no more than the screen
  have hsame : terminalRender t' = { t' with
      vga := (terminalRender t').vga, ports := (terminalRender t').ports } := by
    simp [terminalRender, hoffset]
  have hrendered := hdrawn.terminalRender
  rw [← heq, hrender, hsame] at hrendered
  exact { hrendered with }

theorem Keeps.init (h : Keeps v t) (theme : Option Theme) :
    ∃ t', terminalInit theme t = terminalRender t' ∧ t'.vga = t.vga ∧
      Keeps (v.next (.init theme)) t' := by
  obtain ⟨t', heq, hbelow, hoffset, hholds⟩ := terminalInit_below theme t
  simp only [TermState.below, Prod.mk.injEq] at hbelow
  obtain ⟨-, hprompt, hinput, hlen, hcursor, hstatus, hvga, -⟩ := hbelow
  exact ⟨t', heq, hvga, {
    holds := hholds
    offset := hoffset
    prompt := by rw [hprompt]; exact h.prompt
    promptNul := by rw [hprompt]; exact h.promptNul
    input := by rw [hinput, hlen]; exact h.input
    inputLen := by rw [hlen]; exact h.inputLen
    cursor := by rw [hcursor]; exact h.cursor
    status := by rw [hstatus]; exact h.status
    statusNoNul := h.statusNoNul }⟩

/-- `terminal_clear_scrollback` is `terminal_init` with the theme at hand. -/
theorem terminalClearScrollback_eq (t : TermState) :
    terminalClearScrollback t = terminalInit (some t.theme) t := rfl

/-- `terminal_apply_theme` changes the colours of what is still to be written. -/
theorem Keeps.withTheme (h : Keeps v t) (theme : Theme) :
    Keeps (v.next (.applyTheme (some theme)))
      { t with theme := theme, currentAttr := themeAttr theme.fgOutput theme.bg } := by
  have hholds : Holds theme
      { t with theme := theme, currentAttr := themeAttr theme.fgOutput theme.bg }
      { v.log with attr := themeAttr theme.fgOutput theme.bg } :=
    { h.holds with theme := rfl, attr := rfl }
  exact { h with holds := hholds }

theorem Keeps.setPrompt (h : Keeps v t) (prompt : CString) :
    ∃ t', terminalSetPrompt (some prompt) t = terminalRender t' ∧ t'.vga = t.vga ∧
      Keeps (v.next (.setPrompt (some prompt))) t' := by
  obtain ⟨hprompt, hnul⟩ := prompt_stored prompt t.prompt
  exact ⟨_, rfl, rfl,
    { h with holds := { h.holds with }, prompt := hprompt, promptNul := hnul }⟩

theorem Keeps.setStatus (h : Keeps v t) (status : CString) :
    ∃ t', terminalSetStatus (some status) t = terminalRender t' ∧ t'.vga = t.vga ∧
      Keeps (v.next (.setStatus (some status))) t' :=
  ⟨_, rfl, rfl, { h with
    holds := { h.holds with }
    status := status_stored status t.status
    statusNoNul := nul_not_mem_take status 79 }⟩

theorem Keeps.setInputLine (h : Keeps v t) (input : Option Mem) (len cursor : Nat) :
    ∃ t', terminalSetInputLine input len cursor t = terminalRender t' ∧ t'.vga = t.vga ∧
      Keeps (v.next (.setInputLine input len cursor)) t' := by
  cases input with
  | none =>
      exact ⟨_, rfl, rfl, { h with
        holds := { h.holds with }
        input := rfl
        inputLen := rfl
        cursor := rfl }⟩
  | some input =>
      have hcut : (if len ≥ 128 then 128 - 1 else len) = min len 127 := by
        split <;> omega
      have hcursor : ∀ n, (if cursor > n then n else cursor) = min cursor n := by
        intro n
        split <;> omega
      refine ⟨_, rfl, rfl, ?_⟩
      simp only [hcut, hcursor]
      exact { h with
        holds := { h.holds with }
        input := input_stored input t.input (Nat.min_le_right _ _)
        inputLen := (length_bytesAt _ _ _).symm
        cursor := rfl }

/-! ## Runs -/

/-- The statics hold the view, the screen shows it, and what is behind the screen is as
in `vga`. -/
structure Draws (vga : Nat → UInt16) (v : View) (t : TermState) : Prop where
  keeps : Keeps v t
  shown : Shown v t
  outside : ∀ i, termHeight * termWidth ≤ i → t.vga i = vga i

variable {vga : Nat → UInt16}

theorem Keeps.draws (h : Keeps v t) (hvga : ∀ i, termHeight * termWidth ≤ i → t.vga i = vga i)
    (hline : v.log.line + 1 < 2 ^ 31) : Draws vga v (terminalRender t) where
  keeps := h.rendered
  shown := h.render hline
  outside i hi := (h.render_outside hi).trans (hvga i hi)

/-- A call that draws a new state. -/
theorem Draws.drawn (h : Draws vga v t) {v' : View} {drawn : TermState}
    (hstate : ∃ t', drawn = terminalRender t' ∧ t'.vga = t.vga ∧ Keeps v' t')
    (hline : v'.log.line + 1 < 2 ^ 31) : Draws vga v' drawn := by
  obtain ⟨t', rfl, hvga, hkeeps⟩ := hstate
  refine hkeeps.draws (fun i hi => ?_) hline
  rw [hvga]
  exact h.outside i hi

/-- The colours of the next character are not on the screen. -/
theorem Draws.withAttr (h : Draws vga v t) (attr : UInt8) :
    Draws vga { v with log := { v.log with attr := attr } } { t with currentAttr := attr } where
  keeps := { h.keeps with holds := h.keeps.holds.withAttr attr }
  shown := { cell := h.shown.cell, cursor := h.shown.cursor }
  outside := h.outside

theorem vga_of_below {t t' : TermState} (h : t'.below = t.below) : t'.vga = t.vga := by
  simp only [TermState.below, Prod.mk.injEq] at h
  exact h.2.2.2.2.2.2.1

/-- A call of the terminal shows the view after it. -/
theorem Draws.next (h : Draws vga v t) (call : Call)
    (hline : (v.next call).log.line + 1 < 2 ^ 31) : Draws vga (v.next call) (callNext t call) := by
  cases call with
  | init theme => exact h.drawn (h.keeps.init theme) hline
  | applyTheme theme =>
      cases theme with
      | none => exact h
      | some theme => exact h.drawn ⟨_, rfl, rfl, h.keeps.withTheme theme⟩ hline
  | clearScrollback =>
      have hinit := h.keeps.init (some t.theme)
      rw [← terminalClearScrollback_eq, h.keeps.holds.theme] at hinit
      exact h.drawn hinit hline
  | text op =>
      cases op with
      | write s behind =>
          obtain ⟨t', heq, hbelow, hkeeps⟩ := h.keeps.write s behind hline
          exact h.drawn ⟨t', heq, vga_of_below hbelow, hkeeps⟩ hline
      | putc c =>
          exact h.drawn ⟨_, rfl, vga_of_below (putOutputChar_below c t), h.keeps.putc c hline⟩ hline
      | scroll delta undef =>
          obtain ⟨t', heq, hbelow, hkeeps⟩ := h.keeps.scroll hline undef delta
          exact h.drawn ⟨t', heq, vga_of_below hbelow, hkeeps⟩ hline
  | writeError s behind =>
      obtain ⟨theme, ⟨line, col, attr, cells⟩, offset, prompt, input, cursor, status⟩ := v
      obtain rfl : t.theme = theme := h.keeps.holds.theme
      obtain rfl : t.currentAttr = attr := h.keeps.holds.attr
      have hred := h.withAttr (themeAttr t.theme.fgError t.theme.bg)
      obtain ⟨t', heq, hbelow, hkeeps⟩ := hred.keeps.write s behind hline
      have hwritten := hred.drawn ⟨t', heq, vga_of_below hbelow, hkeeps⟩ hline
      -- the colours come back after the drawing, which does not read them
      exact hwritten.withAttr t.currentAttr
  | setPrompt prompt =>
      cases prompt with
      | none => exact h
      | some prompt => exact h.drawn (h.keeps.setPrompt prompt) hline
  | setInputLine input len cursor =>
      exact h.drawn (h.keeps.setInputLine input len cursor) hline
  | setStatus status =>
      cases status with
      | none => exact h
      | some status => exact h.drawn (h.keeps.setStatus status) hline

theorem Draws.run (h : Draws vga v t) {calls : List Call}
    (hline : ∀ n ≤ calls.length,
      ((calls.take n).foldl View.next v).log.line + 1 < 2 ^ 31) :
    Draws vga (calls.foldl View.next v) (calls.foldl callNext t) := by
  induction calls generalizing v t with
  | nil => exact h
  | cons call calls ih =>
      have hfirst := hline 1 (by simp)
      have hrest : ∀ n ≤ calls.length,
          ((calls.take n).foldl View.next (v.next call)).log.line + 1 < 2 ^ 31 := by
        intro n hn
        exact hline (n + 1) (Nat.succ_le_succ hn)
      exact ih (h.next call hfirst) hrest

/-- The statics before any call hold a view too, which nobody has seen. -/
def View.statics : View where
  theme := ⟨0, 0, 0, 0, 0, 0, 0⟩
  log := ⟨0, 0, 7, fun _ _ => ⟨0, 0⟩⟩
  offset := 0
  prompt := ascii "ronin> "
  input := []
  cursor := 0
  status := ascii "PgUp/PgDn scroll  Up/Down history"

theorem keeps_statics (vga : Nat → UInt16) (ports : PortIo) :
    Keeps View.statics (termStatics vga ports) where
  holds := {
    theme := rfl
    line := rfl
    total := rfl
    col := rfl
    col_lt := Nat.succ_pos _
    attr := rfl
    offset_nonneg := le_rfl
    offset_le := le_rfl
    cells := fun _ _ => holdsEnd_zero rfl }
  offset := rfl
  prompt := show ((Buffer.zero 32).write 0 (ascii "ronin> ")).str = _ by decide
  promptNul := show 0 ∈ ((Buffer.zero 32).write 0 (ascii "ronin> ")).bytes by decide
  input := rfl
  inputLen := rfl
  cursor := rfl
  status := rfl
  statusNoNul := by decide

/-- `terminal_init` shows an empty screen. -/
theorem draws_terminalInit (theme : Option Theme) (vga : Nat → UInt16) (ports : PortIo) :
    Draws vga (View.start (theme.getD themeRoninDark))
      (terminalInit theme (termStatics vga ports)) := by
  obtain ⟨t', heq, hvga, hkeeps⟩ := (keeps_statics vga ports).init theme
  rw [heq]
  refine hkeeps.draws (fun i _ => ?_) (show 0 + 1 < 2 ^ 31 by decide)
  rw [hvga]
  rfl

/-- The screen and the hardware cursor after any calls from `terminal_init` on: the
window of the output, the prompt with the input line, and the status. No cell behind
the screen is ever written. -/
theorem screen_shows_view (theme : Option Theme) (vga : Nat → UInt16) (ports : PortIo)
    (calls : List Call)
    (hline : ∀ n ≤ calls.length, ((calls.take n).foldl View.next
      (View.start (theme.getD themeRoninDark))).log.line + 1 < 2 ^ 31) :
    let view := calls.foldl View.next (View.start (theme.getD themeRoninDark))
    let t := calls.foldl callNext (terminalInit theme (termStatics vga ports))
    Shown view t ∧ ∀ i, termHeight * termWidth ≤ i → t.vga i = vga i := by
  have hrun := (draws_terminalInit theme vga ports).run hline
  exact ⟨hrun.shown, hrun.outside⟩

/-- An error message in the middle of a line, scrolling back, another theme and a
prompt that is cut. -/
theorem screen_shows_view_error :
    let calls : List Call := [.text (.write (some ⟨ascii "a\nb", by decide⟩) fun _ => 0),
      .writeError (some ⟨ascii "\x1b[32mc", by decide⟩) fun _ => 0, .text (.scroll 1 0),
      .applyTheme (some themeRoninAmber), .setPrompt (some ⟨List.replicate 40 62, by decide⟩),
      .setInputLine (some fun _ => 120) 200 300, .setStatus (some ⟨[], by decide⟩)]
    let view := calls.foldl View.next (View.start themeRoninDark)
    let t := calls.foldl callNext
      (terminalInit none (termStatics (fun _ => 0) (PortIo.start fun _ _ => 0)))
    Shown view t ∧ ∀ i, termHeight * termWidth ≤ i → t.vga i = 0 :=
  screen_shows_view none _ _ _ (by decide)

end RoninOS.Terminal
