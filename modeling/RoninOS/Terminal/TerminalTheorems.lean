/-
RoninOS.Terminal.TerminalTheorems — the terminal keeps the end of its log.

`Holds` is what every character keeps: the counters of the terminal are those of
the log, and in each column the ring holds the last 512 lines. What is drawn is
derived from it (`Holds.render`), since drawing changes no more than the screen.
-/
import RoninOS.Terminal.OutputLog
import RoninOS.Lib.RingLog

namespace RoninOS.Terminal

open RoninOS.Lib

/-- The terminal keeps the end of the log. -/
structure Holds (theme : Theme) (t : TermState) (log : OutputLog) : Prop where
  theme : t.theme = theme
  line : t.currentLine = log.line
  total : t.totalLines = log.line + 1
  col : t.currentCol = log.col
  col_lt : log.col < termWidth
  attr : t.currentAttr = log.attr
  offset_nonneg : 0 ≤ t.scrollOffset
  offset_le : t.scrollOffset ≤ min log.line (termScrollbackLines - 1)
  cells : ∀ col < termWidth, HoldsEnd termScrollbackLines (fun i => t.lines i col)
    (fun i => log.cells i col) log.line

/-! ## Cells -/

theorem setCell_lines (idx col : Nat) (cell : TermCell) (t : TermState) (i c : Nat) :
    (setCell idx col cell t).lines i c = if i = idx ∧ c = col then cell else t.lines i c := by
  unfold setCell
  by_cases hi : i = idx
  · subst hi
    by_cases hc : c = col <;> simp [hc]
  · simp [hi]

/-- What a store into the ring keeps, `clear_line` keeps. -/
theorem clearLine_frame {α : Type} (view : TermState → α) (absLine : Nat) (t : TermState)
    (hview : ∀ idx col cell s, view (setCell idx col cell s) = view s) :
    view (clearLine absLine t) = view t := by
  unfold clearLine
  exact forLoop_untouched view fun i _ s => hview _ _ _ s

section Frame

variable (absLine : Nat) (t : TermState)

@[simp] theorem clearLine_theme : (clearLine absLine t).theme = t.theme :=
  clearLine_frame TermState.theme absLine t fun _ _ _ _ => rfl

@[simp] theorem clearLine_currentLine : (clearLine absLine t).currentLine = t.currentLine :=
  clearLine_frame TermState.currentLine absLine t fun _ _ _ _ => rfl

@[simp] theorem clearLine_totalLines : (clearLine absLine t).totalLines = t.totalLines :=
  clearLine_frame TermState.totalLines absLine t fun _ _ _ _ => rfl

@[simp] theorem clearLine_currentCol : (clearLine absLine t).currentCol = t.currentCol :=
  clearLine_frame TermState.currentCol absLine t fun _ _ _ _ => rfl

@[simp] theorem clearLine_currentAttr : (clearLine absLine t).currentAttr = t.currentAttr :=
  clearLine_frame TermState.currentAttr absLine t fun _ _ _ _ => rfl

@[simp] theorem clearLine_scrollOffset : (clearLine absLine t).scrollOffset = t.scrollOffset :=
  clearLine_frame TermState.scrollOffset absLine t fun _ _ _ _ => rfl

end Frame

theorem clearLine_lines (absLine : Nat) (t : TermState) (i c : Nat) :
    (clearLine absLine t).lines i c =
      if i = absLine % termScrollbackLines ∧ c < termWidth then blankCell t.theme
      else t.lines i c := by
  unfold clearLine
  simp only
  by_cases hcell : i = absLine % termScrollbackLines ∧ c < termWidth
  · obtain ⟨rfl, hc⟩ := hcell
    rw [if_pos ⟨rfl, hc⟩]
    refine forLoop_touched (fun s : TermState => s.lines (absLine % termScrollbackLines) c) hc
      (fun s => ?_) fun j _ hj s => ?_
    · rw [setCell_lines, if_pos ⟨rfl, rfl⟩]
      rfl
    · rw [setCell_lines, if_neg fun h => hj h.2.symm]
  · rw [if_neg hcell]
    refine forLoop_untouched (fun s : TermState => s.lines i c) fun j hj s => ?_
    rw [setCell_lines, if_neg]
    rintro ⟨rfl, rfl⟩
    exact hcell ⟨rfl, hj⟩

section Cells

variable {theme : Theme} {t : TermState} {log : OutputLog}

theorem OutputLog.setCell_cells (log : OutputLog) (col : Nat) (cell : TermCell) (i c : Nat) :
    (log.setCell col cell).cells i c
      = if i = log.line ∧ c = col then cell else log.cells i c := by
  unfold OutputLog.setCell
  by_cases hi : i = log.line
  · subst hi
    by_cases hc : c = col <;> simp [hc]
  · simp [hi]

/-- Writing a cell of the current line. -/
theorem Holds.setCell (h : Holds theme t log) (col : Nat) (cell : TermCell) :
    Holds theme (setCell (t.currentLine % termScrollbackLines) col cell t)
      (log.setCell col cell) where
  theme := h.theme
  line := h.line
  total := h.total
  col := h.col
  col_lt := h.col_lt
  attr := h.attr
  offset_nonneg := h.offset_nonneg
  offset_le := h.offset_le
  cells c hc := by
    have hcells := h.cells c hc
    by_cases hcol : c = col
    · subst hcol
      refine (hcells.change cell).congr (fun i => ?_) fun i => ?_
      · rw [setCell_lines, h.line, Function.update_apply]
        simp only [and_true]
      · rw [OutputLog.setCell_cells, Function.update_apply]
        simp only [and_true]
    · refine hcells.congr (fun i => ?_) fun i => ?_
      · rw [setCell_lines, if_neg fun heq => hcol heq.2]
      · rw [OutputLog.setCell_cells, if_neg fun heq => hcol heq.2]

theorem OutputLog.blankLine_cells (theme : Theme) (line : Nat) (log : OutputLog) (c : Nat) :
    (fun i => (log.blankLine theme line).cells i c)
      = Function.update (fun i => log.cells i c) line (blankCell theme) := by
  funext i
  unfold OutputLog.blankLine
  by_cases hi : i = line
  · subst hi
    simp
  · simp [hi]

theorem clearLine_column (absLine : Nat) (t : TermState) {c : Nat} (hc : c < termWidth) :
    (fun i => (clearLine absLine t).lines i c) = Function.update (fun i => t.lines i c)
      (absLine % termScrollbackLines) (blankCell t.theme) := by
  funext i
  rw [clearLine_lines, Function.update_apply]
  simp only [hc, and_true]

/-- Blanking the current line. -/
theorem Holds.blankLine (h : Holds theme t log) :
    Holds theme (clearLine t.currentLine t) (log.blankLine theme log.line) where
  theme := by rw [clearLine_theme, h.theme]
  line := by rw [clearLine_currentLine, h.line]; rfl
  total := by rw [clearLine_totalLines, h.total]; rfl
  col := by rw [clearLine_currentCol, h.col]; rfl
  col_lt := h.col_lt
  attr := by rw [clearLine_currentAttr, h.attr]; rfl
  offset_nonneg := by rw [clearLine_scrollOffset]; exact h.offset_nonneg
  offset_le := by rw [clearLine_scrollOffset]; exact h.offset_le
  cells c hc := by
    rw [clearLine_column _ _ hc, OutputLog.blankLine_cells, h.line, h.theme]
    exact (h.cells c hc).change (blankCell theme)

/-- `linefeed` starts a new line. -/
theorem Holds.linefeed (h : Holds theme t log) (hline : log.line + 2 < 2 ^ 32) :
    Holds theme (linefeed t) (log.newline theme) := by
  have hnext : add32 t.currentLine 1 = log.line + 1 := by
    rw [h.line, add32_of_lt (by omega)]
  have hafter : add32 (log.line + 1) 1 = log.line + 1 + 1 := add32_of_lt (by omega)
  unfold Terminal.linefeed
  simp only [hnext, hafter]
  exact {
    theme := by rw [clearLine_theme]; exact h.theme
    line := by rw [clearLine_currentLine]; rfl
    total := by rw [clearLine_totalLines]; rfl
    col := by rw [clearLine_currentCol]; rfl
    col_lt := Nat.succ_pos _
    attr := by rw [clearLine_currentAttr]; exact h.attr
    offset_nonneg := le_rfl
    offset_le := Int.natCast_nonneg _
    cells := fun c hc => by
      rw [clearLine_column _ _ hc]
      simp only [OutputLog.newline, OutputLog.blankLine_cells, h.theme]
      exact (h.cells c hc).add (blankCell theme) }

/-! ## Characters -/

/-- Moving within the line. -/
theorem Holds.withCol (h : Holds theme t log) {col : Nat} (hcol : col < termWidth) :
    Holds theme { t with currentCol := col } { log with col := col } :=
  { h with col := rfl, col_lt := hcol }

/-- Changing the colours. -/
theorem Holds.withAttr (h : Holds theme t log) (attr : UInt8) :
    Holds theme { t with currentAttr := attr } { log with attr := attr } :=
  { h with attr := rfl }

theorem Holds.ensureInitialized (h : Holds theme t log) :
    Holds theme (ensureCurrentLineInitialized t)
      (if log.col = 0 then log.blankLine theme log.line else log) := by
  unfold ensureCurrentLineInitialized
  rw [h.col]
  split
  · exact h.blankLine
  · exact h

/-- Writing a printable character. -/
theorem Holds.print (h : Holds theme t log) (hline : log.line + 2 < 2 ^ 32) {c : UInt8}
    (hc : 32 ≤ c ∧ c ≤ 126) : Holds theme (putOutputChar c t) (log.print theme c) := by
  have hctrl : ∀ d : UInt8, d < 32 → c ≠ d := by
    rintro d hd rfl
    exact absurd hc.1 (UInt8.not_le.mpr hd)
  have hprintable : ¬ (c < 32 ∨ c > 126) := by
    rintro (hlow | hhigh)
    · exact absurd hc.1 (UInt8.not_le.mpr hlow)
    · exact absurd hc.2 (UInt8.not_le.mpr hhigh)
  have hready := h.ensureInitialized
  simp only [putOutputChar, if_neg (hctrl 10 (by decide)), if_neg (hctrl 13 (by decide)),
    if_neg (hctrl 8 (by decide)), if_neg hprintable, OutputLog.print]
  generalize ensureCurrentLineInitialized t = t' at hready ⊢
  have hcol : (if log.col = 0 then log.blankLine theme log.line else log).col = log.col := by
    split <;> rfl
  have hattr : (if log.col = 0 then log.blankLine theme log.line else log).attr = log.attr := by
    split <;> rfl
  have hlast : (if log.col = 0 then log.blankLine theme log.line else log).line = log.line := by
    split <;> rfl
  generalize (if log.col = 0 then log.blankLine theme log.line else log) = blanked at *
  have hwritten := hready.setCell log.col ⟨c, log.attr⟩
  rw [hready.col, hready.attr, hcol, hattr]
  have hlt := h.col_lt
  have hwline : (blanked.setCell log.col ⟨c, log.attr⟩).line = log.line := hlast
  have hwcol := hwritten.col.trans hcol
  generalize Terminal.setCell (t'.currentLine % termScrollbackLines) log.col ⟨c, log.attr⟩ t'
    = written at hwritten hwcol ⊢
  rw [hwcol]
  by_cases hend : log.col + 1 = termWidth
  · -- the column after the last one is never used: the line ends
    rw [if_pos hend.ge, if_pos hend]
    exact hwritten.linefeed (hwline ▸ hline)
  · have hnext : log.col + 1 < termWidth := by omega
    rw [if_neg (by omega), if_neg hend]
    exact hwritten.withCol hnext

theorem Holds.backspace (h : Holds theme t log) :
    Holds theme (if t.currentCol > 0 then
        Terminal.setCell (t.currentLine % termScrollbackLines) (t.currentCol - 1)
          ⟨32, t.currentAttr⟩ { t with currentCol := t.currentCol - 1 }
      else t) log.backspace := by
  unfold OutputLog.backspace
  have hlt := h.col_lt
  rw [← h.col] at hlt ⊢
  rw [← h.attr]
  by_cases hzero : t.currentCol = 0
  · rw [if_neg (by omega), if_pos hzero]
    exact h
  · have hcol : t.currentCol - 1 < termWidth := by omega
    rw [if_pos (Nat.pos_of_ne_zero hzero), if_neg hzero]
    exact (h.setCell (t.currentCol - 1) ⟨32, t.currentAttr⟩).withCol hcol

/-- Writing any character. -/
theorem Holds.char (h : Holds theme t log) (hline : log.line + 2 < 2 ^ 32) (c : UInt8) :
    Holds theme (putOutputChar c t) (log.char theme c) := by
  unfold OutputLog.char
  by_cases hnewline : c = 10
  · rw [putOutputChar, if_pos hnewline, if_pos hnewline]
    exact h.linefeed hline
  · by_cases hreturn : c = 13
    · rw [putOutputChar, if_neg hnewline, if_pos hreturn, if_neg hnewline, if_pos hreturn]
      exact h.withCol (by decide)
    · by_cases hback : c = 8
      · rw [putOutputChar, if_neg hnewline, if_neg hreturn, if_pos hback, if_neg hnewline,
          if_neg hreturn, if_pos hback]
        exact h.backspace
      · rw [if_neg hnewline, if_neg hreturn, if_neg hback]
        by_cases hc : 32 ≤ c ∧ c ≤ 126
        · rw [if_pos hc]
          exact h.print hline hc
        · have hignored : c < 32 ∨ c > 126 := by
            rwa [not_and_or, UInt8.not_le, UInt8.not_le] at hc
          rw [putOutputChar, if_neg hnewline, if_neg hreturn, if_neg hback, if_pos hignored,
            if_neg hc]
          exact h

end Cells

/-! ## Strings -/

section Strings

variable {theme : Theme} {t : TermState} {log : OutputLog} {s : Mem} {i : Nat} {rest : List UInt8}

/-- `parse_ansi_code` finds the colour code that the string starts with. -/
theorem parseAnsiCode_eq (h : HoldsAt s i rest) (t : TermState) : parseAnsiCode s i t =
    ((colourCodes t.theme).find? fun code => code.1.isPrefixOf rest).map fun code =>
      (code.1.length, { t with currentAttr := code.2 }) := by
  have hreset := h.isPrefixOf_iff (show 0 ∉ ascii "\x1b[0m" by decide)
  have hred := h.isPrefixOf_iff (show 0 ∉ ascii "\x1b[31m" by decide)
  have hgreen := h.isPrefixOf_iff (show 0 ∉ ascii "\x1b[32m" by decide)
  simp only [colourCodes, List.find?_cons, List.find?_nil]
  generalize (ascii "\x1b[0m").isPrefixOf rest = reset at *
  generalize (ascii "\x1b[31m").isPrefixOf rest = red at *
  generalize (ascii "\x1b[32m").isPrefixOf rest = green at *
  simp only [show ascii "\x1b[0m" = [27, 91, 48, 109] from rfl,
    show ascii "\x1b[31m" = [27, 91, 51, 49, 109] from rfl,
    show ascii "\x1b[32m" = [27, 91, 51, 50, 109] from rfl, List.length_cons, List.length_nil,
    bytesAt_succ, List.cons.injEq, Nat.add_assoc, Nat.reduceAdd, show ∀ p, bytesAt s p 0 = [] from
    fun _ => rfl, and_true] at *
  unfold parseAnsiCode
  by_cases hesc : s i = 27 ∧ s (i + 1) = 91
  · obtain ⟨hone, htwo⟩ := hesc
    simp only [hone, htwo, true_and, ne_eq, not_true_eq_false, or_self, if_false] at *
    by_cases hzero : s (i + 2) = 48 ∧ s (i + 3) = 109
    · rw [if_pos hzero, hreset.mpr hzero]
      rfl
    · rw [if_neg hzero, Bool.eq_false_iff.mpr (mt hreset.mp hzero)]
      by_cases hthree : s (i + 2) = 51 ∧ s (i + 4) = 109
      · simp only [hthree, true_and, and_true, and_self, if_true] at *
        cases red <;> cases green <;> simp_all
      · have hnored : ¬ red = true := fun hr => hthree ⟨(hred.mp hr).1, (hred.mp hr).2.2⟩
        have hnogreen : ¬ green = true := fun hg => hthree ⟨(hgreen.mp hg).1, (hgreen.mp hg).2.2⟩
        rw [if_neg hthree, Bool.eq_false_iff.mpr hnored, Bool.eq_false_iff.mpr hnogreen]
        rfl
  · have hnone : reset = false ∧ red = false ∧ green = false :=
      ⟨Bool.eq_false_iff.mpr fun hr => hesc ⟨(hreset.mp hr).1, (hreset.mp hr).2.1⟩,
        Bool.eq_false_iff.mpr fun hr => hesc ⟨(hred.mp hr).1, (hred.mp hr).2.1⟩,
        Bool.eq_false_iff.mpr fun hr => hesc ⟨(hgreen.mp hr).1, (hgreen.mp hr).2.1⟩⟩
    rw [if_pos (not_and_or.mp hesc), hnone.1, hnone.2.1, hnone.2.2]
    rfl

theorem tokensFrom_skip (theme : Theme) : ∀ (skip : Nat) (s : List UInt8),
    tokensFrom theme skip s = tokensFrom theme 0 (s.drop skip)
  | 0, _ => by rw [List.drop_zero]
  | skip + 1, [] => by rw [List.drop_nil, tokensFrom, tokensFrom]
  | skip + 1, c :: s => by rw [tokensFrom, List.drop_succ_cons, tokensFrom_skip theme skip s]

/-- No character goes back to a line before. -/
theorem OutputLog.line_le_char (theme : Theme) (c : UInt8) (log : OutputLog) :
    log.line ≤ (log.char theme c).line := by
  unfold OutputLog.char
  split_ifs
  · exact Nat.le_succ _
  · exact le_rfl
  · unfold OutputLog.backspace
    split <;> exact le_rfl
  · unfold OutputLog.print
    dsimp only [OutputLog.newline, OutputLog.blankLine, OutputLog.setCell]
    split_ifs
    · exact Nat.le_succ _
    · exact Nat.le_succ _
    · exact le_rfl
    · exact le_rfl
  · exact le_rfl

theorem OutputLog.line_le_feed (theme : Theme) (log : OutputLog) (token : Token) :
    log.line ≤ (log.feed theme token).line := by
  cases token with
  | char c => exact log.line_le_char theme c
  | colour attr => exact le_rfl

theorem OutputLog.line_le_foldl (theme : Theme) (tokens : List Token) (log : OutputLog) :
    log.line ≤ (tokens.foldl (OutputLog.feed theme) log).line := by
  induction tokens generalizing log with
  | nil => exact le_rfl
  | cons token tokens ih => exact (log.line_le_feed theme token).trans (ih _)

theorem OutputLog.line_le_next (theme : Theme) (log : OutputLog) (op : TermCall) :
    log.line ≤ (log.next theme op).line := by
  cases op with
  | write s behind =>
      cases s with
      | none => exact le_rfl
      | some s => exact log.line_le_foldl theme _
  | putc c => exact log.line_le_char theme c
  | scroll delta undef => exact le_rfl

theorem OutputLog.line_le_run (theme : Theme) (ops : List TermCall) (log : OutputLog) :
    log.line ≤ (ops.foldl (OutputLog.next theme) log).line := by
  induction ops generalizing log with
  | nil => exact le_rfl
  | cons op ops ih => exact (log.line_le_next theme op).trans (ih _)

/-- A colour code of the table is not empty. -/
theorem length_pos_of_find {theme : Theme} {p : List UInt8 × UInt8 → Bool}
    {code : List UInt8 × UInt8} (h : (colourCodes theme).find? p = some code) :
    0 < code.1.length := by
  have hmem := List.mem_of_find?_eq_some h
  simp only [colourCodes, List.mem_cons, List.not_mem_nil, or_false] at hmem
  rcases hmem with rfl | rfl | rfl <;> exact Nat.succ_pos _

/-- `terminal_write` takes the tokens of its string one after another. -/
theorem Holds.writeLoop {rounds : Nat} (h : Holds theme t log) (hs : HoldsAt s i rest)
    (hrounds : rest.length < rounds)
    (hline : ((tokensFrom theme 0 rest).foldl (OutputLog.feed theme) log).line + 1 < 2 ^ 31) :
    Holds theme (writeLoop s rounds i t)
      ((tokensFrom theme 0 rest).foldl (OutputLog.feed theme) log) := by
  induction rounds generalizing t log i rest with
  | zero => exact absurd hrounds (Nat.not_lt_zero _)
  | succ rounds ih =>
      unfold Terminal.writeLoop
      cases rest with
      | nil =>
          rw [if_pos (show s i = 0 from hs.nul)]
          exact h
      | cons c rest =>
          rw [if_neg (hs.ne_zero (List.cons_ne_nil _ _)), parseAnsiCode_eq hs,
            show colourCodes t.theme = colourCodes theme by rw [h.theme]]
          rw [tokensFrom] at hline ⊢
          cases hfind : (colourCodes theme).find? fun code => code.1.isPrefixOf (c :: rest) with
          | some code =>
              have hpos := length_pos_of_find hfind
              have hstarts := (List.find?_eq_some_iff_append.mp hfind).1
              obtain ⟨behind, hbehind⟩ := List.isPrefixOf_iff_prefix.mp hstarts
              have hlength := congrArg List.length hbehind
              rw [List.length_append, List.length_cons] at hlength
              rw [List.length_cons] at hrounds
              have hdrop : rest.drop (code.1.length - 1) = behind := by
                have hcons : (c :: rest).drop code.1.length = behind := by
                  rw [← hbehind]
                  exact List.drop_left
                rwa [← Nat.succ_pred_eq_of_pos hpos, List.drop_succ_cons] at hcons
              simp only [hfind, tokensFrom_skip theme (code.1.length - 1), hdrop,
                List.foldl_cons] at hline ⊢
              exact ih (h.withAttr code.2) (HoldsAt.of_append (hbehind ▸ hs)) (by omega) hline
          | none =>
              rw [List.length_cons] at hrounds
              simp only [hfind, List.foldl_cons] at hline ⊢
              have hfirst := log.line_le_char theme c
              have hlast := OutputLog.line_le_foldl theme (tokensFrom theme 0 rest)
                (log.feed theme (.char c))
              have hroom : log.line + 2 < 2 ^ 32 := by
                have hle := hfirst.trans hlast
                omega
              rw [hs.head]
              exact ih (h.char hroom c) hs.tail (by omega) hline

end Strings

end RoninOS.Terminal
