/-
RoninOS.Shell.ShellHistory — the history of `kernel/shell/shell.c` over all runs.

`shellRun_refines` has the terminal's keys as commands of an editor. The
framebuffer console takes fewer keys and always works at the end of the line
(`AtEnd`), so that its keys are commands of the same editor. In both, the rows of
`g_history` are the lines that the editor keeps, and the arrows walk along them.
-/
import RoninOS.Shell.ShellTheorems
import RoninOS.Lib.LineHistory

namespace RoninOS.Shell

open RoninOS.Lib RoninOS.Input

/-! ## What the statics hold -/

/-- `g_history[0..g_hist_count)`, as strings. -/
def historyLines (g : ShellState) : List (List UInt8) :=
  (List.range g.histCount).map fun i => strAt (g.history i) shellLineMax

/-- `g_line[0..g_len)`. -/
def inputLine (g : ShellState) : List UInt8 := bytesAt g.line 0 g.len

theorem HistoryHolds.historyLines_eq {g : ShellState} {lines : List (List UInt8)}
    (h : HistoryHolds g lines) (hmax : ∀ xs ∈ lines, xs.length ≤ shellLineMax - 1) :
    historyLines g = lines := by
  refine List.ext_getElem (by simp [historyLines, h.count]) fun i h1 h2 => ?_
  have hlen := hmax _ (List.getElem_mem h2)
  simp only [historyLines, List.getElem_map, List.getElem_range]
  exact (h.rows i h2).strAt_eq (hlen.trans (Nat.sub_le _ _))

theorem LineHolds.inputLine_eq {g : ShellState} {c : TextCursor UInt8} (h : LineHolds g c) :
    inputLine g = c.text := by
  rw [inputLine, h.len]
  exact h.text.bytesAt_eq

/-! ## The framebuffer console -/

/-- What a key of the framebuffer console asks of the editor. -/
def simpleCommandOf (ev : KeyEvent) : EditCommand UInt8 :=
  match ev.code with
  | .char => .insert ev.ch
  | .backspace => .backspace
  | .enter => .submit
  | _ => .idle

/-- The statics of its shell show an editor with the cursor at the end. -/
structure AtEnd (g : ShellState) (e : Editor UInt8) : Prop where
  framebuffer : g.simpleMode = true
  line : LineHolds g e.line
  history : HistoryHolds g e.history
  index : g.histIndex = histIndexOf e.index
  cursor : e.line.cursor = e.line.text.length

theorem atEnd_shellInit : AtEnd (shellInit true shellStatics) Editor.empty where
  framebuffer := rfl
  line := ⟨holdsStr_nil rfl, rfl, rfl⟩
  history := ⟨rfl, fun i h => absurd h (Nat.not_lt_zero i)⟩
  index := rfl
  cursor := rfl

section Simple

variable {g : ShellState} {e : Editor UInt8}

theorem AtEnd.cursor_eq (h : AtEnd g e) : g.cursor = g.len := by
  rw [h.line.cursor, h.line.len, h.cursor]

/-- At the end of the line there is no gap to open. -/
theorem openGap_end (line : Mem) (n : Nat) : openGap n n line = line := by
  cases n with
  | zero => rfl
  | succ n => rw [openGap, if_neg (by omega)]

theorem AtEnd.insert (h : AtEnd g e) {ch : UInt8} (hch : ch ≠ 0) :
    AtEnd { g with
      line := Function.update (Function.update g.line g.cursor ch) (g.cursor + 1) 0
      cursor := g.cursor + 1
      len := g.cursor + 1 } { e with line := e.line.insert ch } := by
  have hline := h.line.insert hch
  rw [h.cursor_eq, openGap_end] at hline
  rw [h.cursor_eq]
  refine ⟨h.framebuffer, hline, ⟨h.history.count, h.history.rows⟩, h.index, ?_⟩
  rw [TextCursor.length_insert, ← h.cursor]
  rfl

theorem AtEnd.backspace (h : AtEnd g e) (hpos : 0 < g.cursor) (hmax : e.line.text.length < 2 ^ 32) :
    AtEnd { g with
      line := Function.update g.line (g.len - 1) 0
      len := g.len - 1
      cursor := g.cursor - 1 } { e with line := e.line.backspace } := by
  have hlen := h.line.len
  have hcursor := h.cursor_eq
  have hsub : sub32 g.len 1 = g.len - 1 := sub32_of_le (by omega) (by omega)
  have hline := h.line.backspace hpos hmax
  simp only [removeAt, hcursor, hsub, Nat.sub_self, closeGap] at hline
  rw [hcursor]
  refine ⟨h.framebuffer, hline, ⟨h.history.count, h.history.rows⟩, h.index, ?_⟩
  have hend := h.cursor
  rw [TextCursor.backspace, dif_neg (by rw [← h.line.cursor]; omega)]
  simp only [hend]
  rw [List.length_eraseIdx_of_lt (by omega)]

/-- One key of the framebuffer console is one command. -/
theorem shellHandleKey_atEnd (h : AtEnd g e) (hw : Editor.Within shellLimits e) {ev : KeyEvent}
    (hch : ev.code = .char → ev.ch ≠ 0) :
    AtEnd (shellHandleKey ev g).1 (Editor.step shellLimits e (simpleCommandOf ev)).1 ∧
      (shellHandleKey ev g).2 = (Editor.step shellLimits e (simpleCommandOf ev)).2 := by
  have hlen := h.line.len
  have hcursor := h.cursor_eq
  have hmax : e.line.text.length ≤ 127 := hw.text
  rw [shellHandleKey, if_pos h.framebuffer, handleSimple, simpleCommandOf]
  cases hcode : ev.code with
  | char =>
      simp only [Editor.step, ← hlen]
      by_cases hroom : g.len < shellLineMax - 1
      · have hroom' : g.len < shellLimits.capacity := hroom
        rw [if_pos ⟨hroom, hcursor⟩, if_pos hroom']
        exact ⟨h.insert (hch hcode), rfl⟩
      · have hroom' : ¬ g.len < shellLimits.capacity := hroom
        rw [if_neg fun hand => hroom hand.1, if_neg hroom']
        exact ⟨h, rfl⟩
  | backspace =>
      simp only [Editor.step]
      by_cases hpos : 0 < g.cursor
      · rw [if_pos ⟨hpos, hcursor⟩]
        exact ⟨h.backspace hpos (by omega), rfl⟩
      · rw [if_neg fun hand => hpos hand.1, TextCursor.backspace,
          dif_pos (by rw [← h.line.cursor]; omega)]
        exact ⟨h, rfl⟩
  | enter =>
      obtain ⟨hline, hhist, hmode, hout⟩ := submitLine_holds h.line h.history hw
      exact ⟨⟨hmode.trans h.framebuffer, hline, hhist, rfl, rfl⟩, hout⟩
  | _ => exact ⟨h, rfl⟩

theorem shellRun_atEnd {evs : List KeyEvent} (h : AtEnd g e) (hw : Editor.Within shellLimits e)
    (hch : ∀ ev ∈ evs, ev.code = .char → ev.ch ≠ 0) :
    AtEnd (shellRun evs g).1 (Editor.run shellLimits (evs.map simpleCommandOf) e).1 ∧
      (shellRun evs g).2 = (Editor.run shellLimits (evs.map simpleCommandOf) e).2 ∧
      Editor.Within shellLimits (Editor.run shellLimits (evs.map simpleCommandOf) e).1 :=
  shellRun_of_step shellHandleKey_atEnd h hw hch

end Simple

/-! ## Runs -/

/-- The history of the shell after submitted lines: of those that are neither empty nor the
same as the line kept before, the last 32. -/
def keptLines (submitted : List (List UInt8)) : List (List UInt8) :=
  (Editor.kept submitted).rtake shellHistoryMax

/-- What both consoles have in common with an editor after a run. -/
structure Remembers (g : ShellState) (submitted : List (List UInt8)) : Prop where
  lines : historyLines g = keptLines submitted
  index_ge : -1 ≤ g.histIndex
  index_lt : g.histIndex < g.histCount

theorem histIndexOf_range {e : Editor UInt8} {g : ShellState} (hhist : HistoryHolds g e.history)
    (hindex : g.histIndex = histIndexOf e.index) :
    -1 ≤ g.histIndex ∧ g.histIndex < g.histCount := by
  rw [hindex, hhist.count]
  cases hi : e.index with
  | none =>
      rw [histIndexOf]
      omega
  | some i =>
      have hlt := e.index_lt i hi
      rw [histIndexOf]
      omega

theorem remembers_of_run {g : ShellState} {cs : List (EditCommand UInt8)}
    (hhist : HistoryHolds g (Editor.run shellLimits cs .empty).1.history)
    (hindex : g.histIndex = histIndexOf (Editor.run shellLimits cs .empty).1.index)
    (hw : Editor.Within shellLimits (Editor.run shellLimits cs .empty).1) :
    Remembers g (Editor.run shellLimits cs .empty).2 := by
  obtain ⟨hge, hlt⟩ := histIndexOf_range hhist hindex
  refine ⟨?_, hge, hlt⟩
  rw [hhist.historyLines_eq hw.lines]
  exact Editor.history_run (by decide) cs .empty [] rfl

/-- The arrow keys, without Shift. -/
def Presses (code : KeyCode) (evs : List KeyEvent) : Prop :=
  ∀ ev ∈ evs, ev.code = code ∧ ev.modifiers &&& keymodShift = 0

theorem map_commandOf_up {evs : List KeyEvent} (h : Presses .up evs) :
    evs.map commandOf = List.replicate evs.length .older := by
  refine List.eq_replicate_iff.mpr ⟨List.length_map .., fun c hc => ?_⟩
  obtain ⟨ev, hev, rfl⟩ := List.mem_map.mp hc
  obtain ⟨hcode, hshift⟩ := h ev hev
  simp [commandOf, scrolls, hcode, hshift]

theorem map_commandOf_down {evs : List KeyEvent} (h : Presses .down evs) :
    evs.map commandOf = List.replicate evs.length .newer := by
  refine List.eq_replicate_iff.mpr ⟨List.length_map .., fun c hc => ?_⟩
  obtain ⟨ev, hev, rfl⟩ := List.mem_map.mp hc
  obtain ⟨hcode, hshift⟩ := h ev hev
  simp [commandOf, scrolls, hcode, hshift]

/-- Up `j` times and then down: the lines of the history from the `j`-th last one on, and
then an empty line. -/
def WalksHistory (g : ShellState) (ups downs : List KeyEvent) : Prop :=
  let g' := (shellRun (ups ++ downs) g).1
  let j := min ups.length g.histCount
  (downs.length < j →
    (historyLines g)[g.histCount - j + downs.length]? = some (inputLine g')) ∧
  (0 < j → j ≤ downs.length → inputLine g' = [] ∧ g'.histIndex = -1)

/-- The arrows, from a line that is not of the history. -/
theorem walksHistory {g : ShellState} {e : Editor UInt8} (h : Shows g e)
    (hw : Editor.Within shellLimits e) (hindex : g.histIndex = -1) {ups downs : List KeyEvent}
    (hups : Presses .up ups) (hdowns : Presses .down downs) : WalksHistory g ups downs := by
  have hnone : e.index = none := by
    have heq := h.index.symm.trans hindex
    cases hi : e.index with
    | none => rfl
    | some i =>
        rw [hi, histIndexOf] at heq
        omega
  have hno : ∀ ev ∈ ups ++ downs, ev.code = .char → ev.ch ≠ 0 := by
    intro ev hev hcode
    rcases List.mem_append.mp hev with hev | hev
    · rw [(hups ev hev).1] at hcode
      cases hcode
    · rw [(hdowns ev hev).1] at hcode
      cases hcode
  obtain ⟨hshows, -, hw'⟩ := shellRun_shows h hw hno
  rw [List.map_append, map_commandOf_up hups, map_commandOf_down hdowns, Editor.run_older,
    ← List.append_nil (List.replicate _ _), Editor.run_newer] at hshows
  have hcount := h.history.count
  have hlines := h.history.historyLines_eq hw.lines
  unfold WalksHistory
  intro g' j
  by_cases hj : 0 < j
  · have hups' : 0 < ups.length := by omega
    have hpos : 0 < e.history.length := by omega
    have hmin : min ups.length e.history.length = j := by rw [← hcount]
    simp only [Editor.older_iterate hnone hups' hpos, hmin] at hshows
    rw [Editor.newer_iterate] at hshows
    refine ⟨fun hlt => ?_, fun _ hle => ?_⟩
    · rw [dif_pos (by omega)] at hshows
      rw [hlines, hcount, List.getElem?_eq_getElem (by omega)]
      exact congrArg some hshows.line.inputLine_eq.symm
    · rw [dif_neg (by omega)] at hshows
      exact ⟨hshows.line.inputLine_eq, hshows.index⟩
  · exact ⟨fun hlt => absurd (Nat.zero_lt_of_lt hlt) hj, fun hpos => absurd hpos hj⟩

/-- After any keys, in both consoles: the history is made of the last 32 lines kept of those
submitted, the index is one of it or -1, and in the terminal the arrows walk along it. -/
theorem shell_history (framebuffer : Bool) (evs : List KeyEvent)
    (hch : ∀ ev ∈ evs, ev.code = .char → 32 ≤ ev.ch ∧ ev.ch ≤ 126) :
    let r := shellRun evs (shellInit framebuffer shellStatics)
    Remembers r.1 r.2 ∧
    (framebuffer = false → r.1.histIndex = -1 → ∀ ups downs, Presses .up ups →
      Presses .down downs → WalksHistory r.1 ups downs) := by
  intro r
  have hne := ch_ne_zero hch
  cases framebuffer with
  | false =>
      obtain ⟨hshows, hout, hw⟩ :=
        shellRun_shows shows_shellInit (Editor.within_empty shellLimits) hne
      refine ⟨?_, fun _ hindex ups downs hups hdowns => walksHistory hshows hw hindex hups hdowns⟩
      have hremembers := remembers_of_run hshows.history hshows.index hw
      rwa [← hout] at hremembers
  | true =>
      obtain ⟨hshows, hout, hw⟩ :=
        shellRun_atEnd atEnd_shellInit (Editor.within_empty shellLimits) hne
      refine ⟨?_, fun hterm => absurd hterm (by decide)⟩
      have hremembers := remembers_of_run hshows.history hshows.index hw
      rwa [← hout] at hremembers

/-- `ls`, an empty line, `ls` again and `w`. -/
def repeatedKeys : List KeyEvent :=
  [⟨.char, 108, 0⟩, ⟨.char, 115, 0⟩, ⟨.enter, 0, 0⟩, ⟨.enter, 0, 0⟩,
    ⟨.char, 108, 0⟩, ⟨.char, 115, 0⟩, ⟨.enter, 0, 0⟩, ⟨.char, 119, 0⟩, ⟨.enter, 0, 0⟩]

theorem shell_history_repeatedKeys :
    Remembers (shellRun repeatedKeys (shellInit false shellStatics)).1
      (shellRun repeatedKeys (shellInit false shellStatics)).2 ∧
    keptLines [ascii "ls", [], ascii "ls", ascii "w"] = [ascii "ls", ascii "w"] :=
  ⟨(shell_history false repeatedKeys (by decide)).1, by decide⟩

end RoninOS.Shell
