/-
RoninOS.Shell.ShellTheorems — the line editor of the shell is the abstract one.

`Shows g e` ties the statics to an `Editor`: the line and the rows of the history
hold its strings, and the counters are their lengths and places. Each loop of
`shell.c` has one lemma about bytes; `shellHandleKey_shows` is the step, and
`shellRun_refines` the run from `shell_init` on.
-/
import RoninOS.Shell.Shell
import RoninOS.Lib.LineEditor
import RoninOS.Lib.CString
import Mathlib.Data.List.InsertIdx

namespace RoninOS.Shell

open RoninOS.Lib RoninOS.Input

/-! ## The loops -/

/-- `openGap` moves the bytes from the cursor to `i` up by one. -/
theorem openGap_apply (cursor : Nat) : ∀ (i : Nat) (line : Mem) (x : Nat),
    openGap cursor i line x = if cursor < x ∧ x ≤ i then line (x - 1) else line x := by
  intro i
  induction i with
  | zero =>
      intro line x
      rw [openGap, if_neg (by omega)]
  | succ i ih =>
      intro line x
      rw [openGap]
      split
      · rw [ih]
        by_cases hx : x = i + 1
        · rw [if_neg (by omega), if_pos (by omega), hx, Function.update_self, Nat.add_sub_cancel]
        · by_cases hin : cursor < x ∧ x ≤ i
          · rw [if_pos hin, if_pos (by omega), Function.update_of_ne (by omega)]
          · rw [if_neg hin, if_neg (by omega), Function.update_of_ne hx]
      · rw [if_neg (by omega)]

/-- `closeGap` moves the bytes behind `i` down by one. -/
theorem closeGap_apply : ∀ (rounds i : Nat) (line : Mem) (x : Nat),
    closeGap rounds i line x = if i ≤ x ∧ x < i + rounds then line (x + 1) else line x := by
  intro rounds
  induction rounds with
  | zero =>
      intro i line x
      rw [closeGap, if_neg (by omega)]
  | succ rounds ih =>
      intro i line x
      rw [closeGap, ih]
      by_cases hx : x = i
      · rw [if_neg (by omega), if_pos (by omega), hx, Function.update_self]
      · by_cases hin : i + 1 ≤ x ∧ x < i + 1 + rounds
        · rw [if_pos hin, if_pos (by omega), Function.update_of_ne (by omega)]
        · rw [if_neg hin, if_neg (by omega), Function.update_of_ne hx]

/-- Skipping backwards over the characters of a kind. -/
theorem skipBack_eq {p : UInt8 → Bool} {line : Mem} {text : List UInt8}
    (hline : ∀ i (h : i < text.length), line i = text[i]) : ∀ {cursor : Nat},
    cursor ≤ text.length → skipBack p line cursor = ((text.take cursor).rdropWhile p).length := by
  intro cursor
  induction cursor with
  | zero => intro _; simp [skipBack]
  | succ cursor ih =>
      intro hle
      have htake : text.take (cursor + 1) = text.take cursor ++ [text[cursor]] :=
        (List.take_append_getElem hle).symm
      rw [skipBack, htake, List.rdropWhile_concat, hline cursor hle]
      split
      · exact ih (by omega)
      · simp
        omega

/-- Skipping forwards over them. -/
theorem skipAhead_eq {p : UInt8 → Bool} {line : Mem} {text : List UInt8}
    (hline : ∀ i (h : i < text.length), line i = text[i]) : ∀ {rounds cursor : Nat},
    cursor + rounds = text.length →
    skipAhead p line rounds cursor = text.length - ((text.drop cursor).dropWhile p).length := by
  intro rounds
  induction rounds with
  | zero =>
      intro cursor hlen
      rw [skipAhead, List.drop_of_length_le (by omega)]
      simp
      omega
  | succ rounds ih =>
      intro cursor hlen
      have hlt : cursor < text.length := by omega
      have hdrop : text.drop cursor = text[cursor] :: text.drop (cursor + 1) :=
        List.drop_eq_getElem_cons hlt
      rw [skipAhead, hdrop, List.dropWhile_cons, hline cursor hlt]
      split
      · exact ih (by omega)
      · simp
        omega

/-- `history_load` copies the string of its row. -/
theorem loadBytes_eq {row : Mem} {xs : List UInt8} (hrow : HoldsStr row xs) :
    ∀ {rounds i : Nat} {line : Mem}, i ≤ xs.length → xs.length ≤ i + rounds →
    (loadBytes row rounds i line).2 = xs.length ∧
      ∀ x, (loadBytes row rounds i line).1 x = if i ≤ x ∧ x < xs.length then row x else line x := by
  intro rounds
  induction rounds with
  | zero =>
      intro i line h1 h2
      refine ⟨?_, fun x => ?_⟩
      · rw [loadBytes]
        omega
      · rw [loadBytes, if_neg (by omega)]
  | succ rounds ih =>
      intro i line h1 h2
      rw [loadBytes]
      by_cases hend : i = xs.length
      · rw [if_pos (by rw [hend]; exact hrow.terminator)]
        exact ⟨hend, fun x => by rw [if_neg (by omega)]⟩
      · have hlt : i < xs.length := by omega
        have hne : row i ≠ 0 := by
          rw [hrow.byte i hlt]
          exact fun h0 => hrow.noNul (h0 ▸ List.getElem_mem hlt)
        rw [if_neg hne]
        obtain ⟨hlen, hbytes⟩ := @ih (i + 1) (Function.update line i (row i)) (by omega) (by omega)
        refine ⟨hlen, fun x => ?_⟩
        rw [hbytes]
        by_cases hx : x = i
        · rw [if_neg (by omega), if_pos (by omega), hx, Function.update_self]
        · by_cases hin : i + 1 ≤ x ∧ x < xs.length
          · rw [if_pos hin, if_pos (by omega)]
          · rw [if_neg hin, if_neg (by omega), Function.update_of_ne hx]

/-- The bytes of a copied row. -/
theorem copyRow_apply (dst src : Mem) {n x : Nat} (hx : x < n) :
    stBytes dst 0 (bytesAt src 0 n) x = src x := by
  simp [stBytes, bytesAt, hx]

/-- The rows move down by one. -/
theorem shiftRows_apply : ∀ {rounds i : Nat} {history : Nat → Mem}, 1 ≤ i →
    (∀ j, i ≤ j + 1 → j + 1 < i + rounds → ∀ x < shellLineMax,
      shiftRows rounds i history j x = history (j + 1) x) ∧
    ∀ j, ¬ (i ≤ j + 1 ∧ j + 1 < i + rounds) → shiftRows rounds i history j = history j := by
  intro rounds
  induction rounds with
  | zero => exact fun _ => ⟨fun j h1 h2 => by omega, fun j _ => rfl⟩
  | succ rounds ih =>
      intro i history hi
      obtain ⟨hmoved, hkept⟩ := @ih (i + 1) (Function.update history (i - 1)
        (stBytes (history (i - 1)) 0 (bytesAt (history i) 0 shellLineMax))) (by omega)
      rw [shiftRows]
      refine ⟨fun j h1 h2 x hx => ?_, fun j hj => ?_⟩
      · by_cases hfirst : i = j + 1
        · subst hfirst
          rw [hkept j (by omega), Nat.add_sub_cancel, Function.update_self, copyRow_apply _ _ hx]
        · rw [hmoved j (by omega) (by omega) x hx, Function.update_of_ne (by omega)]
      · rw [hkept j (by omega), Function.update_of_ne (by omega)]

/-! ## Strings in the arrays -/

section Strings

variable {line row : Mem} {text xs : List UInt8} {i cursor : Nat} {ch : UInt8}

/-- A character comes in. -/
theorem openGap_holds (h : HoldsStr line text) (hcursor : cursor ≤ text.length) (hch : ch ≠ 0) :
    HoldsStr (Function.update (Function.update (openGap cursor text.length line) cursor ch)
      (text.length + 1) 0) (text.insertIdx cursor ch) := by
  have hlen : (text.insertIdx cursor ch).length = text.length + 1 :=
    List.length_insertIdx_of_le_length hcursor ch
  refine ⟨fun hmem => ?_, fun i hi => ?_, ?_⟩
  · rcases List.eq_or_mem_of_mem_insertIdx hmem with heq | hold
    · exact hch heq.symm
    · exact h.noNul hold
  · rw [List.getElem_insertIdx, Function.update_of_ne (by omega)]
    split
    · rw [Function.update_of_ne (by omega), openGap_apply, if_neg (by omega)]
      exact h.byte i _
    · split
      · rename_i heq
        rw [heq, Function.update_self]
      · rw [Function.update_of_ne (by omega), openGap_apply, if_pos (by omega)]
        exact h.byte (i - 1) _
  · rw [hlen, Function.update_self]

/-- A character goes. -/
theorem closeGap_holds (h : HoldsStr line text) (hi : i < text.length) :
    HoldsStr (Function.update (closeGap (text.length - 1 - i) i line) (text.length - 1) 0)
      (text.eraseIdx i) := by
  have hlen : (text.eraseIdx i).length = text.length - 1 := List.length_eraseIdx_of_lt hi
  refine ⟨fun hmem => h.noNul (List.mem_of_mem_eraseIdx hmem), fun k hk => ?_, ?_⟩
  · rw [Function.update_of_ne (by omega), closeGap_apply, List.getElem_eraseIdx]
    by_cases hki : k < i
    · rw [if_neg (by omega), dif_pos hki]
      exact h.byte k _
    · rw [if_pos (by omega), dif_neg hki]
      exact h.byte (k + 1) _
  · rw [hlen, Function.update_self]

/-- A row is loaded. -/
theorem loadBytes_holds (h : HoldsStr row xs) (hlen : xs.length ≤ shellLineMax - 1) :
    (loadBytes row (shellLineMax - 1) 0 line).2 = xs.length ∧
      HoldsStr (Function.update (loadBytes row (shellLineMax - 1) 0 line).1 xs.length 0) xs := by
  obtain ⟨hcount, hbytes⟩ := @loadBytes_eq row xs h (shellLineMax - 1) 0 line (Nat.zero_le _)
    (by omega)
  refine ⟨hcount, h.noNul, fun i hi => ?_, Function.update_self _ _ _⟩
  rw [Function.update_of_ne (by omega), hbytes, if_pos ⟨Nat.zero_le i, hi⟩]
  exact h.byte i hi

/-- The line is stored in a row. -/
theorem storeLine_holds (h : HoldsStr line text) :
    HoldsStr (Function.update (stBytes row 0 (bytesAt line 0 text.length)) text.length 0) text := by
  refine ⟨h.noNul, fun i hi => ?_, Function.update_self _ _ _⟩
  rw [Function.update_of_ne (by omega), copyRow_apply _ _ hi]
  exact h.byte i hi

end Strings

/-! ## The statics and the editor -/

/-- The limits of the shell: the arrays hold 127 characters and a NUL. -/
def shellLimits : EditorLimits UInt8 := ⟨shellLineMax - 1, shellHistoryMax, isSpace⟩

/-- What a key of the terminal asks of the editor. -/
def commandOf (ev : KeyEvent) : EditCommand UInt8 :=
  if scrolls ev then .idle
  else match ev.code with
    | .char => .insert ev.ch
    | .backspace => .backspace
    | .delete => .delete
    | .left => if ev.modifiers &&& keymodCtrl ≠ 0 then .wordLeft else .left
    | .right => if ev.modifiers &&& keymodCtrl ≠ 0 then .wordRight else .right
    | .home => .home
    | .end => .end
    | .up => .older
    | .down => .newer
    | .enter => .submit
    | _ => .idle

/-- The input line is a text with a cursor. -/
structure LineHolds (g : ShellState) (c : TextCursor UInt8) : Prop where
  text : HoldsStr g.line c.text
  len : g.len = c.text.length
  cursor : g.cursor = c.cursor

/-- The rows of the history in use hold its lines, oldest first. -/
structure HistoryHolds (g : ShellState) (lines : List (List UInt8)) : Prop where
  count : g.histCount = lines.length
  rows : ∀ i (h : i < lines.length), HoldsStr (g.history i) lines[i]

/-- `g_hist_index` for the line of the history that is shown. -/
def histIndexOf : Option Nat → Int
  | none => -1
  | some i => i

/-- The statics of the terminal's shell show an editor. -/
structure Shows (g : ShellState) (e : Editor UInt8) : Prop where
  terminal : g.simpleMode = false
  line : LineHolds g e.line
  history : HistoryHolds g e.history
  index : g.histIndex = histIndexOf e.index

theorem shows_shellInit : Shows (shellInit false shellStatics) Editor.empty where
  terminal := rfl
  line := ⟨holdsStr_nil rfl, rfl, rfl⟩
  history := ⟨rfl, fun i h => absurd h (Nat.not_lt_zero i)⟩
  index := rfl

section Steps

variable {g : ShellState} {e : Editor UInt8} {c : TextCursor UInt8} {lines : List (List UInt8)}

/-- The cursor moves. -/
theorem LineHolds.moveTo (h : LineHolds g c) {k : Nat} (hk : k ≤ c.text.length) :
    LineHolds { g with cursor := k } (c.moveTo k) :=
  ⟨h.text, h.len, (Nat.min_eq_left hk).symm⟩

theorem LineHolds.insert (h : LineHolds g c) {ch : UInt8} (hch : ch ≠ 0) :
    LineHolds { g with
      line := Function.update (Function.update (openGap g.cursor g.len g.line) g.cursor ch)
        (g.len + 1) 0
      len := g.len + 1
      cursor := g.cursor + 1 } (c.insert ch) := by
  refine ⟨?_, ?_, ?_⟩
  · simp only [h.len, h.cursor]
    exact openGap_holds h.text c.cursor_le hch
  · rw [TextCursor.length_insert, ← h.len]
  · rw [h.cursor]
    rfl

/-- `removeAt` takes a character out. -/
theorem removeAt_holds (h : HoldsStr g.line c.text) (hlen : g.len = c.text.length) {i : Nat}
    (hi : i < c.text.length) (hmax : c.text.length < 2 ^ 32) :
    HoldsStr (removeAt i g).line (c.text.eraseIdx i) ∧
      (removeAt i g).len = (c.text.eraseIdx i).length := by
  have hsub : sub32 g.len 1 = c.text.length - 1 := by
    rw [hlen, sub32_of_le (by omega) hmax]
  refine ⟨?_, ?_⟩
  · simp only [Shell.removeAt, hsub]
    exact closeGap_holds h hi
  · rw [List.length_eraseIdx_of_lt hi]
    exact hsub

theorem LineHolds.backspace (h : LineHolds g c) (hpos : 0 < g.cursor)
    (hmax : c.text.length < 2 ^ 32) :
    LineHolds { removeAt (sub32 g.cursor 1) g with cursor := sub32 g.cursor 1 } c.backspace := by
  have hle := c.cursor_le
  have hcur := h.cursor
  have hsub : sub32 g.cursor 1 = c.cursor - 1 := by
    rw [hcur, sub32_of_le (by omega) (by omega)]
  obtain ⟨htext, hlen⟩ := removeAt_holds h.text h.len (i := c.cursor - 1) (by omega) hmax
  rw [hsub, TextCursor.backspace, dif_neg (by omega)]
  exact ⟨htext, hlen, rfl⟩

theorem LineHolds.delete (h : LineHolds g c) (hlt : g.cursor < g.len)
    (hmax : c.text.length < 2 ^ 32) : LineHolds (removeAt g.cursor g) c.delete := by
  have hin : c.cursor < c.text.length := by
    rw [← h.cursor, ← h.len]
    exact hlt
  obtain ⟨htext, hlen⟩ := removeAt_holds h.text h.len hin hmax
  rw [TextCursor.delete, dif_pos hin, h.cursor]
  exact ⟨htext, hlen, h.cursor⟩

/-! ## Moving over words -/

theorem LineHolds.wordStart (h : LineHolds g c) :
    skipBack notSpace g.line (skipBack isSpace g.line g.cursor) = c.wordStart isSpace := by
  have hpre : (c.text.take c.cursor).rdropWhile isSpace <+: c.text :=
    (List.rdropWhile_prefix _ _).trans (List.take_prefix _ _)
  rw [h.cursor, skipBack_eq h.text.byte c.cursor_le, skipBack_eq h.text.byte hpre.length_le,
    ← List.prefix_iff_eq_take.mp hpre]
  rfl

theorem LineHolds.wordEnd (h : LineHolds g c) {k : Nat}
    (hk : skipAhead notSpace g.line (g.len - g.cursor) g.cursor = k) :
    skipAhead isSpace g.line (g.len - k) k = c.wordEnd isSpace := by
  have hle := c.cursor_le
  have hsuf : (c.text.drop c.cursor).dropWhile notSpace <:+ c.text :=
    (List.dropWhile_suffix _).trans (List.drop_suffix _ _)
  have hsuf' := hsuf.length_le
  rw [h.cursor, h.len, skipAhead_eq h.text.byte (by omega)] at hk
  rw [h.len, skipAhead_eq h.text.byte (by omega), ← hk, ← List.suffix_iff_eq_drop.mp hsuf]
  rfl

theorem wordStart_le (c : TextCursor UInt8) : c.wordStart isSpace ≤ c.text.length :=
  ((List.rdropWhile_prefix _ _).trans
    ((List.rdropWhile_prefix _ _).trans (List.take_prefix _ _))).length_le

/-! ## The history -/

/-- `history_load` shows a line of the history. -/
theorem historyLoad_shows (h : Shows g e) {i : Nat} (hi : i < e.history.length)
    (hlen : e.history[i].length ≤ shellLineMax - 1) :
    Shows (historyLoad i { g with histIndex := i }) (e.showLine i hi) := by
  have hrow := h.history.rows i hi
  have hcount := h.history.count
  obtain ⟨hend, hline⟩ := @loadBytes_holds g.line _ _ hrow hlen
  rw [historyLoad, if_neg (by simp only; omega)]
  simp only [Int.toNat_natCast, hend]
  exact ⟨h.terminal, ⟨hline, rfl, rfl⟩, ⟨h.history.count, h.history.rows⟩, rfl⟩

theorem clearLine_zero (g : ShellState) : (clearLine g).line 0 = 0 := by
  simp [clearLine]

/-- The line is empty again. -/
theorem clearLine_shows (hterm : g.simpleMode = false) (hhist : HistoryHolds g lines) :
    Shows { clearLine g with histIndex := -1 } ⟨.atEnd [], lines, none, by simp⟩ :=
  ⟨hterm, ⟨holdsStr_nil (clearLine_zero g), rfl, rfl⟩, ⟨hhist.count, hhist.rows⟩, rfl⟩

/-- The last line of the history is the one that `history_store` compares with. -/
theorem HistoryHolds.last_eq_iff (h : HistoryHolds g lines) {text : List UInt8}
    (htext : HoldsStr g.line text) (hlen : text.length ≤ shellLineMax)
    (hmax : ∀ xs ∈ lines, xs.length ≤ shellLineMax) :
    g.histCount > 0 ∧ strcmp (strAt (g.history (g.histCount - 1)) shellLineMax)
        (strAt g.line shellLineMax) = 0 ↔ lines.getLast? = some text := by
  rw [h.count, htext.strAt_eq hlen]
  by_cases hpos : 0 < lines.length
  · have hlast : lines.length - 1 < lines.length := by omega
    have hrow := h.rows _ hlast
    rw [hrow.strAt_eq (hmax _ (List.getElem_mem hlast)),
      strcmp_eq_zero_iff hrow.noNul htext.noNul, List.getLast?_eq_getElem?,
      List.getElem?_eq_getElem hlast, Option.some.injEq]
    exact and_iff_right hpos
  · rw [List.eq_nil_of_length_eq_zero (by omega : lines.length = 0)]
    simp

/-- One more row. -/
theorem rows_snoc {history : Nat → Mem} {row : Mem} {text : List UInt8} {n : Nat}
    (hn : n = lines.length) (h : ∀ i (hi : i < lines.length), HoldsStr (history i) lines[i])
    (hrow : HoldsStr row text) :
    ∀ i (hi : i < (lines ++ [text]).length),
      HoldsStr (Function.update history n row i) (lines ++ [text])[i] := by
  intro i hi
  rw [List.length_append, List.length_singleton] at hi
  by_cases hlast : i = lines.length
  · subst hlast hn
    rw [Function.update_self, List.getElem_concat_length rfl]
    exact hrow
  · rw [Function.update_of_ne (by omega), List.getElem_append_left (by omega)]
    exact h i (by omega)

/-- The rows behind the oldest one, after the loop of `history_store`. -/
theorem rows_tail {history : Nat → Mem} (hfull : lines.length = shellHistoryMax)
    (hmax : ∀ xs ∈ lines, xs.length ≤ shellLineMax - 1)
    (h : ∀ i (hi : i < lines.length), HoldsStr (history i) lines[i]) :
    ∀ i (hi : i < lines.tail.length),
      HoldsStr (shiftRows (shellHistoryMax - 1) 1 history i) lines.tail[i] := by
  intro i hi
  rw [List.length_tail, hfull] at hi
  have hin : i + 1 < lines.length := by omega
  have hlen := hmax _ (List.getElem_mem hin)
  rw [List.getElem_tail]
  refine (h (i + 1) hin).congr fun x hx => ?_
  exact (shiftRows_apply (le_refl 1)).1 i (by omega) (by omega) x
    (Nat.lt_of_le_of_lt (hx.trans hlen) (by decide))

/-- `history_store` remembers the line. -/
theorem HistoryHolds.store (h : HistoryHolds g lines) (hline : LineHolds g c)
    (hlen : c.text.length ≤ shellLineMax - 1) (hmax : ∀ xs ∈ lines, xs.length ≤ shellLineMax - 1)
    (hdepth : lines.length ≤ shellHistoryMax) :
    HistoryHolds (historyStore g) (Editor.remember shellHistoryMax lines c.text) := by
  have hlast := h.last_eq_iff hline.text (hlen.trans (Nat.sub_le _ _))
    fun xs hxs => (hmax xs hxs).trans (Nat.sub_le _ _)
  have hcount := h.count
  have hstored : ∀ row, HoldsStr (Function.update (stBytes row 0 (bytesAt g.line 0 g.len))
      g.len 0) c.text := by
    intro row
    rw [hline.len]
    exact storeLine_holds hline.text
  unfold historyStore Editor.remember
  by_cases hnil : c.text = []
  · rw [if_pos (by rw [hline.len, hnil]; rfl), if_pos (Or.inl hnil)]
    exact h
  rw [if_neg (by rw [hline.len]; exact fun h0 => hnil (List.length_eq_zero_iff.mp h0))]
  by_cases hsame : lines.getLast? = some c.text
  · rw [if_pos (hlast.mpr hsame), if_pos (Or.inr hsame)]
    exact h
  rw [if_neg (mt hlast.mp hsame), if_neg (not_or.mpr ⟨hnil, hsame⟩)]
  by_cases hroom : lines.length < shellHistoryMax
  · rw [if_pos (by omega)]
    have hkeep : (lines ++ [c.text]).rtake shellHistoryMax = lines ++ [c.text] := by
      rw [List.rtake, List.length_append, List.length_singleton, Nat.sub_eq_zero_of_le hroom,
        List.drop_zero]
    simp only [hkeep, hcount]
    exact ⟨by simp, rows_snoc rfl h.rows (hstored _)⟩
  · have hfull : lines.length = shellHistoryMax := by omega
    rw [if_neg (by omega)]
    have hne : lines ≠ [] := List.ne_nil_of_length_pos (hfull ▸ Nat.succ_pos 31)
    have hkeep : (lines ++ [c.text]).rtake shellHistoryMax = lines.tail ++ [c.text] := by
      rw [List.rtake, List.length_append, List.length_singleton, hfull, Nat.add_sub_cancel_left,
        List.drop_one, List.tail_append_of_ne_nil hne]
    have hprev : lines.tail.length = shellHistoryMax - 1 := by rw [List.length_tail, hfull]
    have hrows := rows_tail hfull hmax h.rows
    -- Thirty-one rounds that no unifier should run.
    generalize shiftRows (shellHistoryMax - 1) 1 g.history = shifted at hrows ⊢
    rw [hkeep]
    refine ⟨?_, rows_snoc hprev.symm hrows (hstored _)⟩
    rw [List.length_append, hprev, List.length_singleton]
    exact hcount.trans hfull

/-- `history_store` leaves the line and the console alone. -/
theorem historyStore_line (g : ShellState) :
    (historyStore g).line = g.line ∧ (historyStore g).simpleMode = g.simpleMode := by
  unfold historyStore
  split
  · exact ⟨rfl, rfl⟩
  · split
    · exact ⟨rfl, rfl⟩
    · by_cases hroom : g.histCount < shellHistoryMax
      · rw [if_pos hroom]
        exact ⟨rfl, rfl⟩
      · rw [if_neg hroom]
        exact ⟨rfl, rfl⟩

end Steps

/-! ## One key -/

section Key

variable {g : ShellState} {e : Editor UInt8}

/-- The line changes, and nothing else. -/
theorem Shows.withLine (h : Shows g e) {line : Mem} {len cursor : Nat} {c : TextCursor UInt8}
    (hc : LineHolds { g with line := line, len := len, cursor := cursor } c) :
    Shows { g with line := line, len := len, cursor := cursor } { e with line := c } :=
  ⟨h.terminal, hc, ⟨h.history.count, h.history.rows⟩, h.index⟩

/-- A move that leads nowhere. -/
theorem Shows.stay (h : Shows g e) {k : Nat} (hk : min k e.line.text.length = e.line.cursor) :
    Shows g { e with line := e.line.moveTo k } :=
  ⟨h.terminal, ⟨h.line.text, h.line.len, h.line.cursor.trans hk.symm⟩, h.history, h.index⟩

/-- What Enter leaves in the arrays, and what it executes. -/
theorem submitLine_holds (hline : LineHolds g e.line) (hhist : HistoryHolds g e.history)
    (hw : Editor.Within shellLimits e) :
    LineHolds (submitLine g).1 (.atEnd []) ∧
      HistoryHolds (submitLine g).1 (Editor.remember shellHistoryMax e.history e.line.text) ∧
      (submitLine g).1.simpleMode = g.simpleMode ∧ (submitLine g).2 = some e.line.text := by
  obtain ⟨hkept, hmode⟩ := historyStore_line g
  have hstored := hhist.store hline hw.text hw.lines hw.history
  have htext : strAt g.line 127 = e.line.text := hline.text.strAt_eq hw.text
  refine ⟨⟨holdsStr_nil (clearLine_zero (historyStore g)), rfl, rfl⟩,
    ⟨hstored.count, hstored.rows⟩, hmode, ?_⟩
  simp only [submitLine, executedLine, hkept, htext]

/-- Enter. -/
theorem submitLine_shows (h : Shows g e) (hw : Editor.Within shellLimits e) :
    Shows (submitLine g).1 (Editor.step shellLimits e .submit).1 ∧
      (submitLine g).2 = (Editor.step shellLimits e .submit).2 := by
  obtain ⟨hline, hhist, hmode, hout⟩ := submitLine_holds h.line h.history hw
  exact ⟨⟨hmode.trans h.terminal, hline, hhist, rfl⟩, hout⟩

/-- The index that the up arrow loads. -/
theorem olderIndex_lt (hpos : 0 < e.history.length) : e.olderIndex < e.history.length := by
  unfold Editor.olderIndex
  split
  · exact Nat.sub_lt hpos Nat.one_pos
  · rename_i i hi
    exact Nat.lt_of_le_of_lt (Nat.sub_le i 1) (e.index_lt i hi)

theorem olderIndex_eq (h : Shows g e) (hpos : 0 < e.history.length) :
    (if g.histIndex < 0 then (g.histCount : Int) - 1
      else if g.histIndex > 0 then g.histIndex - 1 else g.histIndex) = e.olderIndex := by
  have hcount := h.history.count
  have hindex := h.index
  rw [Editor.olderIndex]
  cases hi : e.index with
  | none =>
      have hnone : g.histIndex = -1 := by rw [hindex, hi, histIndexOf]
      simp only
      rw [if_pos (by omega)]
      omega
  | some i =>
      have hsome : g.histIndex = i := by rw [hindex, hi, histIndexOf]
      simp only
      rw [if_neg (by omega)]
      split
      · omega
      · omega

/-- The up arrow. -/
theorem up_shows (h : Shows g e) (hw : Editor.Within shellLimits e) {ev : KeyEvent}
    (hev : ev.code = .up) :
    Shows (handleTerminal ev g).1 e.older ∧ (handleTerminal ev g).2 = none := by
  have hcount := h.history.count
  rw [handleTerminal]
  simp only [hev]
  by_cases hpos : 0 < e.history.length
  · have hlt := olderIndex_lt hpos
    rw [if_pos (by omega), Editor.older, dif_pos hlt, olderIndex_eq h hpos]
    exact ⟨historyLoad_shows h hlt (hw.lines _ (List.getElem_mem hlt)), rfl⟩
  · rw [if_neg (by omega), Editor.older, dif_neg (by omega)]
    exact ⟨h, rfl⟩

/-- The down arrow. -/
theorem down_shows (h : Shows g e) (hw : Editor.Within shellLimits e) {ev : KeyEvent}
    (hev : ev.code = .down) :
    Shows (handleTerminal ev g).1 e.newer ∧ (handleTerminal ev g).2 = none := by
  have hcount := h.history.count
  have hindex := h.index
  rw [handleTerminal, Editor.newer.eq_def]
  simp only [hev]
  cases hi : e.index with
  | none =>
      rw [hi, histIndexOf] at hindex
      rw [if_neg (by omega)]
      exact ⟨h, rfl⟩
  | some i =>
      have hlt := e.index_lt i hi
      rw [hi, histIndexOf] at hindex
      rw [if_pos (by omega), hindex]
      by_cases hnext : i + 1 < e.history.length
      · simp only [dif_pos hnext]
        rw [if_neg (by omega)]
        exact ⟨historyLoad_shows h hnext (hw.lines _ (List.getElem_mem hnext)), rfl⟩
      · simp only [dif_neg hnext]
        rw [if_pos (by omega)]
        exact ⟨clearLine_shows h.terminal h.history, rfl⟩

/-- **One key is one command.** -/
theorem shellHandleKey_shows (h : Shows g e) (hw : Editor.Within shellLimits e) {ev : KeyEvent}
    (hch : ev.code = .char → ev.ch ≠ 0) :
    Shows (shellHandleKey ev g).1 (Editor.step shellLimits e (commandOf ev)).1 ∧
      (shellHandleKey ev g).2 = (Editor.step shellLimits e (commandOf ev)).2 := by
  have hlen := h.line.len
  have hcur := h.line.cursor
  have hle := e.line.cursor_le
  have hmax : e.line.text.length ≤ 127 := hw.text
  have hmax' : e.line.text.length < 2 ^ 32 := by omega
  rw [shellHandleKey, if_neg (by rw [h.terminal]; exact Bool.false_ne_true), commandOf]
  by_cases hscroll : scrolls ev
  · rw [if_pos hscroll, if_pos hscroll]
    exact ⟨h, rfl⟩
  rw [if_neg hscroll, if_neg hscroll]
  cases hcode : ev.code with
  | char =>
      simp only [handleTerminal, hcode, Editor.step, ← hlen]
      by_cases hroom : g.len < shellLineMax - 1
      · have hroom' : g.len < shellLimits.capacity := hroom
        rw [if_pos hroom, if_pos hroom']
        exact ⟨h.withLine (h.line.insert (hch hcode)), rfl⟩
      · have hroom' : ¬ g.len < shellLimits.capacity := hroom
        rw [if_neg hroom, if_neg hroom']
        exact ⟨h, rfl⟩
  | backspace =>
      simp only [handleTerminal, hcode, Editor.step]
      by_cases hpos : 0 < g.cursor
      · rw [if_pos hpos]
        exact ⟨h.withLine (h.line.backspace hpos hmax'), rfl⟩
      · rw [if_neg hpos, TextCursor.backspace, dif_pos (by omega)]
        exact ⟨h, rfl⟩
  | delete =>
      simp only [handleTerminal, hcode, Editor.step]
      by_cases hlt : g.cursor < g.len
      · rw [if_pos hlt]
        exact ⟨h.withLine (h.line.delete hlt hmax'), rfl⟩
      · rw [if_neg hlt, TextCursor.delete, dif_neg (by omega)]
        exact ⟨h, rfl⟩
  | left =>
      simp only [handleTerminal, hcode, Editor.step]
      by_cases hctrl : ev.modifiers &&& keymodCtrl ≠ 0
      · rw [if_pos hctrl, if_pos hctrl, h.line.wordStart]
        exact ⟨h.withLine (h.line.moveTo (wordStart_le _)), rfl⟩
      · rw [if_neg hctrl, if_neg hctrl]
        by_cases hpos : 0 < g.cursor
        · rw [if_pos hpos, sub32_of_le hpos (by omega), hcur]
          exact ⟨h.withLine (h.line.moveTo (by omega)), rfl⟩
        · rw [if_neg hpos]
          exact ⟨h.stay (by omega), rfl⟩
  | right =>
      simp only [handleTerminal, hcode, Editor.step]
      by_cases hctrl : ev.modifiers &&& keymodCtrl ≠ 0
      · rw [if_pos hctrl, if_pos hctrl, h.line.wordEnd rfl]
        exact ⟨h.withLine (h.line.moveTo (Nat.sub_le _ _)), rfl⟩
      · rw [if_neg hctrl, if_neg hctrl]
        by_cases hlt : g.cursor < g.len
        · rw [if_pos hlt, hcur]
          exact ⟨h.withLine (h.line.moveTo (by omega)), rfl⟩
        · rw [if_neg hlt]
          exact ⟨h.stay (by omega), rfl⟩
  | up =>
      simpa only [Editor.step] using up_shows h hw hcode
  | down =>
      simpa only [Editor.step] using down_shows h hw hcode
  | home =>
      simp only [handleTerminal, hcode, Editor.step]
      exact ⟨h.withLine (h.line.moveTo (Nat.zero_le _)), trivial⟩
  | «end» =>
      simp only [handleTerminal, hcode, Editor.step, ← hlen]
      exact ⟨h.withLine (h.line.moveTo hlen.le), trivial⟩
  | enter =>
      rw [handleTerminal]
      simpa only [hcode] using submitLine_shows h hw
  | none | pageUp | pageDown | tab =>
      simp only [handleTerminal, hcode, Editor.step]
      exact ⟨h, trivial⟩

end Key

/-! ## Runs -/

/-- Where a key is a command, keys are a run of the editor; none of them is a NUL. -/
theorem shellRun_of_step {R : ShellState → Editor UInt8 → Prop}
    {command : KeyEvent → EditCommand UInt8}
    (hkey : ∀ {g : ShellState} {e : Editor UInt8}, R g e → Editor.Within shellLimits e →
      ∀ {ev : KeyEvent}, (ev.code = .char → ev.ch ≠ 0) →
      R (shellHandleKey ev g).1 (Editor.step shellLimits e (command ev)).1 ∧
        (shellHandleKey ev g).2 = (Editor.step shellLimits e (command ev)).2)
    {evs : List KeyEvent} : ∀ {g : ShellState} {e : Editor UInt8},
    R g e → Editor.Within shellLimits e → (∀ ev ∈ evs, ev.code = .char → ev.ch ≠ 0) →
    R (shellRun evs g).1 (Editor.run shellLimits (evs.map command) e).1 ∧
      (shellRun evs g).2 = (Editor.run shellLimits (evs.map command) e).2 ∧
      Editor.Within shellLimits (Editor.run shellLimits (evs.map command) e).1 := by
  induction evs with
  | nil => exact fun h hw _ => ⟨h, rfl, hw⟩
  | cons ev evs ih =>
      intro g e h hw hch
      obtain ⟨hstep, hout⟩ := hkey h hw (hch ev List.mem_cons_self)
      obtain ⟨hrun, hrest, hw'⟩ :=
        ih hstep (hw.step _) fun ev' hev' => hch ev' (List.mem_cons_of_mem _ hev')
      refine ⟨hrun, ?_, hw'⟩
      rw [List.map_cons, shellRun, Editor.run]
      simp only [hout, hrest]

theorem shellRun_shows {evs : List KeyEvent} {g : ShellState} {e : Editor UInt8} (h : Shows g e)
    (hw : Editor.Within shellLimits e) (hch : ∀ ev ∈ evs, ev.code = .char → ev.ch ≠ 0) :
    Shows (shellRun evs g).1 (Editor.run shellLimits (evs.map commandOf) e).1 ∧
      (shellRun evs g).2 = (Editor.run shellLimits (evs.map commandOf) e).2 ∧
      Editor.Within shellLimits (Editor.run shellLimits (evs.map commandOf) e).1 :=
  shellRun_of_step shellHandleKey_shows h hw hch

/-- A character that can be typed is not a NUL. -/
theorem ch_ne_zero {evs : List KeyEvent}
    (hch : ∀ ev ∈ evs, ev.code = .char → 32 ≤ ev.ch ∧ ev.ch ≤ 126) :
    ∀ ev ∈ evs, ev.code = .char → ev.ch ≠ 0 := by
  intro ev hev hcode h0
  have hle := (hch ev hev hcode).1
  rw [h0] at hle
  exact absurd hle (by decide)

/-- **The line editor.** After any keys of the terminal, the cursor is in the
line, the line fits and ends in a NUL, the line and the cursor are those of the
editor that the keys command, and the lines executed are those it submits. -/
theorem shellRun_refines (evs : List KeyEvent)
    (hch : ∀ ev ∈ evs, ev.code = .char → 32 ≤ ev.ch ∧ ev.ch ≤ 126) :
    let g := (shellRun evs (shellInit false shellStatics)).1
    let e := (Editor.run shellLimits (evs.map commandOf) .empty).1
    g.cursor ≤ g.len ∧ g.len ≤ 127 ∧ g.line g.len = 0 ∧
      bytesAt g.line 0 g.len = e.line.text ∧ g.cursor = e.line.cursor ∧
      (shellRun evs (shellInit false shellStatics)).2 =
        (Editor.run shellLimits (evs.map commandOf) .empty).2 := by
  intro g e
  obtain ⟨hshows, hout, hw⟩ :=
    shellRun_shows shows_shellInit (Editor.within_empty shellLimits) (ch_ne_zero hch)
  have hlen : g.len = e.line.text.length := hshows.line.len
  have hcur : g.cursor = e.line.cursor := hshows.line.cursor
  refine ⟨?_, ?_, ?_, ?_, hcur, hout⟩
  · rw [hcur, hlen]
    exact e.line.cursor_le
  · rw [hlen]
    exact hw.text
  · rw [hlen]
    exact hshows.line.text.terminator
  · rw [hlen]
    exact hshows.line.text.bytesAt_eq

/-- Keys that type `s l` and correct it to `ls`, submit it, and recall it. -/
def correctedKeys : List KeyEvent :=
  [⟨.char, 115, 0⟩, ⟨.char, 32, 0⟩, ⟨.char, 108, 0⟩, ⟨.left, 0, keymodCtrl⟩, ⟨.backspace, 0, 0⟩,
    ⟨.home, 0, 0⟩, ⟨.delete, 0, 0⟩, ⟨.end, 0, 0⟩, ⟨.char, 115, 0⟩, ⟨.enter, 0, 0⟩, ⟨.up, 0, 0⟩]

theorem shellRun_refines_correctedKeys :
    let g := (shellRun correctedKeys (shellInit false shellStatics)).1
    g.line g.len = 0 ∧ bytesAt g.line 0 g.len = ascii "ls" ∧ g.cursor = 2 ∧
      (shellRun correctedKeys (shellInit false shellStatics)).2 = [ascii "ls"] := by
  obtain ⟨-, -, hnul, htext, hcur, hout⟩ := shellRun_refines correctedKeys (by decide)
  exact ⟨hnul, htext.trans (by decide), hcur.trans (by decide), hout.trans (by decide)⟩

end RoninOS.Shell
