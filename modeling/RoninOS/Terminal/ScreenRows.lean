/-
RoninOS.Terminal.ScreenRows — what the loops of the terminal leave in its arrays
and on the screen, row by row.

A write feeds tokens to the terminal (`writeLoop_eq_foldl`), and these leave the
prompt, the input and the status alone. Drawing puts the rows below the output
one by one (`renderInput_row`, `renderStatus_row`).
-/
import RoninOS.Terminal.Screen
import RoninOS.Terminal.Scrollback
import Mathlib.Data.List.GetD

namespace RoninOS.Terminal

open RoninOS.Lib

/-! ## The arrays -/

/-- A loop that stores one byte after another is one write. -/
theorem forLoop_write {n : Nat} (off : Nat) (f : Nat → UInt8) (b : Buffer n) :
    ∀ {k : Nat}, off + k ≤ n →
      forLoop k (fun i b => b.write (off + i) [f i]) b = b.write off ((List.range k).map f) := by
  intro k
  induction k with
  | zero => intro _; simp [forLoop, Buffer.write_nil]
  | succ k ih =>
      intro hk
      have hlen : ((List.range k).map f).length = k := by simp
      have happend := @Buffer.write_append _ b off ((List.range k).map f) [f k] (by simp; omega)
      rw [hlen] at happend
      rw [forLoop_succ, ih (by omega), happend, List.range_succ, List.map_append]
      rfl

/-- `copyLoop` writes what of the string fits before the last byte. -/
theorem copyLoop_eq {n : Nat} (s : List UInt8) : ∀ {i : Nat} (b : Buffer n), i + 1 ≤ n →
    copyLoop s i b = (b.write i (s.take (n - 1 - i)), i + (s.take (n - 1 - i)).length) := by
  induction s with
  | nil => intro i b _; simp [copyLoop, Buffer.write_nil]
  | cons c s ih =>
      intro i b hi
      rw [copyLoop]
      split
      · rename_i hlt
        have hroom : n - 1 - i = n - 1 - (i + 1) + 1 := by omega
        have happend := @Buffer.write_append _ b i [c] (s.take (n - 1 - (i + 1)))
          (by simp; omega)
        rw [ih _ (by omega), hroom, List.take_succ_cons]
        simp only [List.length_cons, List.length_nil, Nat.zero_add] at happend
        rw [happend]
        simp only [List.singleton_append, List.length_cons, Prod.mk.injEq, true_and]
        omega
      · rename_i hge
        have hfull : n - 1 - i = 0 := by omega
        simp [hfull, Buffer.write_nil]

/-- `strlen` of a string that is cut to fit. -/
theorem nul_not_mem_take (s : CString) (k : Nat) : 0 ∉ s.bytes.take k :=
  fun h => s.noNul (List.mem_of_mem_take h)

/-- `terminal_set_prompt` stores the string up to the last byte but one. -/
theorem prompt_stored (s : CString) (b : Buffer 32) :
    let (b', i) := copyLoop s.bytes 0 b
    (b'.write i [0]).str = s.bytes.take 31 ∧ 0 ∈ (b'.write i [0]).bytes := by
  rw [copyLoop_eq s.bytes b (by omega)]
  have hlen : (s.bytes.take 31).length < 32 := by
    rw [List.length_take]
    omega
  simp only [Nat.sub_zero, Nat.zero_add, Nat.reduceSub]
  exact ⟨b.str_write_string hlen (nul_not_mem_take s 31), Buffer.nul_mem_write_singleton _ hlen⟩

/-- `terminal_set_status` stores it too, and NULs behind it. -/
theorem status_stored (s : CString) (b : Buffer 80) :
    let (b', i) := copyLoop s.bytes 0 b
    (forLoop (80 - i) (fun k b => b.write (i + k) [0]) b').bytes
      = s.bytes.take 79 ++ List.replicate (80 - (s.bytes.take 79).length) 0 := by
  rw [copyLoop_eq s.bytes b (by omega)]
  have hlen : (s.bytes.take 79).length ≤ 79 := List.length_take_le _ _
  simp only [Nat.sub_zero, Nat.zero_add, Nat.reduceSub]
  generalize s.bytes.take 79 = text at *
  have happend := @Buffer.write_append _ b 0 text (List.replicate (80 - text.length) 0)
    (by simp; omega)
  rw [Nat.zero_add] at happend
  rw [forLoop_write text.length (fun _ => 0) _ (by omega), List.map_const', List.length_range,
    happend, Buffer.bytes_write _ (by simp; omega)]
  rw [List.take_zero, List.nil_append, List.drop_eq_nil_of_le, List.append_nil]
  simp [b.length_eq]
  omega

/-- `terminal_set_input_line` stores the bytes before the cut. -/
theorem input_stored (m : Mem) (b : Buffer 128) {len : Nat} (hlen : len ≤ 127) :
    ((forLoop len (fun i b => b.write i [m i]) b).write len [0]).bytes.take len
      = bytesAt m 0 len := by
  have hloop := forLoop_write 0 m b (k := len) (by omega)
  simp only [Nat.zero_add] at hloop
  rw [hloop, Buffer.take_write_of_le _ (by simp; omega) le_rfl,
    Buffer.bytes_write _ (by simp; omega)]
  simp [bytesAt]

/-! ## Tokens -/

/-- The terminal after a token. -/
def TermState.feed (t : TermState) : Token → TermState
  | .char c => putOutputChar c t
  | .colour attr => { t with currentAttr := attr }

/-- The statics that output leaves alone, with the screen. -/
def TermState.below (t : TermState) :
    Theme × Buffer 32 × Buffer 128 × Nat × Nat × Buffer 80 × (Nat → UInt16) × PortIo :=
  (t.theme, t.prompt, t.input, t.inputLen, t.inputCursor, t.status, t.vga, t.ports)

@[simp] theorem clearLine_below (absLine : Nat) (t : TermState) :
    (clearLine absLine t).below = t.below :=
  clearLine_frame TermState.below absLine t fun _ _ _ _ => rfl

theorem linefeed_below (t : TermState) : (linefeed t).below = t.below := by
  have hoffset : ∀ s : TermState, ({ s with scrollOffset := 0 } : TermState).below = s.below :=
    fun _ => rfl
  unfold linefeed
  extract_lets started counted cleared
  rw [hoffset]
  exact clearLine_below _ counted

@[simp] theorem ensureCurrentLineInitialized_below (t : TermState) :
    (ensureCurrentLineInitialized t).below = t.below := by
  unfold ensureCurrentLineInitialized
  split <;> simp

theorem putOutputChar_below (c : UInt8) (t : TermState) :
    (putOutputChar c t).below = t.below := by
  unfold putOutputChar
  split_ifs
  · exact linefeed_below t
  · rfl
  · rfl
  · rfl
  · rfl
  · dsimp only
    split_ifs
    · exact (linefeed_below _).trans (ensureCurrentLineInitialized_below t)
    · exact ensureCurrentLineInitialized_below t

theorem feed_below (t : TermState) (token : Token) : (t.feed token).below = t.below := by
  cases token with
  | char c => exact putOutputChar_below c t
  | colour attr => rfl

theorem foldl_feed_below (tokens : List Token) (t : TermState) :
    (tokens.foldl TermState.feed t).below = t.below := by
  induction tokens generalizing t with
  | nil => rfl
  | cons token tokens ih => rw [List.foldl_cons, ih, feed_below]

/-- `terminal_write` feeds the tokens of its string one after another. -/
theorem writeLoop_eq_foldl {s : Mem} {rounds i : Nat} {rest : List UInt8} {t : TermState}
    (hs : HoldsAt s i rest) (hrounds : rest.length < rounds) :
    writeLoop s rounds i t = (tokensFrom t.theme 0 rest).foldl TermState.feed t := by
  induction rounds generalizing t i rest with
  | zero => exact absurd hrounds (Nat.not_lt_zero _)
  | succ rounds ih =>
      unfold Terminal.writeLoop
      cases rest with
      | nil =>
          rw [if_pos (show s i = 0 from hs.nul)]
          rfl
      | cons c rest =>
          rw [if_neg (hs.ne_zero (List.cons_ne_nil _ _)), parseAnsiCode_eq hs, tokensFrom]
          rw [List.length_cons] at hrounds
          cases hfind : (colourCodes t.theme).find? fun code => code.1.isPrefixOf (c :: rest) with
          | some code =>
              have hpos := length_pos_of_find hfind
              have hstarts := (List.find?_eq_some_iff_append.mp hfind).1
              obtain ⟨behind, hbehind⟩ := List.isPrefixOf_iff_prefix.mp hstarts
              have hlength := congrArg List.length hbehind
              rw [List.length_append, List.length_cons] at hlength
              have hdrop : rest.drop (code.1.length - 1) = behind := by
                have hcons : (c :: rest).drop code.1.length = behind := by simp [← hbehind]
                rwa [← Nat.succ_pred_eq_of_pos hpos, List.drop_succ_cons] at hcons
              simp only [Option.map_some, tokensFrom_skip t.theme (code.1.length - 1), hdrop,
                List.foldl_cons]
              exact ih (HoldsAt.of_append (hbehind ▸ hs)) (by omega)
          | none =>
              have htheme : (putOutputChar c t).theme = t.theme :=
                congrArg (·.1) (putOutputChar_below c t)
              simp only [Option.map_none, List.foldl_cons]
              rw [hs.head, ih hs.tail (by omega), htheme]
              rfl

/-! ## The row with the input -/

/-- The bytes of a string in an array with a NUL, and the NUL. -/
theorem getD_str {n : Nat} (b : Buffer n) (hnul : 0 ∈ b.bytes) {i : Nat} (hi : i ≤ b.str.length) :
    b.bytes.getD i 0 = b.str.getD i 0 := by
  have hsplit : b.str ++ b.bytes.dropWhile (· ≠ 0) = b.bytes := List.takeWhile_append_dropWhile
  rcases Nat.lt_or_eq_of_le hi with hlt | rfl
  · conv_lhs => rw [← hsplit]
    rw [List.getD_append _ _ _ _ hlt]
  · have hhead : b.bytes.dropWhile (· ≠ 0) ≠ [] := by
      simpa [List.dropWhile_eq_nil_iff] using hnul
    have hzero := List.head_dropWhile_not (fun c : UInt8 => decide (c ≠ 0)) hhead
    conv_lhs => rw [← hsplit]
    rw [List.getD_append_right _ _ _ _ le_rfl, Nat.sub_self]
    cases hdrop : b.bytes.dropWhile (· ≠ 0) with
    | nil => exact absurd hdrop hhead
    | cons c rest => simp_all

/-- The loop over the prompt draws it and stops behind it. -/
theorem promptLoop_row {prompt : Buffer 32} (hnul : 0 ∈ prompt.bytes) (attr : UInt8) :
    ∀ {rounds col : Nat} {vga : Nat → UInt16},
      col ≤ prompt.str.length → prompt.str.length ≤ col + rounds →
      (promptLoop prompt attr rounds col vga).1 = prompt.str.length ∧
        ∀ x, (promptLoop prompt attr rounds col vga).2 (termOutputRows * termWidth + x) =
          if col ≤ x ∧ x < prompt.str.length then vgaEntry (prompt.str.getD x 0) attr
          else vga (termOutputRows * termWidth + x) := by
  have hshort : prompt.str.length < 32 := prompt.length_str_lt hnul
  intro rounds
  induction rounds with
  | zero =>
      intro col vga hcol hend
      rw [promptLoop]
      refine ⟨by dsimp only; omega, fun x => ?_⟩
      rw [if_neg (by omega)]
  | succ rounds ih =>
      intro col vga hcol hend
      rw [promptLoop, getD_str prompt hnul hcol]
      rcases Nat.lt_or_eq_of_le hcol with hlt | hlast
      · have hne : prompt.str.getD col 0 ≠ 0 := by
          rw [List.getD_eq_getElem _ _ hlt]
          exact fun hzero => prompt.no_nul_str (hzero ▸ List.getElem_mem hlt)
        rw [if_pos ⟨hne, by simp only [termWidth]; omega⟩]
        obtain ⟨hstop, hcells⟩ := @ih (col + 1) (Function.update vga
          (termOutputRows * termWidth + col) (vgaEntry (prompt.str.getD col 0) attr))
          (by omega) (by omega)
        refine ⟨hstop, fun x => ?_⟩
        rw [hcells]
        by_cases hx : x = col
        · rw [if_neg (by omega), if_pos (by omega), hx, Function.update_self]
        · rw [Function.update_of_ne (by omega)]
          by_cases hin : col + 1 ≤ x ∧ x < prompt.str.length
          · rw [if_pos hin, if_pos (by omega)]
          · rw [if_neg hin, if_neg (by omega)]
      · rw [if_neg (by simp [hlast])]
        exact ⟨hlast, fun x => by rw [if_neg (by omega)]⟩

/-- The loop over the input draws what of it fits behind the prompt. -/
theorem inputLoop_row (input : Buffer 128) (len : Nat) (attr : UInt8) :
    ∀ {rounds i col : Nat} {vga : Nat → UInt16}, termWidth ≤ col + rounds →
      ∀ x < termWidth,
        inputLoop input len attr rounds i col vga (termOutputRows * termWidth + x) =
          if col ≤ x ∧ x - col + i < len then vgaEntry (input.bytes.getD (x - col + i) 0) attr
          else vga (termOutputRows * termWidth + x) := by
  intro rounds
  induction rounds with
  | zero =>
      intro i col vga hend x hx
      rw [inputLoop, if_neg (by omega)]
  | succ rounds ih =>
      intro i col vga hend x hx
      rw [inputLoop]
      split
      · rw [ih (by omega) x hx]
        by_cases hfirst : x = col
        · subst hfirst
          rw [if_neg (by omega), if_pos (by omega), Function.update_self, Nat.sub_self,
            Nat.zero_add]
        · rw [Function.update_of_ne (by omega)]
          by_cases hin : col + 1 ≤ x ∧ x - (col + 1) + (i + 1) < len
          · have hsame : x - (col + 1) + (i + 1) = x - col + i := by omega
            rw [if_pos hin, if_pos (by omega), hsame]
          · rw [if_neg hin, if_neg (by omega)]
      · rw [if_neg (by omega)]

/-- The row with the input: the prompt, the input, and blanks. -/
theorem renderInput_row (t : TermState) (hnul : 0 ∈ t.prompt.bytes) (vga : Nat → UInt16) {x : Nat}
    (hx : x < termWidth) : renderInput t vga (termOutputRows * termWidth + x) =
      if x < t.prompt.str.length then
        vgaEntry (t.prompt.str.getD x 0) (themeAttr t.theme.fgPrompt t.theme.bg)
      else if x - t.prompt.str.length < t.inputLen then
        vgaEntry (t.input.bytes.getD (x - t.prompt.str.length) 0)
          (themeAttr t.theme.fgInput t.theme.bg)
      else vgaEntry 32 (themeAttr t.theme.fgInput t.theme.bg) := by
  have hshort : t.prompt.str.length < 32 := t.prompt.length_str_lt hnul
  unfold renderInput
  dsimp only
  generalize hblank : forLoop termWidth _ vga = blank
  have hfilled : blank (termOutputRows * termWidth + x)
      = vgaEntry 32 (themeAttr t.theme.fgInput t.theme.bg) := by
    rw [← hblank]
    refine forLoop_touched (fun vga : Nat → UInt16 => vga (termOutputRows * termWidth + x)) hx
      (fun vga => Function.update_self ..) fun col _ hne vga => ?_
    exact Function.update_of_ne (by omega) ..
  obtain ⟨hstop, hprompt⟩ := @promptLoop_row t.prompt hnul (themeAttr t.theme.fgPrompt t.theme.bg)
    termWidth 0 blank (Nat.zero_le _) (by simp only [termWidth]; omega)
  rw [inputLoop_row _ _ _ (Nat.le_add_left _ _) x hx, hstop, hprompt x, hfilled]
  by_cases hin : x < t.prompt.str.length
  · rw [if_neg (by omega), if_pos (by omega), if_pos hin]
  · rw [if_neg (by omega : ¬ (0 ≤ x ∧ x < t.prompt.str.length)), if_neg hin]
    by_cases htext : x - t.prompt.str.length < t.inputLen
    · rw [if_pos (by omega), if_pos htext, Nat.add_zero]
    · rw [if_neg (by omega), if_neg htext]

section Below

variable {i : Nat} (hi : (termOutputRows + 1) * termWidth ≤ i)

include hi

theorem promptLoop_below (prompt : Buffer 32) (attr : UInt8) (rounds col : Nat)
    (vga : Nat → UInt16) : (promptLoop prompt attr rounds col vga).2 i = vga i := by
  induction rounds generalizing col vga with
  | zero => rfl
  | succ rounds ih =>
      rw [promptLoop]
      split
      · rw [ih, Function.update_of_ne (by simp only [termWidth] at *; omega)]
      · rfl

theorem inputLoop_below (input : Buffer 128) (len : Nat) (attr : UInt8) (rounds j col : Nat)
    (vga : Nat → UInt16) : inputLoop input len attr rounds j col vga i = vga i := by
  induction rounds generalizing j col vga with
  | zero => rfl
  | succ rounds ih =>
      rw [inputLoop]
      split
      · rw [ih, Function.update_of_ne (by simp only [termWidth] at *; omega)]
      · rfl

/-- Drawing the input leaves what is below its row alone. -/
theorem renderInput_below (t : TermState) (vga : Nat → UInt16) : renderInput t vga i = vga i := by
  unfold renderInput
  dsimp only
  rw [inputLoop_below hi, promptLoop_below hi]
  refine forLoop_untouched (fun vga : Nat → UInt16 => vga i)
    fun col hcol vga => Function.update_of_ne ?_ ..
  simp only [termWidth] at hi hcol ⊢
  omega

end Below

/-! ## The row with the status -/

theorem renderStatus_row (t : TermState) (vga : Nat → UInt16) {x : Nat} (hx : x < termWidth) :
    renderStatus t vga ((termHeight - 1) * termWidth + x) =
      vgaEntry (if t.status.bytes.getD x 0 ≠ 0 then t.status.bytes.getD x 0 else 32)
        (themeAttr t.theme.fgStatus 1) := by
  unfold renderStatus
  refine forLoop_touched (fun vga : Nat → UInt16 => vga ((termHeight - 1) * termWidth + x)) hx
    (fun vga => Function.update_self ..) fun col _ hne vga => ?_
  exact Function.update_of_ne (by omega) ..

/-- Drawing the status leaves the other rows alone. -/
theorem renderStatus_other (t : TermState) (vga : Nat → UInt16) {i : Nat}
    (hi : i < (termHeight - 1) * termWidth ∨ termHeight * termWidth ≤ i) :
    renderStatus t vga i = vga i := by
  unfold renderStatus
  refine forLoop_untouched (fun vga : Nat → UInt16 => vga i)
    fun col hcol vga => Function.update_of_ne ?_ ..
  simp only [termHeight, termWidth] at hi hcol ⊢
  omega

end RoninOS.Terminal
