/-
RoninOS.Shell.Words — what `parse_args` makes of any line.

`words` splits a list of bytes: a word ends at a blank, or it starts with a double
quote and ends at the next one, and what follows a closing quote is the next word. The
loops of `parse_args` find these words in place (`parseLoop_words`), for lines that no
list of arguments spells too: an open quote runs to the end of the line, and a quote
inside a word is a byte like any other.
-/
import RoninOS.Shell.CommandsTheorems

namespace RoninOS.Shell

open RoninOS.Lib

/-! ## Words -/

/-- A word up to the byte that stops it, and what is behind that byte. -/
def upTo (stop : UInt8 → Bool) (line : List UInt8) : List UInt8 × List UInt8 :=
  (line.takeWhile (stop · = false), (line.dropWhile (stop · = false)).tail)

/-- The first word of a line that does not start with a blank. -/
def nextWord : List UInt8 → List UInt8 × List UInt8
  | [] => ([], [])
  | c :: rest => if c = quote then upTo (· == quote) rest else upTo isBlank (c :: rest)

/-- The words of a line, in as many rounds. -/
def wordsFrom : Nat → List UInt8 → List (List UInt8)
  | 0, _ => []
  | rounds + 1, line =>
      let line := line.dropWhile isBlank
      if line = [] then [] else (nextWord line).1 :: wordsFrom rounds (nextWord line).2

/-- The words of a line. -/
def words (line : List UInt8) : List (List UInt8) := wordsFrom line.length line

theorem length_upTo (stop : UInt8 → Bool) (line : List UInt8) :
    (upTo stop line).2.length ≤ line.length - 1 := by
  have hle := (List.dropWhile_sublist (p := (stop · = false)) (l := line)).length_le
  rw [upTo, List.length_tail]
  omega

/-- A word takes a byte at least. -/
theorem length_nextWord : ∀ {line : List UInt8}, line ≠ [] → (nextWord line).2.length < line.length
  | c :: rest, _ => by
      have hquoted := length_upTo (· == quote) rest
      have hbare := length_upTo isBlank (c :: rest)
      rw [List.length_cons] at hbare ⊢
      rw [nextWord]
      split <;> omega

/-- A word has the bytes of the line. -/
theorem mem_nextWord {c : UInt8} : ∀ {line : List UInt8},
    c ∈ (nextWord line).1 ∨ c ∈ (nextWord line).2 → c ∈ line
  | [], h => by simp [nextWord] at h
  | d :: rest, h => by
      have hup : ∀ {stop : UInt8 → Bool} {line : List UInt8},
          c ∈ (upTo stop line).1 ∨ c ∈ (upTo stop line).2 → c ∈ line := by
        intro stop line h
        rcases h with hword | hbehind
        · exact List.takeWhile_subset _ hword
        · exact List.dropWhile_subset _ (List.mem_of_mem_tail hbehind)
      rw [nextWord] at h
      split at h
      · exact List.mem_cons_of_mem d (hup h)
      · exact hup h

/-- So do all words. -/
theorem mem_wordsFrom {c : UInt8} {word : List UInt8} (hc : c ∈ word) : ∀ {rounds : Nat}
    {line : List UInt8}, word ∈ wordsFrom rounds line → c ∈ line := by
  intro rounds
  induction rounds with
  | zero => exact fun hword => absurd hword List.not_mem_nil
  | succ rounds ih =>
      intro line hword
      rw [wordsFrom] at hword
      split at hword
      · exact absurd hword List.not_mem_nil
      · rcases List.mem_cons.mp hword with heq | hrest
        · exact List.dropWhile_subset _ (mem_nextWord (Or.inl (heq ▸ hc)))
        · exact List.dropWhile_subset _ (mem_nextWord (Or.inr (ih hrest)))

/-! ## One word -/

section Parse

variable {m : Mem} {p : Nat}

/-- What is left of a line at `p`: the first word is at `ptr` and ends before `p'`, where
the rest is. -/
structure Cut (m : Mem) (p : Nat) (line : List UInt8) (ptr : Nat) (word : List UInt8) (m' : Mem)
    (p' : Nat) (rest : List UInt8) : Prop where
  le_ptr : p ≤ ptr
  holds_word : HoldsAt m' ptr word
  word_le : ptr + word.length ≤ p'
  holds_rest : HoldsAt m' p' rest
  rest_le : p' + rest.length ≤ p + line.length
  frame : Frame p m m'

/-- `scanTo` and the write behind it. -/
theorem scanTo_upTo {stop : UInt8 → Bool} {line : List UInt8} (h : HoldsAt m p line) :
    ∃ m' p', (∀ fuel, line.length < fuel → ∃ q, scanTo stop fuel m p = some q ∧
        (if m q ≠ 0 then (Function.update m q 0, q + 1) else (m, q)) = (m', p') ∧
        (m q ≠ 0 → stop (m q) = true)) ∧
      Cut m p line p (upTo stop line).1 m' p' (upTo stop line).2 := by
  have hsplit : line.takeWhile (stop · = false) ++ line.dropWhile (stop · = false) = line :=
    List.takeWhile_append_dropWhile
  have hword : ∀ c ∈ line.takeWhile (stop · = false), stop c = false :=
    fun c hc => by simpa using List.mem_takeWhile_imp hc
  have hrest : ∀ c ∈ (line.dropWhile (stop · = false)).head?, stop c = true := by
    intro c hc
    have hne := List.head?_dropWhile_not (stop · = false) line
    rw [Option.mem_def.mp hc] at hne
    simpa using hne
  rw [upTo]
  generalize line.takeWhile (stop · = false) = word at hsplit hword
  generalize line.dropWhile (stop · = false) = rest at hsplit hrest
  subst hsplit
  have hscan : ∀ fuel, (word ++ rest).length < fuel →
      scanTo stop fuel m p = some (p + word.length) := fun fuel hfuel =>
    scanTo_eq hword hrest h (by rw [List.length_append] at hfuel; omega)
  rcases h.behind with ⟨rfl, hnul⟩ | ⟨c, cs, rfl, hc, hc0⟩
  · refine ⟨m, p + word.length, fun fuel hfuel => ⟨_, hscan fuel hfuel, ?_, ?_⟩, ?_⟩
    · rw [if_neg (not_not.mpr hnul)]
    · exact fun hne => absurd hnul hne
    · rw [List.append_nil] at h ⊢
      exact ⟨le_rfl, h, le_rfl, holdsAt_nil hnul, le_rfl, .refl⟩
  · refine ⟨Function.update m (p + word.length) 0, p + word.length + 1,
      fun fuel hfuel => ⟨_, hscan fuel hfuel, ?_, ?_⟩, ?_⟩
    · rw [if_pos (hc ▸ hc0)]
    · exact fun _ => hc ▸ hrest c rfl
    · refine ⟨le_rfl, ?_, Nat.le_succ _, ?_, by simp; omega, .cut (Nat.le_add_right _ _)⟩
      · exact h.cut (fun q _ hq => Function.update_of_ne (by omega) _ _) (Function.update_self ..)
      · exact h.of_append.tail.congr fun q hq _ => Function.update_of_ne (by omega) _ _

/-- `takeArg` takes the next word. -/
theorem takeArg_word {line : List UInt8} (hne : line ≠ []) (h : HoldsAt m p line) :
    ∃ ptr m' p', (∀ fuel, line.length < fuel → takeArg fuel m p = some (ptr, m', p')) ∧
      Cut m p line ptr (nextWord line).1 m' p' (nextWord line).2 := by
  obtain ⟨c, rest, rfl⟩ := List.exists_cons_of_ne_nil hne
  have hc : m p = c := h.head
  rw [nextWord]
  by_cases hquote : c = quote
  · obtain ⟨m', p', hscan, hcut⟩ := @scanTo_upTo m (p + 1) (· == quote) rest h.tail
    refine ⟨p + 1, m', p', fun fuel hfuel => ?_, ?_⟩
    · rw [List.length_cons] at hfuel
      obtain ⟨q, hq, hwrite, hstop⟩ := hscan fuel (by omega)
      rw [takeArg, if_pos (hc.trans hquote), hq, Option.map_some]
      split at hwrite
      · rename_i hne
        rw [if_pos (by simpa using hstop hne), (Prod.mk.inj hwrite).1, (Prod.mk.inj hwrite).2]
      · rename_i hnul
        rw [if_neg (by rw [not_not.mp hnul]; decide), (Prod.mk.inj hwrite).1,
          (Prod.mk.inj hwrite).2]
    · rw [if_pos hquote]
      refine ⟨Nat.le_succ p, hcut.holds_word, hcut.word_le, hcut.holds_rest, ?_, ?_, hcut.frame.nul⟩
      · have hle := hcut.rest_le
        rw [List.length_cons]
        omega
      · exact fun q hq => hcut.frame.below q (by omega)
  · obtain ⟨m', p', hscan, hcut⟩ := @scanTo_upTo m p isBlank (c :: rest) h
    refine ⟨p, m', p', fun fuel hfuel => ?_, ?_⟩
    · obtain ⟨q, hq, hwrite, -⟩ := hscan fuel hfuel
      rw [takeArg, if_neg (hc ▸ hquote), hq, Option.map_some]
      split at hwrite
      · rename_i hne
        rw [if_pos hne, (Prod.mk.inj hwrite).1, (Prod.mk.inj hwrite).2]
      · rename_i hnul
        rw [if_neg hnul, (Prod.mk.inj hwrite).1, (Prod.mk.inj hwrite).2]
    · rw [if_neg hquote]
      exact hcut

/-! ## All words -/

/-- What is behind the blanks of a line starts with no blank. -/
theorem not_blank_head (line : List UInt8) :
    ∀ c ∈ (line.dropWhile isBlank).head?, isBlank c = false := by
  intro c hc
  have hne := List.head?_dropWhile_not isBlank line
  rw [Option.mem_def.mp hc] at hne
  simpa using hne

/-- Where the loop stops no word is left that there is room for. -/
theorem words_of_stop {m : Mem} {p n maxArgv rounds : Nat} {line : List UInt8}
    (hholds : HoldsAt m p line) (hstop : ¬ (m p ≠ 0 ∧ n < maxArgv)) :
    (wordsFrom rounds line).take (maxArgv - n) = [] := by
  by_cases hnil : line = []
  · subst hnil
    cases rounds with
    | zero => simp [wordsFrom]
    | succ rounds => simp [wordsFrom]
  · have hfull : ¬ n < maxArgv := fun hlt => hstop ⟨hholds.ne_zero hnil, hlt⟩
    rw [Nat.sub_eq_zero_of_le (not_lt.mp hfull), List.take_zero]

/-- One round of the loop, with a word behind the blanks. -/
theorem parseLoop_round {m m₁ m₂ : Mem} {p p₁ p₂ ptr maxArgv fuel : Nat} {argv : List Nat}
    (hgo : m p ≠ 0 ∧ argv.length < maxArgv) (hskip : skipBlanks fuel m p = some (m₁, p₁))
    (hne : m₁ p₁ ≠ 0) (htake : takeArg fuel m₁ p₁ = some (ptr, m₂, p₂)) :
    parseLoop maxArgv (fuel + 1) m argv p = parseLoop maxArgv fuel m₂ (argv ++ [ptr]) p₂ := by
  rw [parseLoop, if_pos hgo, hskip, Option.bind_some]
  dsimp only
  rw [if_neg hne, htake, Option.bind_some]

/-- `parse_args` finds the words in place, as many as there is room for. -/
theorem parseLoop_words {maxArgv : Nat} : ∀ {rounds : Nat} {line : List UInt8} {m : Mem} {p : Nat}
    (argv : List Nat), line.length ≤ rounds → HoldsAt m p line →
    p + line.length < commandBufSize →
    ∃ ptrs m', (∀ fuel, line.length + 1 < fuel →
        parseLoop maxArgv fuel m argv p = some (argv ++ ptrs, m')) ∧
      List.Forall₂ (Points m') ptrs ((wordsFrom rounds line).take (maxArgv - argv.length)) ∧
      Frame p m m' := by
  intro rounds
  induction rounds with
  | zero =>
      intro line m p argv hlen hholds _
      obtain rfl := List.length_eq_zero_iff.mp (Nat.le_zero.mp hlen)
      have hnul : m p = 0 := hholds.nul
      refine ⟨[], m, fun fuel hfuel => ?_, by simp [wordsFrom], .refl⟩
      rw [parseLoop_stop (Nat.zero_lt_of_lt hfuel) fun hgo => hgo.1 hnul, List.append_nil]
  | succ rounds ih =>
      intro line m p argv hlen hholds hfit
      by_cases hgo : m p ≠ 0 ∧ argv.length < maxArgv
      · -- the blanks, then a word or the end of the line
        have hsplit : line.takeWhile isBlank ++ line.dropWhile isBlank = line :=
          List.takeWhile_append_dropWhile
        have hblanks : AllBlank (line.takeWhile isBlank) := fun c hc => List.mem_takeWhile_imp hc
        have hhead := not_blank_head line
        simp only [wordsFrom]
        generalize line.takeWhile isBlank = blanks at hsplit hblanks
        generalize line.dropWhile isBlank = rest at hsplit hhead
        subst hsplit
        rw [List.length_append] at hlen hfit
        obtain ⟨m₁, hskip, hholds₁, hframe₁⟩ := skipBlanks_spec hblanks hhead hholds
        by_cases hnil : rest = []
        · subst hnil
          refine ⟨[], m₁, fun fuel hfuel => ?_, by simp, hframe₁⟩
          obtain ⟨fuel, rfl⟩ := Nat.exists_eq_succ_of_ne_zero (Nat.ne_zero_of_lt hfuel)
          rw [List.length_append] at hfuel
          rw [parseLoop, if_pos hgo, hskip fuel (by omega), Option.bind_some, List.append_nil]
          exact if_pos hholds₁.nul
        · obtain ⟨ptr, m₂, p₂, htake, hcut⟩ := takeArg_word hnil hholds₁
          have hptr := hcut.le_ptr
          have hword := hcut.word_le
          have hrest := hcut.rest_le
          have hshort := length_nextWord hnil
          obtain ⟨ptrs, m', hrun, hpoints, hframe'⟩ :=
            ih (argv ++ [ptr]) (by omega) hcut.holds_rest (by omega)
          refine ⟨ptr :: ptrs, m', fun fuel hfuel => ?_, ?_, ?_⟩
          · obtain ⟨fuel, rfl⟩ := Nat.exists_eq_succ_of_ne_zero (Nat.ne_zero_of_lt hfuel)
            rw [List.length_append] at hfuel
            rw [parseLoop_round hgo (hskip fuel (by omega)) (hholds₁.ne_zero hnil)
              (htake fuel (by omega)), hrun fuel (by omega), List.append_assoc,
              List.singleton_append]
          · obtain ⟨k, hk⟩ : ∃ k, maxArgv - argv.length = k + 1 :=
              ⟨maxArgv - argv.length - 1, by omega⟩
            have hk' : maxArgv - (argv ++ [ptr]).length = k := by
              rw [List.length_append, List.length_singleton]
              omega
            rw [hk'] at hpoints
            rw [if_neg hnil, hk, List.take_succ_cons]
            exact .cons ⟨hframe'.holdsAt hcut.holds_word hword, by omega⟩ hpoints
          · exact hframe₁.trans (Nat.le_add_right _ _) (hcut.frame.trans (by omega) hframe')
      · refine ⟨[], m, fun fuel hfuel => ?_, ?_, .refl⟩
        · rw [parseLoop_stop (by omega) hgo, List.append_nil]
        · rw [words_of_stop hholds hgo]
          exact .nil

end Parse

/-! ## Any line -/

/-- The bytes of a row behind what is copied do not count. -/
theorem loadBytes_congr {row row' : Mem} : ∀ {rounds i : Nat} {buf : Mem},
    (∀ k, i ≤ k → k < i + rounds → row k = row' k) →
    loadBytes row rounds i buf = loadBytes row' rounds i buf := by
  intro rounds
  induction rounds with
  | zero => intro i buf _; rfl
  | succ rounds ih =>
      intro i buf hsame
      rw [loadBytes, loadBytes, hsame i le_rfl (by omega),
        ih fun k hk hlt => hsame k (by omega) (by omega)]

/-- The copy that `shell_execute_line` makes of any line. -/
theorem copied_take {src : Mem} {line : List UInt8} (hsrc : HoldsStr src line) (buf : Mem) :
    let copied := loadBytes src (commandBufSize - 1) 0 buf
    HoldsStr (Function.update copied.1 copied.2 0) (line.take (commandBufSize - 1)) := by
  have hsize : commandBufSize = 128 := rfl
  by_cases hlen : line.length < commandBufSize
  · rw [List.take_of_length_le (Nat.le_sub_one_of_lt hlen)]
    exact copied_holds hsrc hlen
  · -- the rest of the line is not read
    have hcut : HoldsStr (Function.update src (commandBufSize - 1) 0)
        (line.take (commandBufSize - 1)) := by
      have htake : (line.take (commandBufSize - 1)).length = commandBufSize - 1 := by
        rw [List.length_take]
        omega
      have hline : HoldsAt src 0 (line.take (commandBufSize - 1) ++
          line.drop (commandBufSize - 1)) := by
        rw [List.take_append_drop]
        simpa only [HoldsAt, Nat.zero_add] using hsrc
      have hcut := @HoldsAt.cut src (Function.update src (commandBufSize - 1) 0) _ _ _ hline
        (fun q _ hq => Function.update_of_ne (by omega) _ _)
        (by rw [Nat.zero_add, htake, Function.update_self])
      simpa only [HoldsAt, Nat.zero_add] using hcut
    have hsame : loadBytes src (commandBufSize - 1) 0 buf
        = loadBytes (Function.update src (commandBufSize - 1) 0) (commandBufSize - 1) 0 buf :=
      loadBytes_congr fun k _ hk => (Function.update_of_ne (by omega) _ _).symm
    rw [hsame]
    exact copied_holds hcut (by rw [List.length_take]; omega)

/-- On any line `parse_args` points to the first 16 words of its first 127 bytes. -/
theorem executeArgs_points {src : Mem} {line : List UInt8} (hsrc : HoldsStr src line) (buf : Mem) :
    ∃ argv buf', (∀ fuel, 128 < fuel → executeArgs fuel src buf = some (argv, buf')) ∧
      List.Forall₂ (Points buf') argv
        ((words (line.take (commandBufSize - 1))).take commandMaxArgv) := by
  have hcopied := copied_take hsrc buf
  have hlen : (line.take (commandBufSize - 1)).length ≤ 127 := List.length_take_le _ _
  have hfit : 0 + (line.take (commandBufSize - 1)).length < commandBufSize := by
    have hsize : commandBufSize = 128 := rfl
    omega
  have hholds : HoldsAt (Function.update (loadBytes src (commandBufSize - 1) 0 buf).1
      (loadBytes src (commandBufSize - 1) 0 buf).2 0) 0 (line.take (commandBufSize - 1)) := by
    simpa only [HoldsAt, Nat.zero_add] using hcopied
  obtain ⟨argv, buf', hrun, hpoints, -⟩ :=
    @parseLoop_words commandMaxArgv _ _ _ _ [] le_rfl hholds hfit
  exact ⟨argv, buf', fun fuel hfuel => hrun fuel (by omega), hpoints⟩

/-- The strings of pointers. -/
theorem map_argString {m : Mem} {argv : List Nat} {args : List (List UInt8)}
    (h : List.Forall₂ (Points m) argv args) : argv.map (argString m) = args := by
  have hmap : List.Forall₂ (· = ·) (argv.map (argString m)) args :=
    List.forall₂_map_left_iff.mpr (h.imp fun _ _ hptr => hptr.argString_eq)
  exact List.forall₂_eq_eq_eq ▸ hmap

/-- **Parsing.** `shell_execute_line` makes of every line, of any length and with quotes
anywhere, the first 16 words of its first 127 bytes, and every entry of `argv` ends at a
NUL inside the buffer. -/
theorem parse_any_line {src : Mem} {line : List UInt8} (hsrc : HoldsStr src line) (buf : Mem) :
    ∃ argv buf', (∀ fuel, 128 < fuel → executeArgs fuel src buf = some (argv, buf')) ∧
      argv.map (argString buf') = (words (line.take 127)).take 16 ∧
      ∀ ptr ∈ argv, ∃ i, ptr ≤ i ∧ i < 128 ∧ buf' i = 0 := by
  obtain ⟨argv, buf', hrun, hpoints⟩ := executeArgs_points hsrc buf
  refine ⟨argv, buf', hrun, map_argString hpoints, fun ptr hptr => ?_⟩
  obtain ⟨k, hk, rfl⟩ := List.mem_iff_getElem.mp hptr
  obtain ⟨hholds, hlt⟩ := hpoints.get hk (hpoints.length_eq ▸ hk)
  exact ⟨_, Nat.le_add_right _ _, hlt, hholds.nul⟩

/-- `cat a"b "/x y`: a quote inside a word, and one that nothing closes. -/
theorem parse_any_line_open : ∃ argv buf,
    executeArgs 129 (fun i => (ascii "cat a\"b \"/x y").getD i 0) (fun _ => 0) = some (argv, buf) ∧
      argv.map (argString buf) = [ascii "cat", ascii "a\"b", ascii "/x y"] := by
  have hholds : HoldsStr (fun i => (ascii "cat a\"b \"/x y").getD i 0) (ascii "cat a\"b \"/x y") :=
    ⟨by decide, fun i hi => List.getD_eq_getElem _ _ hi, by decide⟩
  obtain ⟨argv, buf, hrun, hargs, -⟩ := parse_any_line hholds fun _ => 0
  exact ⟨argv, buf, hrun 129 (by decide), hargs.trans (by decide)⟩

end RoninOS.Shell
