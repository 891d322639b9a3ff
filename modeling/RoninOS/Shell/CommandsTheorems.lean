/-
RoninOS.Shell.CommandsTheorems — `parse_args` undoes quoting.

`Renders args line` says how a line spells its arguments: each bare or between
double quotes, with blanks between them. The loop of `parse_args` is at a place
where the memory holds the rest of the line; `takeArg_spec` is one argument: it
is cut off, what is left spells the others, and the bytes before it and the NULs
stay (`Frame`). So the arguments cut off before are never touched again, and
`parseLoop_renders` is the induction over the arguments.
-/
import RoninOS.Shell.Commands
import RoninOS.Shell.ShellTheorems
import Mathlib.Data.List.Forall2

namespace RoninOS.Shell

open RoninOS.Lib

/-! ## Spelling -/

/-- Blanks only. -/
def AllBlank (xs : List UInt8) : Prop := ∀ c ∈ xs, isBlank c = true

/-- The end of the line or a blank. -/
def SepStart (xs : List UInt8) : Prop := ∀ c ∈ xs.head?, isBlank c = true

/-- One argument, without double quotes and NULs, bare or quoted. -/
inductive Spells (arg : List UInt8) : List UInt8 → Prop
  | bare : arg ≠ [] → (∀ c ∈ arg, c ≠ quote ∧ c ≠ 0 ∧ isBlank c = false) → Spells arg arg
  | quoted : (∀ c ∈ arg, c ≠ quote ∧ c ≠ 0) → Spells arg (quote :: (arg ++ [quote]))

/-- A line of arguments with blanks between them, before them and behind them. -/
inductive Renders : List (List UInt8) → List UInt8 → Prop
  | nil {blanks : List UInt8} : AllBlank blanks → Renders [] blanks
  | cons {blanks arg text rest : List UInt8} {args : List (List UInt8)} : AllBlank blanks →
      Spells arg text → SepStart rest → Renders args rest →
      Renders (arg :: args) (blanks ++ (text ++ rest))

theorem isBlank_quote : isBlank quote = false := by decide

theorem Spells.head {arg text : List UInt8} (h : Spells arg text) :
    ∃ c cs, text = c :: cs ∧ isBlank c = false := by
  cases h with
  | bare hne hall =>
      obtain ⟨c, cs, rfl⟩ := List.exists_cons_of_ne_nil hne
      exact ⟨c, cs, rfl, (hall c List.mem_cons_self).2.2⟩
  | quoted => exact ⟨quote, _, rfl, isBlank_quote⟩

/-- The separator may be shorter. -/
theorem Renders.tail {args : List (List UInt8)} {c : UInt8} {rest : List UInt8}
    (h : Renders args (c :: rest)) (hc : isBlank c = true) : Renders args rest := by
  generalize hline : c :: rest = line at h
  cases h with
  | nil hblanks =>
      subst hline
      exact .nil fun b hb => hblanks b (List.mem_cons_of_mem c hb)
  | @cons blanks arg text after args hblanks hspells hsep hafter =>
      cases blanks with
      | nil =>
          obtain ⟨d, ds, rfl, hd⟩ := hspells.head
          obtain rfl := (List.cons.inj hline).1
          rw [hc] at hd
          exact absurd hd (by decide)
      | cons b blanks =>
          rw [(List.cons.inj hline).2]
          exact .cons (fun b' hb' => hblanks b' (List.mem_cons_of_mem b hb')) hspells hsep hafter

/-! ## The loops -/

section Loops

variable {m m' : Mem} {p fuel : Nat} {xs rest : List UInt8}

/-- The bytes below a place and the NULs stay. -/
structure Frame (p : Nat) (m m' : Mem) : Prop where
  below : ∀ q < p, m' q = m q
  nul : ∀ q, m q = 0 → m' q = 0

theorem Frame.refl : Frame p m m := ⟨fun _ _ => rfl, fun _ h => h⟩

theorem Frame.trans {p₂ : Nat} {m₂ : Mem} (h : Frame p m m') (hp : p ≤ p₂) (h₂ : Frame p₂ m' m₂) :
    Frame p m m₂ :=
  ⟨fun q hq => (h₂.below q (by omega)).trans (h.below q hq), fun q hq => h₂.nul q (h.nul q hq)⟩

/-- A NUL is written. -/
theorem Frame.cut {q : Nat} (hq : p ≤ q) : Frame p m (Function.update m q 0) := by
  refine ⟨fun x hx => Function.update_of_ne (by omega) _ _, fun x hx => ?_⟩
  by_cases heq : x = q
  · rw [heq, Function.update_self]
  · rwa [Function.update_of_ne heq]

/-- A string that ends at the place or before it stays. -/
theorem Frame.holdsAt {a : Nat} (h : Frame p m m') (hxs : HoldsAt m a xs)
    (hle : a + xs.length ≤ p) : HoldsAt m' a xs := by
  have hxs' : HoldsAt m a (xs ++ []) := by rwa [List.append_nil]
  exact hxs'.cut (fun q _ hq => h.below q (by omega)) (h.nul _ hxs.nul)

/-- `scanTo` stops at the first byte it looks for, or at the NUL. -/
theorem scanTo_eq {stop : UInt8 → Bool} (hxs : ∀ c ∈ xs, stop c = false)
    (hrest : ∀ c ∈ rest.head?, stop c = true) (h : HoldsAt m p (xs ++ rest))
    (hfuel : xs.length < fuel) : scanTo stop fuel m p = some (p + xs.length) := by
  induction xs generalizing p fuel with
  | nil =>
      obtain ⟨fuel, rfl⟩ := Nat.exists_eq_succ_of_ne_zero (Nat.ne_zero_of_lt hfuel)
      rw [scanTo, if_neg]
      · rfl
      · rintro ⟨hne, hstop⟩
        rcases h.behind with ⟨-, hnul⟩ | ⟨c, cs, rfl, hc, -⟩
        · exact hne hnul
        · have hc' : m p = c := hc
          rw [hc', hrest c rfl] at hstop
          exact absurd hstop (by decide)
  | cons c xs ih =>
      obtain ⟨fuel, rfl⟩ := Nat.exists_eq_succ_of_ne_zero (Nat.ne_zero_of_lt hfuel)
      have hc : m p = c := h.head
      have hne : c ≠ 0 := by
        rintro rfl
        exact h.noNul (by simp)
      rw [scanTo, if_pos ⟨hc ▸ hne, hc ▸ hxs c List.mem_cons_self⟩,
        ih (fun d hd => hxs d (List.mem_cons_of_mem c hd)) h.tail (Nat.lt_of_succ_lt_succ hfuel),
        List.length_cons, Nat.add_assoc, Nat.add_comm 1]

/-- `skipBlanks` overwrites blanks up to something else. -/
theorem skipBlanks_spec (hxs : AllBlank xs) (hrest : ∀ c ∈ rest.head?, isBlank c = false)
    (h : HoldsAt m p (xs ++ rest)) :
    ∃ m', (∀ fuel, xs.length < fuel → skipBlanks fuel m p = some (m', p + xs.length)) ∧
      HoldsAt m' (p + xs.length) rest ∧ Frame p m m' := by
  induction xs generalizing m p with
  | nil =>
      refine ⟨m, fun fuel hfuel => ?_, h, .refl⟩
      obtain ⟨fuel, rfl⟩ := Nat.exists_eq_succ_of_ne_zero (Nat.ne_zero_of_lt hfuel)
      have hblank : isBlank (m p) = false := by
        rcases h.behind with ⟨-, hnul⟩ | ⟨c, cs, rfl, hc, -⟩
        · have hnul' : m p = 0 := hnul
          rw [hnul']
          decide
        · have hc' : m p = c := hc
          rw [hc']
          exact hrest c rfl
      rw [skipBlanks, if_neg (by rw [hblank]; decide)]
      rfl
  | cons c xs ih =>
      have hc : m p = c := h.head
      have htail : HoldsAt (Function.update m p 0) (p + 1) (xs ++ rest) :=
        h.tail.congr fun q hq _ => Function.update_of_ne (by omega) _ _
      obtain ⟨m', hrun, hholds, hframe⟩ :=
        ih (fun d hd => hxs d (List.mem_cons_of_mem c hd)) htail
      have hlen : p + (c :: xs).length = p + 1 + xs.length := by
        rw [List.length_cons]
        omega
      refine ⟨m', fun fuel hfuel => ?_, hlen ▸ hholds,
        (Frame.cut (le_refl p)).trans (Nat.le_succ p) hframe⟩
      obtain ⟨fuel, rfl⟩ := Nat.exists_eq_succ_of_ne_zero (Nat.ne_zero_of_lt hfuel)
      rw [skipBlanks, if_pos (hc ▸ hxs c List.mem_cons_self),
        hrun fuel (Nat.lt_of_succ_lt_succ hfuel), hlen]

end Loops

/-! ## One argument -/

/-- What `takeArg` leaves behind: the argument is cut off before `p'`, from where the
memory holds the rest of the line, which spells the other arguments. -/
structure Taken (m : Mem) (p : Nat) (arg line : List UInt8) (args : List (List UInt8))
    (ptr : Nat) (m' : Mem) (p' : Nat) (rest : List UInt8) : Prop where
  runs : ∀ fuel, line.length < fuel → takeArg fuel m p = some (ptr, m', p')
  cut : HoldsAt m' ptr arg
  arg_le : ptr + arg.length ≤ p'
  holds : HoldsAt m' p' rest
  renders : Renders args rest
  length_eq : p' + rest.length = p + line.length
  lt : p < p'
  frame : Frame p m m'

theorem takeArg_spec {m : Mem} {p : Nat} {arg text rest : List UInt8} {args : List (List UInt8)}
    (hspells : Spells arg text) (hsep : SepStart rest) (hrest : Renders args rest)
    (h : HoldsAt m p (text ++ rest)) :
    ∃ ptr m' p' rest', Taken m p arg (text ++ rest) args ptr m' p' rest' := by
  cases hspells with
  | bare hne hall =>
      have hquote : m p ≠ quote := by
        obtain ⟨c, cs, rfl⟩ := List.exists_cons_of_ne_nil hne
        rw [HoldsAt.head h]
        exact (hall c List.mem_cons_self).1
      have hscan : ∀ fuel, (arg ++ rest).length < fuel →
          scanTo isBlank fuel m p = some (p + arg.length) := fun fuel hfuel =>
        scanTo_eq (fun c hc => (hall c hc).2.2) hsep h (by rw [List.length_append] at hfuel; omega)
      have hpos : 0 < arg.length := List.length_pos_of_ne_nil hne
      rcases h.behind with ⟨rfl, hnul⟩ | ⟨c, cs, rfl, hc, hc0⟩
      · exact ⟨p, m, p + arg.length, [],
          { runs := fun fuel hfuel => by
              rw [takeArg, if_neg hquote, hscan fuel hfuel, Option.map_some,
                if_neg (not_not.mpr hnul)]
            cut := by rwa [List.append_nil] at h
            arg_le := le_refl _
            holds := holdsAt_nil hnul
            renders := hrest
            length_eq := by simp
            lt := by omega
            frame := .refl }⟩
      · exact ⟨p, Function.update m (p + arg.length) 0, p + arg.length + 1, cs,
          { runs := fun fuel hfuel => by
              rw [takeArg, if_neg hquote, hscan fuel hfuel, Option.map_some, if_pos (hc ▸ hc0)]
            cut := h.cut (fun q _ hq => Function.update_of_ne (by omega) _ _)
              (Function.update_self ..)
            arg_le := Nat.le_succ _
            holds := h.of_append.tail.congr fun q hq _ => Function.update_of_ne (by omega) _ _
            renders := hrest.tail (hsep c rfl)
            length_eq := by
              simp
              omega
            lt := by omega
            frame := .cut (Nat.le_add_right _ _) }⟩
  | quoted hall =>
      have htext : quote :: (arg ++ [quote]) ++ rest = quote :: (arg ++ quote :: rest) := by simp
      rw [htext] at h ⊢
      have hquote : m p = quote := h.head
      have hbody : HoldsAt m (p + 1) (arg ++ quote :: rest) := h.tail
      have hclose : m (p + 1 + arg.length) = quote := hbody.of_append.head
      exact ⟨p + 1, Function.update m (p + 1 + arg.length) 0, p + 1 + arg.length + 1, rest,
        { runs := fun fuel hfuel => by
            have hscan : scanTo (· == quote) fuel m (p + 1) = some (p + 1 + arg.length) :=
              scanTo_eq (fun c hc => by simpa using (hall c hc).1) (by simp) hbody
                (by simp at hfuel; omega)
            rw [takeArg, if_pos hquote, hscan, Option.map_some, if_pos hclose]
          cut := hbody.cut (fun q _ hq => Function.update_of_ne (by omega) _ _)
            (Function.update_self ..)
          arg_le := Nat.le_succ _
          holds := hbody.of_append.tail.congr fun q hq _ => Function.update_of_ne (by omega) _ _
          renders := hrest
          length_eq := by
            simp
            omega
          lt := by omega
          frame := .cut (by omega) }⟩

/-! ## All arguments -/

/-- What the pointers of `argv` point to: strings within the array. -/
def Points (m : Mem) (ptr : Nat) (arg : List UInt8) : Prop :=
  HoldsAt m ptr arg ∧ ptr + arg.length < commandBufSize

theorem Points.argString_eq {m : Mem} {ptr : Nat} {arg : List UInt8} (h : Points m ptr arg) :
    argString m ptr = arg := by
  obtain ⟨hholds, hlt⟩ := h
  exact HoldsStr.strAt_eq hholds (by omega)

theorem parseLoop_stop {maxArgv p fuel : Nat} {m : Mem} {argv : List Nat} (hfuel : 0 < fuel)
    (h : ¬ (m p ≠ 0 ∧ argv.length < maxArgv)) :
    parseLoop maxArgv fuel m argv p = some (argv, m) := by
  obtain ⟨fuel, rfl⟩ := Nat.exists_eq_succ_of_ne_zero (Nat.ne_of_gt hfuel)
  rw [parseLoop, if_neg h]

/-- `parse_args` takes the arguments off the line, one after the other, as many as there is
room for. -/
theorem parseLoop_renders {maxArgv : Nat} {args : List (List UInt8)} :
    ∀ {line : List UInt8} {m : Mem} {p : Nat} (argv : List Nat), Renders args line →
    HoldsAt m p line → p + line.length < commandBufSize →
    ∃ ptrs m', (∀ fuel, line.length + 1 < fuel →
        parseLoop maxArgv fuel m argv p = some (argv ++ ptrs, m')) ∧
      List.Forall₂ (Points m') ptrs (args.take (maxArgv - argv.length)) ∧ Frame p m m' := by
  induction args with
  | nil =>
      intro line m p argv hrenders hholds hlen
      cases hrenders with
      | nil hblanks =>
          have hline : HoldsAt m p (line ++ []) := by rwa [List.append_nil]
          obtain ⟨m', hskip, hend, hframe⟩ := skipBlanks_spec hblanks (by simp) hline
          have hnul : m' (p + line.length) = 0 := hend.nul
          by_cases hgo : m p ≠ 0 ∧ argv.length < maxArgv
          · refine ⟨[], m', fun fuel hfuel => ?_, by simp, hframe⟩
            obtain ⟨fuel, rfl⟩ := Nat.exists_eq_succ_of_ne_zero (Nat.ne_zero_of_lt hfuel)
            rw [parseLoop, if_pos hgo, hskip fuel (by omega), Option.bind_some, List.append_nil]
            exact if_pos hnul
          · refine ⟨[], m, fun fuel hfuel => ?_, by simp, .refl⟩
            rw [parseLoop_stop (by omega) hgo, List.append_nil]
  | cons arg args ih =>
      intro line m p argv hrenders hholds hlen
      cases hrenders with
      | @cons blanks arg text rest args hblanks hspells hsep hrest =>
          obtain ⟨c, cs, htext, hc⟩ := hspells.head
          by_cases hroom : argv.length < maxArgv
          · have hgo : m p ≠ 0 ∧ argv.length < maxArgv :=
              ⟨hholds.ne_zero (by simp [htext]), hroom⟩
            obtain ⟨m₁, hskip, hholds₁, hframe₁⟩ :=
              skipBlanks_spec hblanks (by simp [htext, hc]) hholds
            obtain ⟨ptr, m₂, p₂, rest', htaken⟩ := takeArg_spec hspells hsep hrest hholds₁
            have hne : m₁ (p + blanks.length) ≠ 0 := hholds₁.ne_zero (by simp [htext])
            have hlen₂ := htaken.length_eq
            have hlt := htaken.lt
            simp only [List.length_append] at hlen hlen₂
            obtain ⟨ptrs, m', hrun, hpoints, hframe'⟩ :=
              ih (argv ++ [ptr]) htaken.renders htaken.holds (by omega)
            refine ⟨ptr :: ptrs, m', fun fuel hfuel => ?_, ?_, ?_⟩
            · obtain ⟨fuel, rfl⟩ := Nat.exists_eq_succ_of_ne_zero (Nat.ne_zero_of_lt hfuel)
              simp only [List.length_append] at hfuel
              rw [parseLoop, if_pos hgo, hskip fuel (by omega), Option.bind_some]
              dsimp only
              rw [if_neg hne, htaken.runs fuel (by rw [List.length_append]; omega),
                Option.bind_some]
              dsimp only
              rw [hrun fuel (by omega), List.append_assoc, List.singleton_append]
            · obtain ⟨k, hk⟩ : ∃ k, maxArgv - argv.length = k + 1 :=
                ⟨maxArgv - argv.length - 1, by omega⟩
              rw [hk, List.take_succ_cons]
              refine .cons ⟨hframe'.holdsAt htaken.cut htaken.arg_le, ?_⟩ ?_
              · have hle := htaken.arg_le
                omega
              · have hk' : maxArgv - (argv ++ [ptr]).length = k := by
                  rw [List.length_append, List.length_singleton]
                  omega
                rwa [hk'] at hpoints
            · exact hframe₁.trans (Nat.le_add_right _ _) (htaken.frame.trans hlt.le hframe')
          · refine ⟨[], m, fun fuel hfuel => ?_, ?_, .refl⟩
            · rw [parseLoop_stop (by omega) fun h => hroom h.2, List.append_nil]
            · rw [Nat.sub_eq_zero_of_le (Nat.not_lt.mp hroom), List.take_zero]
              exact .nil

/-- The copy that `shell_execute_line` makes of a line that fits. -/
theorem copied_holds {src buf : Mem} {line : List UInt8} (hsrc : HoldsStr src line)
    (hlen : line.length < commandBufSize) :
    let copied := loadBytes src (commandBufSize - 1) 0 buf
    HoldsStr (Function.update copied.1 copied.2 0) line := by
  intro copied
  obtain ⟨hend, hline⟩ := @loadBytes_holds buf src line hsrc (Nat.le_sub_one_of_lt hlen)
  have hend' : copied.2 = line.length := hend
  rw [hend']
  exact hline

/-- On a line that spells its arguments, `parse_args` returns them, or the first 16 of them:
on the line itself, and on the copy that `shell_execute_line` makes of it. -/
theorem parseArgs_undoes_quoting {args : List (List UInt8)} {line : List UInt8}
    (hrenders : Renders args line) (hlen : line.length ≤ 127) :
    (∀ buf, HoldsStr buf line → ∃ argv buf',
      (∀ fuel, 128 < fuel → parseArgs fuel buf commandMaxArgv = some (argv, buf')) ∧
      argv.map (argString buf') = args.take commandMaxArgv) ∧
    ∀ src buf, HoldsStr src line → ∃ argv buf',
      (∀ fuel, 128 < fuel → executeArgs fuel src buf = some (argv, buf')) ∧
      argv.map (argString buf') = args.take commandMaxArgv := by
  have hparse : ∀ buf, HoldsStr buf line → ∃ argv buf',
      (∀ fuel, 128 < fuel → parseArgs fuel buf commandMaxArgv = some (argv, buf')) ∧
      argv.map (argString buf') = args.take commandMaxArgv := by
    intro buf hbuf
    have hholds : HoldsAt buf 0 line := by
      simpa only [HoldsAt, Nat.zero_add] using hbuf
    have hfit : 0 + line.length < commandBufSize := by
      unfold commandBufSize
      omega
    obtain ⟨ptrs, buf', hrun, hpoints, -⟩ :=
      @parseLoop_renders commandMaxArgv args line buf 0 [] hrenders hholds hfit
    refine ⟨ptrs, buf', fun fuel hfuel => hrun fuel (by omega), ?_⟩
    have hmap : List.Forall₂ (· = ·) (ptrs.map (argString buf')) (args.take commandMaxArgv) :=
      List.forall₂_map_left_iff.mpr (hpoints.imp fun _ _ h => h.argString_eq)
    exact List.forall₂_eq_eq_eq ▸ hmap
  refine ⟨hparse, fun src buf hsrc => ?_⟩
  have hfit : line.length < commandBufSize := by
    unfold commandBufSize
    omega
  exact hparse _ (@copied_holds src buf line hsrc hfit)

/-- ` cp "a b"`, a tab and `""`. -/
def quotedLine : List UInt8 := [32, 99, 112, 32, 34, 97, 32, 98, 34, 9, 34, 34]

theorem parseArgs_undoes_quoting_cp : ∃ argv buf,
    executeArgs 129 (fun i => quotedLine.getD i 0) (fun _ => 0) = some (argv, buf) ∧
    argv.map (argString buf) = [ascii "cp", ascii "a b", []] := by
  have hblank : AllBlank [32] := by simp [AllBlank, isBlank]
  have hrenders : Renders [[99, 112], [97, 32, 98], []] quotedLine :=
    @Renders.cons [32] _ [99, 112] _ _ hblank (.bare (by simp) (by simp [quote, isBlank]))
      (by simp [SepStart, isBlank])
      (@Renders.cons [32] _ [34, 97, 32, 98, 34] _ _ hblank (.quoted (by simp [quote]))
        (by simp [SepStart, isBlank])
        (@Renders.cons [9] _ [34, 34] [] _ (by simp [AllBlank, isBlank]) (.quoted (by simp))
          (by simp [SepStart]) (.nil (by simp [AllBlank]))))
  have hholds : HoldsStr (fun i => quotedLine.getD i 0) quotedLine :=
    ⟨by decide, fun i hi => List.getD_eq_getElem _ _ hi, by decide⟩
  obtain ⟨argv, buf, hrun, hmap⟩ :=
    (parseArgs_undoes_quoting hrenders (by decide)).2 _ (fun _ => 0) hholds
  exact ⟨argv, buf, hrun 129 (by decide), hmap.trans (by decide)⟩

end RoninOS.Shell
