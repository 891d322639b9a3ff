/-
RoninOS.Input.KeyboardTheorems — the keyboard driver against a reference
set-1 decoder.

The reference reads the byte stream as a sequence of units: `0xE0` together
with the one byte after it, or one plain byte. A prefix belongs to its own
unit only, so the reference keeps no state but the modifiers. The driver
keeps the prefix in `g_e0`, sets it in `keyboard_isr` and clears it only in
`on_key_press`: a prefixed byte that is a release, a modifier or a second
`0xE0` leaves the flag set, and the next ordinary key is decoded from the
extended table.

`keyboardRun_parse` restates a run of the driver over the units of the
stream, with the flag as one Boolean. On units, driver and reference differ
only where an ordinary key follows a leaked prefix, and only for the keys
the two tables treat differently. Such a difference never cancels out later
in the stream: it always trades an event of positive `weight` for none, or
none for an event of negative `weight`, so the totals of the two event
sequences differ as well (`weight_unitsRun`).
-/
import RoninOS.Input.Keyboard
import Mathlib.Algebra.BigOperators.Group.List.Basic
import Mathlib.Algebra.Ring.Int.Defs
import Mathlib.Data.List.GetD

namespace RoninOS.Input

/-! ## The reference decoder -/

/-- One unit of a set-1 stream. -/
inductive ScanUnit
  | prefixed (sc : UInt8)
  | plain (sc : UInt8)
  deriving DecidableEq, Repr

/-- The units of a stream, left to right; a prefix at the very end has no
byte yet and is no unit. -/
def parseUnits : List UInt8 → List ScanUnit
  | [] => []
  | [sc] => if sc = 0xE0 then [] else [.plain sc]
  | sc :: sc' :: rest =>
      if sc = 0xE0 then .prefixed sc' :: parseUnits rest
      else .plain sc :: parseUnits (sc' :: rest)

/-- The byte is a press that `on_key_press` decodes: neither a release (nor
`0xE0`) nor a modifier. -/
def IsKeyPress (sc : UInt8) : Prop := sc &&& 0x80 = 0 ∧ pressMod sc = none

instance (sc : UInt8) : Decidable (IsKeyPress sc) := by
  unfold IsKeyPress; infer_instance

/-- The modifiers after a byte that is not a key press. -/
def modsAfter (mods sc : UInt8) : UInt8 :=
  if sc = 0xE0 then mods
  else if sc &&& 0x80 ≠ 0 then releaseMods mods (sc &&& 0x7F)
  else mods ||| (pressMod sc).getD 0

/-- The reference decoder over units. -/
def referenceRun : UInt8 → List ScanUnit → List KeyEvent
  | _, [] => []
  | mods, .prefixed sc :: us =>
      if IsKeyPress sc then extendedEvents mods sc ++ referenceRun mods us
      else referenceRun (modsAfter mods sc) us
  | mods, .plain sc :: us =>
      if IsKeyPress sc then plainEvents mods sc ++ referenceRun mods us
      else referenceRun (modsAfter mods sc) us

/-! ## The driver over units -/

/-- The driver over units; `sticky` is `g_e0 ≠ 0` between two units. -/
def unitsRun : Bool → UInt8 → List ScanUnit → List KeyEvent
  | _, _, [] => []
  | _, mods, .prefixed sc :: us =>
      if IsKeyPress sc then extendedEvents mods sc ++ unitsRun false mods us
      else unitsRun true (modsAfter mods sc) us
  | sticky, mods, .plain sc :: us =>
      if IsKeyPress sc then
        (if sticky then extendedEvents mods sc else plainEvents mods sc)
          ++ unitsRun false mods us
      else unitsRun sticky (modsAfter mods sc) us

/-- `0xE0` only sets the flag. -/
theorem keyboardIsr_prefix (k : Keyboard) :
    keyboardIsr k 0xE0 = ({ k with e0 := 1 }, []) := by
  simp [keyboardIsr]

/-- A byte that is not a key press emits nothing; it leaves the flag as it
is, or sets it when it is a prefix itself. -/
theorem keyboardIsr_notPress (k : Keyboard) {sc : UInt8} (h : ¬ IsKeyPress sc) :
    keyboardIsr k sc
      = ({ mods := modsAfter k.mods sc, e0 := if sc = 0xE0 then 1 else k.e0 }, []) := by
  unfold keyboardIsr modsAfter
  by_cases hE : sc = 0xE0
  · simp [hE]
  · by_cases hR : sc &&& 0x80 = 0
    · have hm : pressMod sc ≠ none := fun hn => h ⟨hR, hn⟩
      obtain ⟨m, hm⟩ := Option.ne_none_iff_exists'.mp hm
      simp [hE, hR, hm]
    · simp [hE, hR]

/-- A key press goes to `on_key_press`. -/
theorem keyboardIsr_press (k : Keyboard) {sc : UInt8} (h : IsKeyPress sc) :
    keyboardIsr k sc = onKeyPress k sc := by
  obtain ⟨hr, hm⟩ := h
  have hE : sc ≠ 0xE0 := by
    rintro rfl
    exact absurd hr (by decide)
  simp [keyboardIsr, hE, hr, hm]

/-- A run of the driver over a stream is its run over the stream's units. -/
theorem keyboardRun_parse (bytes : List UInt8) : ∀ k : Keyboard,
    keyboardRun k bytes = unitsRun (k.e0 ≠ 0) k.mods (parseUnits bytes) := by
  induction bytes using parseUnits.induct with
  | case1 => intro k; rfl
  | case2 =>
      intro k
      simp [keyboardRun, keyboardIsr_prefix, parseUnits, unitsRun]
  | case3 sc hsc =>
      intro k
      by_cases hp : IsKeyPress sc
      · by_cases he : k.e0 = 0 <;>
          simp [keyboardRun, keyboardIsr_press k hp, parseUnits, hsc, unitsRun, hp,
            onKeyPress, he]
      · simp [keyboardRun, keyboardIsr_notPress k hp, parseUnits, hsc, unitsRun, hp]
  | case4 sc' rest ih =>
      intro k
      rw [keyboardRun, keyboardIsr_prefix, keyboardRun]
      by_cases hp : IsKeyPress sc'
      · rw [keyboardIsr_press _ hp]
        simp [parseUnits, unitsRun, hp, onKeyPress, ih]
      · rw [keyboardIsr_notPress _ hp]
        simp [parseUnits, unitsRun, hp, ih]
  | case5 sc sc' rest hsc ih =>
      intro k
      rw [keyboardRun]
      by_cases hp : IsKeyPress sc
      · by_cases he : k.e0 = 0 <;>
          simp [keyboardIsr_press k hp, parseUnits, hsc, unitsRun, hp, onKeyPress, he, ih]
      · simp [keyboardIsr_notPress k hp, parseUnits, hsc, unitsRun, hp, ih]

/-! ## Keys that the two tables treat differently -/

/-- The code of the event an ordinary press emits, `none` for no event. -/
def ordinaryCode (sc : UInt8) : KeyCode :=
  if plainCode sc ≠ .none then plainCode sc
  else if 32 ≤ mapAscii 0 sc ∧ mapAscii 0 sc ≤ 126 then .char
  else .none

/-- The key emits different events as an ordinary and as an extended key. -/
def PrefixSensitive (sc : UInt8) : Prop := extendedCode sc ≠ ordinaryCode sc

instance (sc : UInt8) : Decidable (PrefixSensitive sc) := by
  unfold PrefixSensitive; infer_instance

/-- A position of the stream where a leaked prefix changes the decoding: a
prefixed byte that is not a key press, then only plain bytes that are no key
presses either, then an ordinary press of a sensitive key. -/
def PrefixLeaks (us : List ScanUnit) : Prop :=
  ∃ (before : List ScanUnit) (sc : UInt8) (quiet : List UInt8) (key : UInt8)
    (after : List ScanUnit),
    us = before ++ .prefixed sc :: quiet.map .plain ++ .plain key :: after ∧
    ¬ IsKeyPress sc ∧ (∀ q ∈ quiet, ¬ IsKeyPress q) ∧
    IsKeyPress key ∧ PrefixSensitive key

/-- The same condition as a recursion along the units, with the flag. -/
def Leaks : Bool → List ScanUnit → Prop
  | _, [] => False
  | _, .prefixed sc :: us => Leaks (¬ IsKeyPress sc) us
  | sticky, .plain sc :: us =>
      if IsKeyPress sc then (sticky = true ∧ PrefixSensitive sc) ∨ Leaks false us
      else Leaks sticky us

/-- A leaked prefix is pending: `PrefixLeaks` from inside the quiet bytes. -/
def LeakPending (us : List ScanUnit) : Prop :=
  ∃ (quiet : List UInt8) (key : UInt8) (after : List ScanUnit),
    us = quiet.map .plain ++ .plain key :: after ∧
    (∀ q ∈ quiet, ¬ IsKeyPress q) ∧ IsKeyPress key ∧ PrefixSensitive key

theorem PrefixLeaks.cons {us : List ScanUnit} (u : ScanUnit) (h : PrefixLeaks us) :
    PrefixLeaks (u :: us) := by
  obtain ⟨before, sc, quiet, key, after, rfl, hsc, hq, hk, hs⟩ := h
  exact ⟨u :: before, sc, quiet, key, after, rfl, hsc, hq, hk, hs⟩

theorem LeakPending.cons {us : List ScanUnit} {sc : UInt8} (hsc : ¬ IsKeyPress sc)
    (h : LeakPending us) : LeakPending (.plain sc :: us) := by
  obtain ⟨quiet, key, after, rfl, hq, hk, hs⟩ := h
  refine ⟨sc :: quiet, key, after, rfl, ?_, hk, hs⟩
  intro q hmem
  rcases List.mem_cons.mp hmem with rfl | hmem
  · exact hsc
  · exact hq q hmem

/-- The recursion follows the two existential forms. -/
theorem leaks_iff (us : List ScanUnit) : ∀ sticky : Bool,
    Leaks sticky us ↔ PrefixLeaks us ∨ (sticky = true ∧ LeakPending us) := by
  induction us with
  | nil =>
      intro sticky
      simp [Leaks, PrefixLeaks, LeakPending]
  | cons u us ih =>
      intro sticky
      cases u with
      | prefixed sc =>
          rw [Leaks, ih]
          constructor
          · rintro (h | ⟨hsc, quiet, key, after, rfl, hq, hk, hs⟩)
            · exact Or.inl (h.cons _)
            · exact Or.inl ⟨[], sc, quiet, key, after, rfl, by simpa using hsc, hq, hk, hs⟩
          · rintro (⟨before, sc', quiet, key, after, heq, hsc, hq, hk, hs⟩ | ⟨_, h⟩)
            · cases before with
              | nil =>
                  simp only [List.nil_append, List.cons_append, List.cons.injEq,
                    ScanUnit.prefixed.injEq] at heq
                  obtain ⟨rfl, rfl⟩ := heq
                  exact Or.inr ⟨by simpa using hsc, quiet, key, after, rfl, hq, hk, hs⟩
              | cons b before =>
                  simp only [List.cons_append, List.cons.injEq] at heq
                  exact Or.inl ⟨before, sc', quiet, key, after, heq.2, hsc, hq, hk, hs⟩
            · obtain ⟨quiet, key, after, heq, _⟩ := h
              cases quiet <;> simp at heq
      | plain sc =>
          rw [Leaks]
          have hPrefix : PrefixLeaks (.plain sc :: us) → PrefixLeaks us := by
            rintro ⟨before, sc', quiet, key, after, heq, hsc, hq, hk, hs⟩
            cases before with
            | nil => simp at heq
            | cons b before =>
                simp only [List.cons_append, List.cons.injEq] at heq
                exact ⟨before, sc', quiet, key, after, heq.2, hsc, hq, hk, hs⟩
          by_cases hp : IsKeyPress sc
          · rw [if_pos hp, ih]
            constructor
            · rintro (⟨hst, hs⟩ | h | h)
              · exact Or.inr ⟨hst, [], sc, us, rfl, by simp, hp, hs⟩
              · exact Or.inl (h.cons _)
              · exact absurd h.1 (by simp)
            · rintro (h | ⟨hst, quiet, key, after, heq, hq, hk, hs⟩)
              · exact Or.inr (Or.inl (hPrefix h))
              · cases quiet with
                | nil =>
                    simp only [List.map_nil, List.nil_append, List.cons.injEq,
                      ScanUnit.plain.injEq] at heq
                    exact Or.inl ⟨hst, heq.1 ▸ hs⟩
                | cons q quiet =>
                    simp only [List.map_cons, List.cons_append, List.cons.injEq,
                      ScanUnit.plain.injEq] at heq
                    exact absurd (heq.1 ▸ hp) (hq q (by simp))
          · rw [if_neg hp, ih]
            constructor
            · rintro (h | ⟨hst, h⟩)
              · exact Or.inl (h.cons _)
              · exact Or.inr ⟨hst, h.cons hp⟩
            · rintro (h | ⟨hst, quiet, key, after, heq, hq, hk, hs⟩)
              · exact Or.inl (hPrefix h)
              · cases quiet with
                | nil =>
                    simp only [List.map_nil, List.nil_append, List.cons.injEq,
                      ScanUnit.plain.injEq] at heq
                    exact absurd (heq.1 ▸ hk) hp
                | cons q quiet =>
                    simp only [List.map_cons, List.cons_append, List.cons.injEq] at heq
                    exact Or.inr ⟨hst, quiet, key, after, heq.2,
                      fun x hx => hq x (by simp [hx]), hk, hs⟩

/-! ## Weights -/

/-- The codes only the extended table has weigh 1, the codes only the
ordinary table has weigh -1, the codes of both weigh nothing. -/
def weight : KeyCode → Int
  | .left | .right | .delete => 1
  | .enter | .backspace | .tab | .char => -1
  | _ => 0

/-- The total weight of an event sequence. -/
def totalWeight (evs : List KeyEvent) : Int := (evs.map (fun ev => weight ev.code)).sum

@[simp] theorem totalWeight_append (xs ys : List KeyEvent) :
    totalWeight (xs ++ ys) = totalWeight xs + totalWeight ys := by
  simp [totalWeight]

/-- Shift exchanges characters for characters only. -/
theorem mapAscii_printable (mods sc : UInt8) :
    (32 ≤ mapAscii mods sc ∧ mapAscii mods sc ≤ 126) ↔
      (32 ≤ mapAscii 0 sc ∧ mapAscii 0 sc ≤ 126) := by
  have hmaps : ∀ n < 58, (32 ≤ keymapShift.getD n 0 ∧ keymapShift.getD n 0 ≤ 126) ↔
      (32 ≤ keymap.getD n 0 ∧ keymap.getD n 0 ≤ 126) := by decide
  unfold mapAscii
  by_cases h128 : sc ≥ 128
  · simp [h128]
  · by_cases hshift : mods &&& keymodShift = 0
    · simp [h128, hshift]
    · simp only [h128, hshift, if_false, ne_eq, not_false_eq_true, if_true,
        UInt8.zero_and, not_true_eq_false]
      by_cases hlen : sc.toNat < 58
      · exact hmaps _ hlen
      · have h1 : keymapShift.length ≤ sc.toNat := by
          have : keymapShift.length = 58 := by decide
          omega
        have h2 : keymap.length ≤ sc.toNat := by
          have : keymap.length = 58 := by decide
          omega
        rw [List.getD_eq_default _ _ h1, List.getD_eq_default _ _ h2]

theorem totalWeight_extendedEvents (mods sc : UInt8) :
    totalWeight (extendedEvents mods sc) = weight (extendedCode sc) := by
  unfold extendedEvents totalWeight
  by_cases h : extendedCode sc = .none <;> simp [h, weight]

theorem totalWeight_plainEvents (mods sc : UInt8) :
    totalWeight (plainEvents mods sc) = weight (ordinaryCode sc) := by
  unfold plainEvents ordinaryCode totalWeight
  simp only [mapAscii_printable mods sc]
  split
  · simp
  · split <;> simp [weight]

/-- Where the two tables disagree, the extended one weighs more. -/
theorem weight_lt {sc : UInt8} (h : PrefixSensitive sc) :
    weight (ordinaryCode sc) < weight (extendedCode sc) := by
  have key : ∀ n : Fin 256, PrefixSensitive (UInt8.ofFin n) →
      weight (ordinaryCode (UInt8.ofFin n)) < weight (extendedCode (UInt8.ofFin n)) := by
    decide +kernel
  exact key sc.toFin h

/-- An insensitive key emits the same events either way. -/
theorem extendedEvents_eq_plainEvents (mods : UInt8) {sc : UInt8}
    (h : ¬ PrefixSensitive sc) : extendedEvents mods sc = plainEvents mods sc := by
  have hc : extendedCode sc = ordinaryCode sc := not_not.mp h
  unfold extendedEvents plainEvents
  simp only [mapAscii_printable mods sc]
  rw [hc]
  unfold ordinaryCode
  by_cases hp : plainCode sc = .none
  · by_cases ha : 32 ≤ mapAscii 0 sc ∧ mapAscii 0 sc ≤ 126
    · -- `char` is no code of the extended table
      exfalso
      have hne : extendedCode sc ≠ .char := by
        unfold extendedCode
        split_ifs <;> simp
      exact hne (by rw [hc, ordinaryCode]; simp [hp, ha])
    · simp [hp, ha]
  · simp [hp]

/-! ## Driver against reference -/

/-- Without a leak the driver and the reference emit the same events. -/
theorem unitsRun_eq_of_not_leaks (us : List ScanUnit) : ∀ (sticky : Bool) (mods : UInt8),
    ¬ Leaks sticky us → unitsRun sticky mods us = referenceRun mods us := by
  induction us with
  | nil => intro _ _ _; rfl
  | cons u us ih =>
      intro sticky mods h
      cases u with
      | prefixed sc =>
          rw [Leaks] at h
          by_cases hp : IsKeyPress sc
          · rw [unitsRun, referenceRun, if_pos hp, if_pos hp, ih false mods (by simpa [hp] using h)]
          · rw [unitsRun, referenceRun, if_neg hp, if_neg hp, ih true _ (by simpa [hp] using h)]
      | plain sc =>
          rw [Leaks] at h
          by_cases hp : IsKeyPress sc
          · rw [if_pos hp] at h
            obtain ⟨hs, hrest⟩ := not_or.mp h
            rw [unitsRun, referenceRun, if_pos hp, if_pos hp, ih false mods hrest]
            cases sticky with
            | false => rfl
            | true =>
                rw [if_pos rfl, extendedEvents_eq_plainEvents mods (fun hk => hs ⟨rfl, hk⟩)]
          · rw [if_neg hp] at h
            rw [unitsRun, referenceRun, if_neg hp, if_neg hp, ih sticky _ h]

/-- The driver's events never weigh less than the reference's, and they weigh
more once a leak has occurred. -/
theorem weight_unitsRun (us : List ScanUnit) : ∀ (sticky : Bool) (mods : UInt8),
    totalWeight (referenceRun mods us) ≤ totalWeight (unitsRun sticky mods us) ∧
    (Leaks sticky us →
      totalWeight (referenceRun mods us) < totalWeight (unitsRun sticky mods us)) := by
  induction us with
  | nil =>
      intro _ _
      simp [unitsRun, referenceRun, Leaks]
  | cons u us ih =>
      intro sticky mods
      cases u with
      | prefixed sc =>
          by_cases hp : IsKeyPress sc
          · have hrest := ih false mods
            simp only [unitsRun, referenceRun, hp, if_true, totalWeight_append, Leaks,
              not_true_eq_false, decide_false]
            exact ⟨by omega, fun h => by have := hrest.2 h; omega⟩
          · simpa [unitsRun, referenceRun, if_neg hp, Leaks, hp] using ih true (modsAfter mods sc)
      | plain sc =>
          by_cases hp : IsKeyPress sc
          · have hrest := ih false mods
            simp only [unitsRun, referenceRun, if_pos hp, totalWeight_append, Leaks,
              totalWeight_plainEvents]
            cases sticky with
            | false =>
                simp only [Bool.false_eq_true, if_false, totalWeight_plainEvents, false_and,
                  false_or]
                exact ⟨by omega, fun h => by have := hrest.2 h; omega⟩
            | true =>
                simp only [if_true, totalWeight_extendedEvents, true_and]
                by_cases hs : PrefixSensitive sc
                · have hlt := weight_lt hs
                  exact ⟨by omega, fun _ => by omega⟩
                · have heq : extendedCode sc = ordinaryCode sc := not_not.mp hs
                  rw [heq]
                  refine ⟨by omega, ?_⟩
                  rintro (h | h)
                  · exact absurd h hs
                  · have := hrest.2 h
                    omega
          · simpa [unitsRun, referenceRun, if_neg hp, Leaks, hp] using
              ih sticky (modsAfter mods sc)

/-- From a cleared flag the two event sequences agree exactly without a leak. -/
theorem unitsRun_eq_referenceRun_iff (mods : UInt8) (us : List ScanUnit) :
    unitsRun false mods us = referenceRun mods us ↔ ¬ PrefixLeaks us := by
  have hleaks : Leaks false us ↔ PrefixLeaks us := by
    rw [leaks_iff]
    simp
  constructor
  · intro heq hl
    have hlt := (weight_unitsRun us false mods).2 (hleaks.mpr hl)
    rw [heq] at hlt
    exact absurd hlt (Int.lt_irrefl _)
  · intro h
    exact unitsRun_eq_of_not_leaks us false mods (fun hl => h (hleaks.mp hl))

/-- **Scancode decoding**: after `keyboard_init` the driver delivers the
reference decoder's events exactly for the streams in which no prefix leaks
onto a key that the two tables treat differently. -/
theorem keyboardRun_eq_reference_iff (bytes : List UInt8) :
    keyboardRun keyboardInit bytes = referenceRun 0 (parseUnits bytes) ↔
      ¬ PrefixLeaks (parseUnits bytes) := by
  rw [keyboardRun_parse]
  exact unitsRun_eq_referenceRun_iff 0 (parseUnits bytes)

/-- Left arrow pressed and released, then `a`: the release leaves the flag
set and the driver loses the `a`. -/
theorem keyboardRun_loses_key :
    keyboardRun keyboardInit [0xE0, 0x4B, 0xE0, 0xCB, 0x1E] ≠
      referenceRun 0 (parseUnits [0xE0, 0x4B, 0xE0, 0xCB, 0x1E]) := by
  decide

end RoninOS.Input
