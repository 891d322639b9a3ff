/-
RoninOS.Input.HeldKeys — `g_mods` against the modifier keys that are down.

Six physical keys share three bits, and `keyboard_isr` keeps no count: a press
sets the bit of its pair and a release clears it, also where the other key of
the pair is still down. It does not look at the prefix either, so the Shift
codes after `0xE0`, which no Shift key sends, move the bit as well. A stream
that does neither keeps `g_mods` and the characters right after every byte, and
one that does either gets them wrong there (`modifiers_track_iff`).
-/
import RoninOS.Input.KeyboardTheorems
import Mathlib.Data.Finset.Erase
import Mathlib.Data.Finset.Insert

namespace RoninOS.Input

open RoninOS.Lib

/-! ## The keys that are down -/

/-- The modifiers of `g_mods`. -/
inductive Modifier
  | shift | ctrl | alt
  deriving DecidableEq

/-- The modifier keys of the keyboard. -/
inductive ModKey
  | leftShift | rightShift | leftCtrl | rightCtrl | leftAlt | rightAlt
  deriving DecidableEq

/-- The bit of a modifier. -/
def Modifier.bit : Modifier → UInt8
  | .shift => keymodShift
  | .ctrl => keymodCtrl
  | .alt => keymodAlt

/-- The modifier of a key. -/
def ModKey.modifier : ModKey → Modifier
  | .leftShift | .rightShift => .shift
  | .leftCtrl | .rightCtrl => .ctrl
  | .leftAlt | .rightAlt => .alt

/-- The modifier key with a code, which comes after `0xE0` or not. -/
def modKey (prefixed : Bool) (code : UInt8) : Option ModKey :=
  if code = 0x2A ∧ prefixed = false then some .leftShift
  else if code = 0x36 ∧ prefixed = false then some .rightShift
  else if code = 0x1D then some (if prefixed then .rightCtrl else .leftCtrl)
  else if code = 0x38 then some (if prefixed then .rightAlt else .leftAlt)
  else none

/-- The keys that are down after some bytes, and whether the last one of these
was a prefix. -/
structure HeldKeys where
  prefixed : Bool
  down : Finset ModKey

/-- No key is down. -/
def HeldKeys.start : HeldKeys := ⟨false, ∅⟩

/-- The byte is a press or a release of a key that is down from its press to its
release. -/
def HeldKeys.next (h : HeldKeys) (sc : UInt8) : HeldKeys :=
  if sc = 0xE0 then { h with prefixed := true }
  else match modKey h.prefixed (sc &&& 0x7F) with
    | none => ⟨false, h.down⟩
    | some key => ⟨false, if sc &&& 0x80 = 0 then insert key h.down else h.down.erase key⟩

/-- At least one key of a modifier is down. -/
def HeldKeys.holds (h : HeldKeys) (m : Modifier) : Prop := ∃ key ∈ h.down, key.modifier = m

instance (h : HeldKeys) (m : Modifier) : Decidable (h.holds m) :=
  inferInstanceAs (Decidable (∃ key ∈ h.down, key.modifier = m))

/-- Presses and releases of each modifier key alternate. -/
def Alternate : HeldKeys → List UInt8 → Prop
  | _, [] => True
  | h, sc :: rest =>
      (∀ key, modKey h.prefixed (sc &&& 0x7F) = some key → sc ≠ 0xE0 →
        (sc &&& 0x80 = 0 ↔ key ∉ h.down)) ∧ Alternate (h.next sc) rest

/-! ## What the driver makes of them -/

/-- `g_mods` has the bit of a modifier exactly while a key of it is down. -/
def ModsRight (mods : UInt8) (h : HeldKeys) : Prop := ∀ m : Modifier, mods &&& m.bit ≠ 0 ↔ h.holds m

/-- The character that a key has while these keys are down. -/
def charOf (h : HeldKeys) (sc : UInt8) : UInt8 :=
  (if h.holds .shift then keymapShift else keymap).getD sc.toNat 0

/-- After every byte `g_mods` is right, and every character is from the right table. -/
def Tracks : Keyboard → HeldKeys → List UInt8 → Prop
  | _, _, [] => True
  | k, h, sc :: rest =>
      ModsRight (keyboardIsr k sc).1.mods (h.next sc) ∧
      (∀ ev ∈ (keyboardIsr k sc).2, ev.code = .char → ev.ch = charOf (h.next sc) sc) ∧
      Tracks (keyboardIsr k sc).1 (h.next sc) rest

/-- The byte does not take a modifier for one key while another one decides it: it
releases no key while the other key of the pair is down, and after a prefix it
is no press of Shift while no Shift key is down, and no release while one is. -/
structure Undisturbed (h : HeldKeys) (sc : UInt8) : Prop where
  pair : ∀ key, modKey h.prefixed (sc &&& 0x7F) = some key → sc &&& 0x80 ≠ 0 →
    ∀ other ∈ h.down, other.modifier = key.modifier → other = key
  fake : h.prefixed = true → (sc &&& 0x7F = 0x2A ∨ sc &&& 0x7F = 0x36) →
    (sc &&& 0x80 = 0 ↔ h.holds .shift)

/-- All bytes are. -/
def AllUndisturbed : HeldKeys → List UInt8 → Prop
  | _, [] => True
  | h, sc :: rest => Undisturbed h sc ∧ AllUndisturbed (h.next sc) rest

/-! ## Bits -/

theorem or_and_distrib (m a b : UInt8) : (m ||| a) &&& b = m &&& b ||| a &&& b := by
  apply UInt8.toBitVec_inj.mp
  ext i
  simp [Bool.and_or_distrib_right]

/-- Setting the bit of a modifier. -/
theorem or_bit_iff (mods : UInt8) (m m' : Modifier) :
    (mods ||| m.bit) &&& m'.bit ≠ 0 ↔ m = m' ∨ mods &&& m'.bit ≠ 0 := by
  rw [or_and_distrib]
  by_cases hm : m = m'
  · subst hm
    have hpos : m.bit ≠ 0 := by cases m <;> decide
    simp [hpos]
  · have hzero : m.bit &&& m'.bit = 0 := by
      cases m <;> cases m' <;> first | rfl | exact absurd rfl hm
    simp [hzero, hm]

/-- Clearing it. -/
theorem and_not_bit_iff (mods : UInt8) (m m' : Modifier) :
    mods &&& ~~~m.bit &&& m'.bit ≠ 0 ↔ m ≠ m' ∧ mods &&& m'.bit ≠ 0 := by
  rw [UInt8.and_assoc]
  by_cases hm : m = m'
  · subst hm
    simp
  · have hkeep : ~~~m.bit &&& m'.bit = m'.bit := by
      cases m <;> cases m' <;> first | rfl | exact absurd rfl hm
    rw [hkeep]
    exact (and_iff_right hm).symm

/-- The code of a press is the byte. -/
theorem and_mask_of_press {sc : UInt8} (h : sc &&& 0x80 = 0) : sc &&& 0x7F = sc := by
  have hall : sc &&& (0x7F ||| 0x80) = sc := by
    rw [show (0x7F : UInt8) ||| 0x80 = -1 by decide, UInt8.and_neg_one]
  rw [UInt8.and_comm, or_and_distrib, UInt8.and_comm _ sc, UInt8.and_comm _ sc, h] at hall
  simpa using hall

/-! ## One byte -/

/-- The modifier whose bit the driver moves for a code, with or without a prefix. -/
def codeModifier (code : UInt8) : Option Modifier :=
  if code = 0x2A ∨ code = 0x36 then some .shift
  else if code = 0x1D then some .ctrl
  else if code = 0x38 then some .alt
  else none

theorem releaseMods_eq (mods rel : UInt8) : releaseMods mods rel =
    ((codeModifier rel).map fun m => mods &&& ~~~m.bit).getD mods := by
  unfold releaseMods codeModifier
  by_cases hshift : rel = 0x2A ∨ rel = 0x36
  · rcases hshift with rfl | rfl <;> simp [Modifier.bit]
  · by_cases hctrl : rel = 0x1D
    · subst hctrl
      simp [Modifier.bit]
    · by_cases halt : rel = 0x38
      · subst halt
        simp [Modifier.bit]
      · simp [hshift, hctrl, halt]

theorem pressMod_eq (sc : UInt8) : pressMod sc = (codeModifier sc).map Modifier.bit := by
  unfold pressMod codeModifier
  split
  · rfl
  · split
    · rfl
    · split <;> rfl

/-- What a byte does to `g_mods`. -/
theorem keyboardIsr_mods (k : Keyboard) {sc : UInt8} (hsc : sc ≠ 0xE0) :
    (keyboardIsr k sc).1.mods = ((codeModifier (sc &&& 0x7F)).map fun m =>
      if sc &&& 0x80 = 0 then k.mods ||| m.bit else k.mods &&& ~~~m.bit).getD k.mods := by
  by_cases hpress : sc &&& 0x80 = 0
  · rw [and_mask_of_press hpress]
    simp only [keyboardIsr, hsc, hpress, ne_eq, not_true_eq_false, if_false, if_true, pressMod_eq]
    cases codeModifier sc with
    | some m => rfl
    | none =>
        simp only [Option.map_none, Option.getD_none, onKeyPress]
        split <;> rfl
  · simp only [keyboardIsr, hsc, hpress, ne_eq, not_false_eq_true, if_false, if_true, releaseMods_eq]

/-- A press sets its bit, and a release clears it. -/
theorem keyboardIsr_bit_iff (k : Keyboard) {sc : UInt8} (hsc : sc ≠ 0xE0) (m : Modifier) :
    (keyboardIsr k sc).1.mods &&& m.bit ≠ 0 ↔
      if codeModifier (sc &&& 0x7F) = some m then sc &&& 0x80 = 0 else k.mods &&& m.bit ≠ 0 := by
  rw [keyboardIsr_mods k hsc]
  cases hcode : codeModifier (sc &&& 0x7F) with
  | none => simp
  | some m' =>
      simp only [Option.map_some, Option.getD_some, Option.some.injEq]
      by_cases hpress : sc &&& 0x80 = 0
      · rw [if_pos hpress, or_bit_iff]
        by_cases hm : m' = m <;> simp [hm, hpress]
      · rw [if_neg hpress, and_not_bit_iff]
        by_cases hm : m' = m <;> simp [hm, hpress]

/-- The driver moves the bit of a key's own modifier. -/
theorem codeModifier_of_modKey {prefixed : Bool} {code : UInt8} {key : ModKey}
    (h : modKey prefixed code = some key) : codeModifier code = some key.modifier := by
  unfold modKey at h
  unfold codeModifier
  split at h
  · obtain rfl := Option.some.inj h
    simp_all [ModKey.modifier]
  · split at h
    · obtain rfl := Option.some.inj h
      simp_all [ModKey.modifier]
    · split at h
      · obtain rfl := Option.some.inj h
        cases prefixed <;> simp_all [ModKey.modifier]
      · split at h
        · obtain rfl := Option.some.inj h
          cases prefixed <;> simp_all [ModKey.modifier]
        · cases h

/-- Only the Shift codes after a prefix belong to no key. -/
theorem codeModifier_of_not_modKey {prefixed : Bool} {code : UInt8} {m : Modifier}
    (h : modKey prefixed code = none) (hm : codeModifier code = some m) :
    prefixed = true ∧ (code = 0x2A ∨ code = 0x36) ∧ m = .shift := by
  unfold modKey at h
  unfold codeModifier at hm
  cases prefixed <;> grind

section Step

variable {k : Keyboard} {h : HeldKeys} {sc : UInt8}

/-- A byte of a key leaves the other modifiers as they are. -/
theorem HeldKeys.holds_next_of_ne (hsc : sc ≠ 0xE0) {key : ModKey}
    (hkey : modKey h.prefixed (sc &&& 0x7F) = some key) {m : Modifier} (hm : key.modifier ≠ m) :
    (h.next sc).holds m ↔ h.holds m := by
  have hne : ∀ other, other.modifier = m → other ≠ key := by
    rintro other hother rfl
    exact hm hother
  simp only [HeldKeys.next, hsc, if_false, hkey, HeldKeys.holds]
  refine exists_congr fun other => and_congr_left fun hother => ?_
  split
  · simp [hne other hother]
  · simp [hne other hother]

/-- Pressing a key keeps the bit of its modifier right, and releasing it does
exactly if the other key of the pair is up. -/
theorem HeldKeys.holds_next_self_iff (hsc : sc ≠ 0xE0) {key : ModKey}
    (hkey : modKey h.prefixed (sc &&& 0x7F) = some key) :
    (sc &&& 0x80 = 0 ↔ (h.next sc).holds key.modifier) ↔
      (sc &&& 0x80 ≠ 0 → ∀ other ∈ h.down, other.modifier = key.modifier → other = key) := by
  simp only [HeldKeys.next, hsc, if_false, hkey, HeldKeys.holds]
  by_cases hpress : sc &&& 0x80 = 0
  · have hholds : ∃ other ∈ insert key h.down, other.modifier = key.modifier :=
      ⟨key, Finset.mem_insert_self .., rfl⟩
    simp [hpress]
  · simp only [hpress, if_false, false_iff, Finset.mem_erase, ne_eq, not_false_eq_true, forall_const]
    constructor
    · intro hnone other hother hmod
      by_contra hne
      exact hnone ⟨other, ⟨hne, hother⟩, hmod⟩
    · rintro hpair ⟨other, ⟨hne, hother⟩, hmod⟩
      exact hne (hpair other hother hmod)

/-- A byte keeps `g_mods` right exactly if it is undisturbed. -/
theorem modsRight_next_iff (hright : ModsRight k.mods h) :
    ModsRight (keyboardIsr k sc).1.mods (h.next sc) ↔ Undisturbed h sc := by
  by_cases hsc : sc = 0xE0
  · subst hsc
    have hnext : ModsRight (keyboardIsr k 0xE0).1.mods (h.next 0xE0) := hright
    refine iff_of_true hnext ⟨fun key hkey => ?_, fun _ hcode => absurd hcode (by decide)⟩
    have hnone : ∀ prefixed, modKey prefixed (0xE0 &&& 0x7F) = none := by decide
    rw [hnone] at hkey
    cases hkey
  · simp only [ModsRight, keyboardIsr_bit_iff k hsc]
    cases hkey : modKey h.prefixed (sc &&& 0x7F) with
    | some key =>
        have hcode := codeModifier_of_modKey hkey
        have hfake : h.prefixed = true → (sc &&& 0x7F = 0x2A ∨ sc &&& 0x7F = 0x36) →
            (sc &&& 0x80 = 0 ↔ h.holds .shift) := by
          intro hextended hshift
          rw [hextended] at hkey
          rcases hshift with hshift | hshift <;> rw [hshift] at hkey <;> cases hkey
        have hself := HeldKeys.holds_next_self_iff hsc hkey
        constructor
        · intro hall
          have hkeyRight := hall key.modifier
          rw [if_pos hcode] at hkeyRight
          refine ⟨fun key' hkey' => ?_, hfake⟩
          obtain rfl := Option.some.inj (hkey.symm.trans hkey')
          exact hself.mp hkeyRight
        · intro hu m
          by_cases hm : key.modifier = m
          · subst hm
            rw [if_pos hcode]
            exact hself.mpr (hu.pair key hkey)
          · rw [if_neg (by simpa [hcode] using hm), HeldKeys.holds_next_of_ne hsc hkey hm]
            exact hright m
    | none =>
        have hdown : ∀ m, (h.next sc).holds m ↔ h.holds m := by
          intro m
          simp only [HeldKeys.next, hsc, if_false, hkey, HeldKeys.holds]
        have hpair : ∀ key, modKey h.prefixed (sc &&& 0x7F) = some key → sc &&& 0x80 ≠ 0 →
            ∀ other ∈ h.down, other.modifier = key.modifier → other = key := by
          intro key hkey'
          rw [hkey] at hkey'
          cases hkey'
        simp only [hdown]
        constructor
        · intro hall
          refine ⟨hpair, fun _ hshift => ?_⟩
          have hcode : codeModifier (sc &&& 0x7F) = some .shift := by
            rw [codeModifier, if_pos hshift]
          have hshiftRight := hall .shift
          rwa [if_pos hcode] at hshiftRight
        · intro hu m
          by_cases hcode : codeModifier (sc &&& 0x7F) = some m
          · obtain ⟨hextended, hshift, rfl⟩ := codeModifier_of_not_modKey hkey hcode
            rw [if_pos hcode]
            exact hu.fake hextended hshift
          · rw [if_neg hcode]
            exact hright m

/-- The key codes of both `switch`es are no characters. -/
theorem extendedCode_ne_char (sc : UInt8) : extendedCode sc ≠ .char := by
  unfold extendedCode
  repeat' split
  all_goals decide

theorem plainCode_ne_char (sc : UInt8) : plainCode sc ≠ .char := by
  unfold plainCode
  repeat' split
  all_goals decide

/-- A character is emitted by a press that leaves `g_mods` alone. -/
theorem keyboardIsr_char {ev : KeyEvent} (hev : ev ∈ (keyboardIsr k sc).2)
    (hchar : ev.code = .char) :
    (keyboardIsr k sc).1.mods = k.mods ∧ sc < 128 ∧ ev.ch = mapAscii k.mods sc := by
  by_cases hpress : IsKeyPress sc
  · have hlt : sc < 128 := by
      rw [← and_mask_of_press hpress.1, UInt8.lt_iff_toNat_lt, UInt8.toNat_and]
      exact Nat.lt_of_le_of_lt Nat.and_le_right (by decide)
    rw [keyboardIsr_press k hpress] at hev ⊢
    unfold onKeyPress at hev ⊢
    split at hev
    · -- an extended key
      unfold extendedEvents at hev
      split at hev
      · rw [List.mem_singleton.mp hev] at hchar
        exact absurd hchar (extendedCode_ne_char sc)
      · cases hev
    · rename_i he0
      rw [if_neg he0]
      unfold plainEvents at hev
      split at hev
      · rw [List.mem_singleton.mp hev] at hchar
        exact absurd hchar (plainCode_ne_char sc)
      · simp only at hev
        split at hev
        · exact ⟨rfl, hlt, by rw [List.mem_singleton.mp hev]⟩
        · cases hev
  · rw [keyboardIsr_notPress k hpress] at hev
    cases hev

/-- Where a byte leaves `g_mods` right, its character is from the right table. -/
theorem charOf_of_modsRight (hnext : ModsRight (keyboardIsr k sc).1.mods (h.next sc))
    {ev : KeyEvent} (hev : ev ∈ (keyboardIsr k sc).2) (hchar : ev.code = .char) :
    ev.ch = charOf (h.next sc) sc := by
  obtain ⟨hmods, hlt, hch⟩ := keyboardIsr_char hev hchar
  have hshift : k.mods &&& keymodShift ≠ 0 ↔ (h.next sc).holds .shift := hmods ▸ hnext .shift
  rw [hch, mapAscii, if_neg (by rw [ge_iff_le, UInt8.not_le]; exact hlt), charOf]
  by_cases hdown : (h.next sc).holds .shift
  · rw [if_pos (hshift.mpr hdown), if_pos hdown]
  · rw [if_neg fun hbit => hdown (hshift.mp hbit), if_neg hdown]

end Step

/-! ## Streams -/

theorem tracks_iff {k : Keyboard} {h : HeldKeys} (hright : ModsRight k.mods h)
    (bytes : List UInt8) :
    Tracks k h bytes ↔ AllUndisturbed h bytes := by
  induction bytes generalizing k h with
  | nil => exact Iff.rfl
  | cons sc rest ih =>
      constructor
      · rintro ⟨hnext, -, hrest⟩
        exact ⟨(modsRight_next_iff hright).mp hnext, (ih hnext).mp hrest⟩
      · rintro ⟨hsafe, hrest⟩
        have hnext := (modsRight_next_iff hright).mpr hsafe
        exact ⟨hnext, fun ev => charOf_of_modsRight hnext, (ih hnext).mpr hrest⟩

theorem modsRight_start : ModsRight keyboardInit.mods HeldKeys.start := by
  intro m
  cases m <;> decide

/-- After every byte of a stream `g_mods` is right and the characters are from the
right table exactly if no byte is disturbed by another key of its modifier. -/
theorem modifiers_track_iff (bytes : List UInt8) :
    Tracks keyboardInit HeldKeys.start bytes ↔ AllUndisturbed HeldKeys.start bytes :=
  tracks_iff modsRight_start bytes

/-- Both Shift keys are pressed, and the right one is released. -/
def bothShifts : List UInt8 := [0x2A, 0x36, 0xB6]

theorem release_clears_held : Alternate HeldKeys.start bothShifts ∧
    ¬ Tracks keyboardInit HeldKeys.start bothShifts := by
  refine ⟨by simp only [bothShifts, Alternate]; decide, fun htracks => ?_⟩
  have hright := htracks.2.2.2.2.1 .shift
  exact absurd hright (by decide)

end RoninOS.Input
