/-
RoninOS.Fs.Fat32Names — which names `make_name83` accepts, and which of them it
makes the same.

One position serves the base and the extension, and a dot sets it to 8, where
the extension begins; `ext_pos`, which was to tell a second dot, never changes.
So position 8 says that a dot was read, or eight characters of the base, or both:
a name may go on with more dots, and one of eight characters with the extension
at once. Every other accepted name is of the 8.3 form, and names of that form are
told apart.
-/
import RoninOS.Fs.Fat32Dir
import RoninOS.Lib.Delimited

namespace RoninOS.Fs

open RoninOS.Lib

/-! ## Characters -/

/-- The letters, the digits and the underscore. -/
def NameChar (c : UInt8) : Prop :=
  (65 ≤ c ∧ c ≤ 90) ∨ (97 ≤ c ∧ c ≤ 122) ∨ (48 ≤ c ∧ c ≤ 57) ∨ c = 95

instance (c : UInt8) : Decidable (NameChar c) := inferInstanceAs (Decidable (_ ∨ _))

/-- A character as `make_name83` stores it. -/
def upperByte (c : UInt8) : UInt8 := if 97 ≤ c ∧ c ≤ 122 then c - 32 else c

theorem nameChar_iff (c : UInt8) : NameChar c ↔
    (65 ≤ upperByte c ∧ upperByte c ≤ 90) ∨ (48 ≤ upperByte c ∧ upperByte c ≤ 57) ∨
      upperByte c = 95 := by
  have hlt := c.toNat_lt
  unfold NameChar upperByte
  split <;>
  · simp only [UInt8.le_iff_toNat_le, ← UInt8.toNat_inj, UInt8.toNat_sub, UInt8.reduceToNat] at *
    omega

theorem NameChar.ne_dot {c : UInt8} (h : NameChar c) : c ≠ 46 := by
  rintro rfl
  exact absurd h (by decide)

theorem NameChar.upper_ne {c : UInt8} (h : NameChar c) : upperByte c ≠ 32 ∧ upperByte c ≠ 46 := by
  rw [nameChar_iff] at h
  simp only [UInt8.le_iff_toNat_le, ne_eq, ← UInt8.toNat_inj, UInt8.reduceToNat] at h ⊢
  omega

/-! ## The eleven bytes -/

/-- Upper-cased and padded with blanks. -/
def padded (n : Nat) (bs : List UInt8) : List UInt8 :=
  bs.map upperByte ++ List.replicate (n - bs.length) 32

/-- The encoding of a base and an extension. -/
def encode83 (base ext : List UInt8) : List UInt8 := padded 8 base ++ padded 3 ext

section Encode

variable {n : Nat} {bs base ext : List UInt8} {c : UInt8}

theorem length_padded (h : bs.length ≤ n) : (padded n bs).length = n := by
  simp only [padded, List.length_append, List.length_map, List.length_replicate]
  omega

theorem padded_set (h : bs.length < n) :
    (padded n bs).set bs.length (upperByte c) = padded n (bs ++ [c]) := by
  have hpad : n - bs.length = (n - (bs.length + 1)) + 1 := by omega
  unfold padded
  rw [List.set_append_right _ _ (by simp), List.length_map, Nat.sub_self, hpad,
    List.replicate_succ, List.set_cons_zero]
  simp

theorem encode83_set_base (h : base.length < 8) :
    (encode83 base ext).set base.length (upperByte c) = encode83 (base ++ [c]) ext := by
  unfold encode83
  rw [List.set_append_left _ _ (by rw [length_padded (by omega)]; exact h), padded_set h]

theorem encode83_set_ext (hbase : base.length ≤ 8) (h : ext.length < 3) :
    (encode83 base ext).set (8 + ext.length) (upperByte c) = encode83 base (ext ++ [c]) := by
  unfold encode83
  rw [List.set_append_right _ _ (by rw [length_padded hbase]; omega), length_padded hbase,
    Nat.add_sub_cancel_left, padded_set h]

theorem padded_congr (n : Nat) {bs bs' : List UInt8} (h : bs.map upperByte = bs'.map upperByte) :
    padded n bs = padded n bs' := by
  have hlen : bs.length = bs'.length := by
    simpa using congrArg List.length h
  rw [padded, padded, h, hlen]

/-- The blanks can be told from the characters. -/
theorem padded_inj {bs' : List UInt8} (hc : ∀ c ∈ bs, NameChar c) (hc' : ∀ c ∈ bs', NameChar c)
    (h : padded n bs = padded n bs') : bs.map upperByte = bs'.map upperByte := by
  have hfilter : ∀ {xs : List UInt8}, (∀ c ∈ xs, NameChar c) →
      (padded n xs).filter (· ≠ 32) = xs.map upperByte := by
    intro xs hxs
    unfold padded
    rw [List.filter_append, List.filter_eq_self.mpr, List.filter_eq_nil_iff.mpr, List.append_nil]
    · intro b hb
      simp [List.eq_of_mem_replicate hb]
    · intro b hb
      obtain ⟨c, hmem, rfl⟩ := List.mem_map.mp hb
      simpa using (hxs c hmem).upper_ne.1
  rw [← hfilter hc, ← hfilter hc', h]

theorem encode83_inj {base' ext' : List UInt8} (hb : base.length ≤ 8) (hb' : base'.length ≤ 8)
    (hcb : ∀ c ∈ base, NameChar c) (hcb' : ∀ c ∈ base', NameChar c)
    (hce : ∀ c ∈ ext, NameChar c) (hce' : ∀ c ∈ ext', NameChar c)
    (h : encode83 base ext = encode83 base' ext') :
    base.map upperByte = base'.map upperByte ∧ ext.map upperByte = ext'.map upperByte := by
  obtain ⟨hbase, hext⟩ := List.append_inj h (by rw [length_padded hb, length_padded hb'])
  exact ⟨padded_inj hcb hcb' hbase, padded_inj hce hce' hext⟩

end Encode

/-! ## Rounds of the loop -/

section Rounds

variable {c : UInt8} {rest out : List UInt8} {pos : Nat}

theorem makeName83Loop_dot (hpos : 1 ≤ pos) (hle : pos ≤ 8) :
    makeName83Loop (46 :: rest) pos out = makeName83Loop rest 8 out := by
  rw [makeName83Loop]
  dsimp only
  rw [if_pos rfl, if_neg (by omega)]

theorem makeName83Loop_late (hpos : pos = 0 ∨ 8 < pos) :
    makeName83Loop (46 :: rest) pos out = none := by
  rw [makeName83Loop]
  dsimp only
  rw [if_pos rfl, if_pos (by omega)]

theorem makeName83Loop_char (hc : NameChar c) (hpos : pos < 11) :
    makeName83Loop (c :: rest) pos out
      = makeName83Loop rest (pos + 1) (out.set pos (upperByte c)) := by
  have hbyte := (nameChar_iff c).mp hc
  rw [makeName83Loop]
  dsimp only
  rw [if_neg hc.ne_dot]
  change (if ¬ ((65 ≤ upperByte c ∧ upperByte c ≤ 90) ∨ (48 ≤ upperByte c ∧ upperByte c ≤ 57) ∨
    upperByte c = 95) then none else _) = _
  rw [if_neg (not_not.mpr hbyte)]
  split
  · rfl
  · rw [if_pos (by omega)]
    rfl

theorem makeName83Loop_full (hc : NameChar c) (hpos : 11 ≤ pos) :
    makeName83Loop (c :: rest) pos out = none := by
  have hbyte := (nameChar_iff c).mp hc
  rw [makeName83Loop]
  dsimp only
  rw [if_neg hc.ne_dot]
  change (if ¬ ((65 ≤ upperByte c ∧ upperByte c ≤ 90) ∨ (48 ≤ upperByte c ∧ upperByte c ≤ 57) ∨
    upperByte c = 95) then none else _) = _
  rw [if_neg (not_not.mpr hbyte), if_neg (by omega), if_neg (by omega)]

theorem makeName83Loop_other (hdot : c ≠ 46) (hc : ¬ NameChar c) :
    makeName83Loop (c :: rest) pos out = none := by
  rw [nameChar_iff] at hc
  rw [makeName83Loop]
  dsimp only
  rw [if_neg hdot]
  change (if ¬ ((65 ≤ upperByte c ∧ upperByte c ≤ 90) ∨ (48 ≤ upperByte c ∧ upperByte c ≤ 57) ∨
    upperByte c = 95) then none else _) = _
  rw [if_pos hc]

end Rounds

/-! ## Accepted names -/

/-- With `base` behind it, the loop reads `rest` as the end `w` of the base, `k`
dots and the extension `e`. -/
structure Reads (base rest w : List UInt8) (k : Nat) (e : List UInt8) : Prop where
  eq : rest = w ++ List.replicate k 46 ++ e
  base_chars : ∀ c ∈ w, NameChar c
  ext_chars : ∀ c ∈ e, NameChar c
  base_le : (base ++ w).length ≤ 8
  ext_le : e.length ≤ 3
  undotted : k = 0 → e = [] ∨ (base ++ w).length = 8
  dotted : k ≠ 0 → 1 ≤ (base ++ w).length

section Phases

variable {base rest : List UInt8} {r : List UInt8}

/-- Inside the extension. -/
theorem makeName83Loop_ext {ext : List UInt8} (hbase : base.length ≤ 8) (h1 : 1 ≤ ext.length)
    (h3 : ext.length ≤ 3) : makeName83Loop rest (8 + ext.length) (encode83 base ext) = some r ↔
      (∀ c ∈ rest, NameChar c) ∧ (ext ++ rest).length ≤ 3 ∧ r = encode83 base (ext ++ rest) := by
  induction rest generalizing ext with
  | nil => simp [makeName83Loop, h3, eq_comm]
  | cons c rest ih =>
      by_cases hc : NameChar c
      · rcases Nat.lt_or_ge ext.length 3 with hlt | hge
        · rw [makeName83Loop_char hc (by omega), encode83_set_ext hbase hlt,
            show 8 + ext.length + 1 = 8 + (ext ++ [c]).length by simp; omega,
            ih (by simp) (by simp; omega)]
          simp [hc]
        · rw [makeName83Loop_full hc (by omega)]
          simp
          omega
      · refine iff_of_false ?_ fun h => hc (h.1 c (by simp))
        by_cases hdot : c = 46
        · rw [hdot, makeName83Loop_late (by omega)]
          simp
        · rw [makeName83Loop_other hdot hc]
          simp

/-- At position 8, with or without a dot before it. -/
theorem makeName83Loop_eight (hbase : base.length ≤ 8) :
    makeName83Loop rest 8 (encode83 base []) = some r ↔ ∃ k e, rest = List.replicate k 46 ++ e ∧
      (∀ c ∈ e, NameChar c) ∧ e.length ≤ 3 ∧ r = encode83 base e := by
  induction rest with
  | nil =>
      constructor
      · intro h
        exact ⟨0, [], rfl, by simp, by simp, (Option.some.inj h).symm⟩
      · rintro ⟨k, e, heq, -, -, rfl⟩
        obtain ⟨-, rfl⟩ := List.append_eq_nil_iff.mp heq.symm
        rfl
  | cons c rest ih =>
      by_cases hc : NameChar c
      · have hnext := @makeName83Loop_ext base rest r [c] (by omega) (by simp) (by simp)
        rw [makeName83Loop_char hc (by omega),
          show (encode83 base []).set 8 (upperByte c) = encode83 base [c] from
            encode83_set_ext (by omega) (Nat.zero_lt_succ 2)]
        rw [List.length_singleton] at hnext
        rw [hnext]
        constructor
        · rintro ⟨hchars, hlen, rfl⟩
          exact ⟨0, c :: rest, rfl, by simpa [hc] using hchars, by simpa using hlen, rfl⟩
        · rintro ⟨k, e, heq, hchars, hlen, rfl⟩
          cases k with
          | zero =>
              obtain rfl : c :: rest = e := heq
              exact ⟨fun b hb => hchars b (List.mem_cons_of_mem c hb), hlen, rfl⟩
          | succ k => exact absurd (List.cons.inj heq).1 hc.ne_dot
      · by_cases hdot : c = 46
        · subst hdot
          rw [makeName83Loop_dot (by omega) (by omega), ih]
          constructor
          · rintro ⟨k, e, rfl, hrest⟩
            exact ⟨k + 1, e, rfl, hrest⟩
          · rintro ⟨k, e, heq, hchars, hrest⟩
            cases k with
            | zero =>
                obtain rfl : 46 :: rest = e := heq
                exact absurd (hchars 46 (by simp)) hc
            | succ k => exact ⟨k, e, (List.cons.inj heq).2, hchars, hrest⟩
        · rw [makeName83Loop_other hdot hc]
          refine iff_of_false (by simp) ?_
          rintro ⟨k, e, heq, hchars, -⟩
          cases k with
          | zero =>
              obtain rfl : c :: rest = e := heq
              exact hc (hchars c (by simp))
          | succ k => exact hdot (List.cons.inj heq).1

/-- A character that belongs to no name has the same effect at every position up
to 8 but the first. -/
theorem makeName83Loop_jump {c : UInt8} {out : List UInt8} {pos : Nat} (hc : ¬ NameChar c)
    (h1 : 1 ≤ pos) (h8 : pos ≤ 8) :
    makeName83Loop (c :: rest) pos out = makeName83Loop (c :: rest) 8 out := by
  by_cases hdot : c = 46
  · rw [hdot, makeName83Loop_dot h1 h8, makeName83Loop_dot (by omega) (by omega)]
  · rw [makeName83Loop_other hdot hc, makeName83Loop_other hdot hc]

theorem reads_nil_iff {k : Nat} {e : List UInt8} (hbase : base.length ≤ 8) :
    Reads base rest [] k e ↔ (rest = List.replicate k 46 ++ e ∧ (∀ c ∈ e, NameChar c) ∧
      e.length ≤ 3) ∧ (k = 0 → e = [] ∨ base.length = 8) ∧ (k ≠ 0 → 1 ≤ base.length) := by
  constructor
  · intro h
    exact ⟨⟨h.eq, h.ext_chars, h.ext_le⟩, by simpa using h.undotted, by simpa using h.dotted⟩
  · rintro ⟨⟨heq, hchars, hext⟩, hundotted, hdotted⟩
    exact ⟨heq, by simp, hchars, by simpa using hbase, hext, by simpa using hundotted,
      by simpa using hdotted⟩

/-- The end of the base is empty where the base is full or something else follows. -/
theorem Reads.end_nil {w e : List UInt8} {k : Nat} (h : Reads base rest w k e)
    (hstop : base.length = 8 ∨ ∀ c ∈ rest.head?, ¬ NameChar c) : w = [] := by
  cases w with
  | nil => rfl
  | cons c w =>
      rcases hstop with hfull | hhead
      · have hle := h.base_le
        simp only [List.length_append, List.length_cons] at hle
        omega
      · exact absurd (h.base_chars c (by simp)) (hhead c (by rw [h.eq]; rfl))

theorem reads_cons_iff {c : UInt8} {w e : List UInt8} {k : Nat} (hc : NameChar c) :
    Reads (base ++ [c]) rest w k e ↔ Reads base (c :: rest) (c :: w) k e := by
  have hbase : base ++ [c] ++ w = base ++ c :: w := by simp
  constructor
  · intro h
    refine ⟨by rw [h.eq]; rfl, ?_, h.ext_chars, hbase ▸ h.base_le, h.ext_le,
      fun hk => hbase ▸ h.undotted hk, fun hk => hbase ▸ h.dotted hk⟩
    simpa [hc] using h.base_chars
  · intro h
    exact ⟨(List.cons.inj h.eq).2, fun b hb => h.base_chars b (List.mem_cons_of_mem c hb),
      h.ext_chars, hbase ▸ h.base_le, h.ext_le, fun hk => hbase ▸ h.undotted hk,
      fun hk => hbase ▸ h.dotted hk⟩

/-- While the base is not full, a character belongs to it. -/
theorem Reads.end_cons {c : UInt8} {w e : List UInt8} {k : Nat} (h : Reads base (c :: rest) w k e)
    (hc : NameChar c) (hlt : base.length < 8) : ∃ w', w = c :: w' := by
  cases w with
  | nil =>
      cases k with
      | zero =>
          obtain rfl | hfull := h.undotted rfl
          · exact absurd h.eq (by simp)
          · rw [List.append_nil] at hfull
            omega
      | succ k => exact absurd (List.cons.inj h.eq).1 hc.ne_dot
  | cons b w =>
      obtain ⟨rfl, -⟩ := List.cons.inj h.eq
      exact ⟨w, rfl⟩

/-- A name begins with a character. -/
theorem makeName83Loop_unstarted {c : UInt8} (hc : ¬ NameChar c) :
    makeName83Loop (c :: rest) 0 (encode83 [] []) = some r ↔
      ∃ w k e, Reads [] (c :: rest) w k e ∧ r = encode83 w e := by
  refine iff_of_false ?_ ?_
  · by_cases hdot : c = 46
    · rw [hdot, makeName83Loop_late (Or.inl rfl)]
      simp
    · rw [makeName83Loop_other hdot hc]
      simp
  · rintro ⟨w, k, e, hreads, -⟩
    obtain rfl := hreads.end_nil (Or.inr (by simpa using hc))
    have heq := hreads.eq
    cases k with
    | zero =>
        obtain rfl | hfull := hreads.undotted rfl
        · simp at heq
        · simp at hfull
    | succ k => exact absurd (hreads.dotted (by omega)) (by simp)

/-- After a base that ends here come dots and an extension. -/
theorem makeName83Loop_stopped {c : UInt8} (hbase : base.length ≤ 8) (hpos : 0 < base.length)
    (hstop : base.length = 8 ∨ ∀ b ∈ (c :: rest).head?, ¬ NameChar b) :
    makeName83Loop (c :: rest) base.length (encode83 base []) = some r ↔
      ∃ w k e, Reads base (c :: rest) w k e ∧ r = encode83 (base ++ w) e := by
  have height : makeName83Loop (c :: rest) base.length (encode83 base [])
      = makeName83Loop (c :: rest) 8 (encode83 base []) := by
    rcases hstop with hfull | hhead
    · rw [hfull]
    · exact makeName83Loop_jump (hhead c rfl) hpos hbase
  rw [height, makeName83Loop_eight hbase]
  constructor
  · rintro ⟨k, e, heq, hchars, hlen, rfl⟩
    refine ⟨[], k, e, (reads_nil_iff hbase).mpr ⟨⟨heq, hchars, hlen⟩, ?_, fun _ => hpos⟩, by simp⟩
    rintro rfl
    rcases hstop with hfull | hhead
    · exact Or.inr hfull
    · obtain rfl : c :: rest = e := heq
      exact absurd (hchars c (by simp)) (hhead c rfl)
  · rintro ⟨w, k, e, hreads, rfl⟩
    obtain rfl := hreads.end_nil hstop
    obtain ⟨⟨heq, hchars, hlen⟩, -⟩ := (reads_nil_iff hbase).mp hreads
    exact ⟨k, e, heq, hchars, hlen, by simp⟩

/-- Inside the base. -/
theorem makeName83Loop_base (hbase : base.length ≤ 8) :
    makeName83Loop rest base.length (encode83 base []) = some r ↔
      ∃ w k e, Reads base rest w k e ∧ r = encode83 (base ++ w) e := by
  induction rest generalizing base with
  | nil =>
      constructor
      · intro h
        refine ⟨[], 0, [], (reads_nil_iff hbase).mpr (by simp), ?_⟩
        rw [List.append_nil]
        exact (Option.some.inj h).symm
      · rintro ⟨w, k, e, hreads, rfl⟩
        obtain ⟨hw, rfl⟩ := List.append_eq_nil_iff.mp hreads.eq.symm
        obtain ⟨rfl, -⟩ := List.append_eq_nil_iff.mp hw
        rw [List.append_nil]
        rfl
  | cons c rest ih =>
      by_cases hchar : NameChar c ∧ base.length < 8
      · obtain ⟨hc, hlt⟩ := hchar
        rw [makeName83Loop_char hc (by omega), encode83_set_base hlt,
          show base.length + 1 = (base ++ [c]).length by simp, ih (by simp; omega)]
        constructor
        · rintro ⟨w, k, e, hreads, rfl⟩
          exact ⟨c :: w, k, e, (reads_cons_iff hc).mp hreads, by simp⟩
        · rintro ⟨w, k, e, hreads, rfl⟩
          obtain ⟨w, rfl⟩ := hreads.end_cons hc hlt
          exact ⟨w, k, e, (reads_cons_iff hc).mpr hreads, by simp⟩
      · rcases Nat.eq_zero_or_pos base.length with h0 | hpos
        · obtain rfl := List.length_eq_zero_iff.mp h0
          exact makeName83Loop_unstarted fun hc => hchar ⟨hc, by decide⟩
        · refine makeName83Loop_stopped hbase hpos ?_
          by_cases hc : NameChar c
          · exact Or.inl (Nat.le_antisymm hbase (Nat.not_lt.mp fun hlt => hchar ⟨hc, hlt⟩))
          · exact Or.inr (by simpa using hc)

end Phases

/-- The accepted names: a base of 1 to 8 characters, `k` dots and an extension of
up to 3. -/
structure Spelled (name w : List UInt8) (k : Nat) (e : List UInt8) : Prop where
  eq : name = w ++ List.replicate k 46 ++ e
  base_chars : ∀ c ∈ w, NameChar c
  ext_chars : ∀ c ∈ e, NameChar c
  base_len : 1 ≤ w.length ∧ w.length ≤ 8
  ext_len : e.length ≤ 3
  undotted : k = 0 → e = [] ∨ w.length = 8

/-- `make_name83` accepts these, and encodes the base and the extension. -/
theorem makeName83_iff {name r : List UInt8} :
    makeName83 name = some r ↔ ∃ w k e, Spelled name w k e ∧ r = encode83 w e := by
  have hloop := @makeName83Loop_base [] name r (by simp)
  unfold makeName83
  split
  · rename_i hnil
    refine iff_of_false (by simp) ?_
    rintro ⟨w, k, e, hspelled, -⟩
    have heq := hspelled.eq
    have hlen := hspelled.base_len.1
    rw [hnil] at heq
    obtain ⟨hw, -⟩ := List.append_eq_nil_iff.mp heq.symm
    rw [(List.append_eq_nil_iff.mp hw).1] at hlen
    simp at hlen
  · rename_i hne
    have hblank : encode83 [] [] = List.replicate 11 32 := by decide
    rw [hblank] at hloop
    rw [show makeName83Loop name 0 (List.replicate 11 32) = some r ↔ _ from hloop]
    constructor
    · rintro ⟨w, k, e, hreads, rfl⟩
      refine ⟨w, k, e, ⟨hreads.eq, hreads.base_chars, hreads.ext_chars, ⟨?_, hreads.base_le⟩,
        hreads.ext_le, hreads.undotted⟩, rfl⟩
      cases k with
      | zero =>
          obtain rfl | hfull := hreads.undotted rfl
          · refine List.length_pos_iff.mpr ?_
            rintro rfl
            exact hne hreads.eq
          · rw [List.nil_append] at hfull
            omega
      | succ k => exact hreads.dotted (by omega)
    · rintro ⟨w, k, e, hspelled, rfl⟩
      exact ⟨w, k, e, ⟨hspelled.eq, hspelled.base_chars, hspelled.ext_chars, hspelled.base_len.2,
        hspelled.ext_len, hspelled.undotted, fun _ => hspelled.base_len.1⟩, rfl⟩

/-! ## The 8.3 form -/

/-- `base` or `base.ext`. -/
def EightThree (name : List UInt8) : Prop :=
  ∃ base ext, (∀ c ∈ base, NameChar c) ∧ (∀ c ∈ ext, NameChar c) ∧
    (1 ≤ base.length ∧ base.length ≤ 8) ∧ ext.length ≤ 3 ∧
    (name = base ∨ name = base ++ 46 :: ext)

/-- A name upper-cased, without a trailing dot. -/
def plainName (name : List UInt8) : List UInt8 :=
  if (name.map upperByte).getLast? = some 46 then (name.map upperByte).dropLast
  else name.map upperByte

/-- What is asked of `make_name83` for two names: it accepts each exactly where it
is of the 8.3 form, and makes them the same exactly where they are. -/
structure NamesApart (name name' : List UInt8) : Prop where
  left : makeName83 name ≠ none ↔ EightThree name
  right : makeName83 name' ≠ none ↔ EightThree name'
  apart : ∀ r r', makeName83 name = some r → makeName83 name' = some r' →
    (r = r' ↔ plainName name = plainName name')

/-- A name with more than one dot between base and extension, or one of 9 to 11
characters without a dot. -/
def Stretched (name : List UInt8) : Prop :=
  (∃ base k ext, (∀ c ∈ base, NameChar c) ∧ (∀ c ∈ ext, NameChar c) ∧
    (1 ≤ base.length ∧ base.length ≤ 8) ∧ ext.length ≤ 3 ∧ 2 ≤ k ∧
    name = base ++ List.replicate k 46 ++ ext) ∨
  ((∀ c ∈ name, NameChar c) ∧ 9 ≤ name.length ∧ name.length ≤ 11)

section Forms

variable {name name' : List UInt8}

theorem count_dot_eq_zero {bs : List UInt8} (h : ∀ c ∈ bs, NameChar c) : bs.count 46 = 0 :=
  List.count_eq_zero.mpr fun hmem => (h 46 hmem).ne_dot rfl

/-- Every name of the 8.3 form is accepted, with its base and extension. -/
theorem EightThree.spelled (h : EightThree name) :
    ∃ w k e, Spelled name w k e ∧ k ≤ 1 ∧ (k = 0 → e = []) := by
  obtain ⟨base, ext, hb, he, hlen, hext, rfl | rfl⟩ := h
  · exact ⟨name, 0, [], ⟨by simp, hb, by simp, hlen, by simp, fun _ => Or.inl rfl⟩, by omega,
      fun _ => rfl⟩
  · exact ⟨base, 1, ext, ⟨by simp, hb, he, hlen, hext, by simp⟩, le_refl 1, by simp⟩

/-- An accepted name is of that form, or stretched. -/
theorem Spelled.form {w e : List UInt8} {k : Nat} (h : Spelled name w k e) :
    EightThree name ∨ Stretched name := by
  rcases k with _ | _ | k
  · have heq : name = w ++ e := by simpa using h.eq
    obtain rfl | hfull := h.undotted rfl
    · exact Or.inl ⟨w, [], h.base_chars, by simp, h.base_len, by simp, Or.inl (by simpa using heq)⟩
    · cases e with
      | nil =>
          exact Or.inl ⟨w, [], h.base_chars, by simp, h.base_len, by simp,
            Or.inl (by simpa using heq)⟩
      | cons c e =>
          have hext := h.ext_len
          refine Or.inr (Or.inr ⟨fun b hb => ?_, ?_, ?_⟩)
          · rw [heq] at hb
            exact (List.mem_append.mp hb).elim (h.base_chars b) (h.ext_chars b)
          · rw [heq, List.length_append, List.length_cons]
            omega
          · rw [heq, List.length_append]
            omega
  · exact Or.inl ⟨w, e, h.base_chars, h.ext_chars, h.base_len, h.ext_len,
      Or.inr (by simpa using h.eq)⟩
  · exact Or.inr (Or.inl ⟨w, k + 2, e, h.base_chars, h.ext_chars, h.base_len, h.ext_len, by omega,
      h.eq⟩)

/-- A stretched name is accepted. -/
theorem Stretched.spelled (h : Stretched name) : ∃ w k e, Spelled name w k e := by
  obtain ⟨base, k, ext, hb, he, hlen, hext, hk, heq⟩ | ⟨hchars, h9, h11⟩ := h
  · exact ⟨base, k, ext, heq, hb, he, hlen, hext, by omega⟩
  · refine ⟨name.take 8, 0, name.drop 8, by simp, fun c hc => hchars c (List.mem_of_mem_take hc),
      fun c hc => hchars c (List.mem_of_mem_drop hc), ?_, ?_, fun _ => Or.inr ?_⟩
    · rw [List.length_take]
      omega
    · rw [List.length_drop]
      omega
    · rw [List.length_take]
      omega

/-- A stretched name is not of the 8.3 form: it has two dots or none and too many
characters. -/
theorem Stretched.not_eightThree (h : Stretched name) : ¬ EightThree name := by
  intro hform
  obtain ⟨w, k, e, hspelled, hk, hempty⟩ := hform.spelled
  have hdots : name.count 46 = k := by
    rw [hspelled.eq, List.count_append, List.count_append, List.count_replicate_self,
      count_dot_eq_zero hspelled.base_chars, count_dot_eq_zero hspelled.ext_chars]
    omega
  obtain ⟨base, j, ext, hb, he, -, -, hj, heq⟩ | ⟨hchars, h9, -⟩ := h
  · rw [heq, List.count_append, List.count_append, List.count_replicate_self,
      count_dot_eq_zero hb, count_dot_eq_zero he] at hdots
    omega
  · rw [count_dot_eq_zero hchars] at hdots
    subst hdots
    have hlen := hspelled.base_len.2
    rw [hspelled.eq, hempty rfl] at h9
    simp at h9
    omega

/-- The plain name of an accepted name of the 8.3 form. -/
theorem Spelled.plainName_eq {w e : List UInt8} {k : Nat} (h : Spelled name w k e) (hk : k ≤ 1)
    (hempty : k = 0 → e = []) : plainName name =
      w.map upperByte ++ (if e = [] then [] else 46 :: e.map upperByte) := by
  have hlast : ∀ {xs : List UInt8}, xs ≠ [] → (∀ c ∈ xs, NameChar c) →
      (xs.map upperByte).getLast? ≠ some 46 := by
    intro xs hne hxs hdot
    obtain ⟨c, hmem, heq⟩ := List.mem_map.mp (List.mem_of_getLast? hdot)
    exact (hxs c hmem).upper_ne.2 heq
  have hw : w ≠ [] := List.length_pos_iff.mp h.base_len.1
  have hdot : upperByte 46 = 46 := by decide
  rw [plainName, h.eq]
  by_cases he : e = []
  · subst he
    rcases k with _ | _ | k
    · have hne := hlast hw h.base_chars
      rw [List.replicate_zero, List.append_nil, List.append_nil, if_neg hne, if_pos rfl,
        List.append_nil]
    · simp [hdot]
    · omega
  · have hk1 : k = 1 := by
      rcases k with _ | _ | k
      · exact absurd (hempty rfl) he
      · rfl
      · omega
    subst hk1
    have hne := hlast he h.ext_chars
    have hcons : (w ++ List.replicate 1 46 ++ e).map upperByte
        = w.map upperByte ++ [46] ++ e.map upperByte := by
      simp [hdot]
    rw [hcons, if_neg, if_neg he]
    · simp
    · rwa [List.getLast?_append_of_ne_nil _ (by simpa using he)]

/-- Encodings of names of the 8.3 form agree exactly where their plain names do. -/
theorem encode83_eq_iff {w e w' e' : List UInt8} {k k' : Nat} (h : Spelled name w k e)
    (h' : Spelled name' w' k' e') (hk : k ≤ 1) (hk' : k' ≤ 1) (hempty : k = 0 → e = [])
    (hempty' : k' = 0 → e' = []) :
    encode83 w e = encode83 w' e' ↔ plainName name = plainName name' := by
  have hdot : ∀ {xs : List UInt8}, (∀ c ∈ xs, NameChar c) → 46 ∉ xs.map upperByte := by
    intro xs hxs hmem
    obtain ⟨c, hc, heq⟩ := List.mem_map.mp hmem
    exact (hxs c hc).upper_ne.2 heq
  have hboundary : ∀ xs : List UInt8,
      AtBoundary 46 (if xs = [] then [] else 46 :: xs.map upperByte) := by
    intro xs
    split <;> simp [AtBoundary]
  rw [h.plainName_eq hk hempty, h'.plainName_eq hk' hempty']
  constructor
  · intro heq
    obtain ⟨hbase, hext⟩ := encode83_inj h.base_len.2 h'.base_len.2 h.base_chars h'.base_chars
      h.ext_chars h'.ext_chars heq
    have hnil : e = [] ↔ e' = [] := by
      rw [← @List.map_eq_nil_iff _ _ upperByte e, hext, List.map_eq_nil_iff]
    rw [hbase, hext]
    by_cases he : e = []
    · rw [if_pos he, if_pos (hnil.mp he)]
    · rw [if_neg he, if_neg fun h => he (hnil.mpr h)]
  · intro heq
    obtain ⟨hbase, hext⟩ := segment_append_inj (hdot h.base_chars) (hdot h'.base_chars)
      (hboundary e) (hboundary e') heq
    have hext : e.map upperByte = e'.map upperByte := by
      by_cases he : e = [] <;> by_cases he' : e' = []
      · rw [he, he']
      · rw [if_pos he, if_neg he'] at hext
        exact absurd hext (List.cons_ne_nil _ _).symm
      · rw [if_neg he, if_pos he'] at hext
        exact absurd hext (List.cons_ne_nil _ _)
      · rw [if_neg he, if_neg he'] at hext
        exact (List.cons.inj hext).2
    rw [encode83, encode83, padded_congr 8 hbase, padded_congr 3 hext]

end Forms

/-- `make_name83` tells names of the 8.3 form apart and rejects the others exactly
where neither name is stretched. -/
theorem name83_apart_iff (name name' : List UInt8) :
    NamesApart name name' ↔ ¬ Stretched name ∧ ¬ Stretched name' := by
  have hstretched : ∀ n : List UInt8, (makeName83 n ≠ none ↔ EightThree n) ↔ ¬ Stretched n := by
    intro n
    constructor
    · intro hiff hstretch
      obtain ⟨w, k, e, hspelled⟩ := hstretch.spelled
      have haccept : makeName83 n = some (encode83 w e) := makeName83_iff.mpr ⟨w, k, e, hspelled, rfl⟩
      exact hstretch.not_eightThree (hiff.mp (by simp [haccept]))
    · intro hno
      constructor
      · intro haccept
        obtain ⟨r, hr⟩ := Option.ne_none_iff_exists'.mp haccept
        obtain ⟨w, k, e, hspelled, -⟩ := makeName83_iff.mp hr
        exact hspelled.form.resolve_right hno
      · intro hform
        obtain ⟨w, k, e, hspelled, -⟩ := hform.spelled
        have haccept : makeName83 n = some (encode83 w e) :=
          makeName83_iff.mpr ⟨w, k, e, hspelled, rfl⟩
        simp [haccept]
  constructor
  · intro h
    exact ⟨(hstretched name).mp h.left, (hstretched name').mp h.right⟩
  · rintro ⟨hno, hno'⟩
    refine ⟨(hstretched name).mpr hno, (hstretched name').mpr hno', fun r r' hr hr' => ?_⟩
    have hform := ((hstretched name).mpr hno).mp (by simp [hr])
    have hform' := ((hstretched name').mpr hno').mp (by simp [hr'])
    obtain ⟨w, k, e, hspelled, hk, hempty⟩ := hform.spelled
    obtain ⟨w', k', e', hspelled', hk', hempty'⟩ := hform'.spelled
    obtain rfl : encode83 w e = r := Option.some.inj
      ((makeName83_iff.mpr ⟨w, k, e, hspelled, rfl⟩).symm.trans hr)
    obtain rfl : encode83 w' e' = r' := Option.some.inj
      ((makeName83_iff.mpr ⟨w', k', e', hspelled', rfl⟩).symm.trans hr')
    exact encode83_eq_iff hspelled hspelled' hk hk' hempty hempty'

/-- A second dot, and a dot left out, name the file of another name. -/
theorem name83_collides : ¬ NamesApart (ascii "A..B") (ascii "A.B") ∧
    ¬ NamesApart (ascii "ABCDEFGHI") (ascii "ABCDEFGH.I") := by
  constructor
  · intro h
    exact absurd ((h.apart (ascii "A       B  ") (ascii "A       B  ") (by decide) (by decide)).mp rfl)
      (by decide)
  · intro h
    exact absurd ((h.apart (ascii "ABCDEFGHI  ") (ascii "ABCDEFGHI  ") (by decide) (by decide)).mp rfl)
      (by decide)

end RoninOS.Fs
