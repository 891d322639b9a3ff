/-
RoninOS.Fs.VfsTheorems — what `find_mount` resolves.

Every path and every mountpoint that reaches `find_mount` is an output of
`normalize_path`, so it is the writing of a list of components
(`normalizePath_canonical`). On such paths the string test of `starts_with`
is the component-wise prefix test, with one exception: the byte after a
one-byte mountpoint `/` is the first byte of a component, not a separator,
so `/` only matches the path `/` itself (`startsWith_render_iff`). The loop
of `find_mount` returns the last of the longest matching mountpoints
(`findMountLoop_spec`). Together: `find_mount` resolves every path as the
component-wise longest-prefix rule demands, except where only the root mount
covers the path (`findMount_resolves_iff`).
-/
import RoninOS.Fs.Vfs
import RoninOS.Lib.Delimited
import Mathlib.Data.List.TakeWhile

namespace RoninOS.Fs

open RoninOS.Lib

variable {Ops Ctx Node : Type}

/-! ## Canonical paths -/

/-- A component that `normalize_path` can leave in its output. -/
structure ValidSegment (s : List UInt8) : Prop where
  ne_nil : s ≠ []
  no_slash : slash ∉ s
  no_nul : 0 ∉ s
  ne_dot : s ≠ ascii "."
  ne_dotdot : s ≠ ascii ".."
  length_lt : s.length < vfsMaxName

/-- The path with the given components. -/
def render (comps : List (List UInt8)) : List UInt8 :=
  if comps = [] then [slash] else delimited slash comps

/-- The components of a path: the non-empty pieces between slashes. -/
def components (p : List UInt8) : List (List UInt8) := (p.splitOn slash).filter (· ≠ [])

/-- A canonical absolute path. -/
def CanonicalPath (p : List UInt8) : Prop :=
  ∃ comps : List (List UInt8), (∀ c ∈ comps, ValidSegment c) ∧ comps.length ≤ maxSegs ∧
    p = render comps ∧ p.length < vfsMaxPath

theorem render_nil : render [] = [slash] := rfl

theorem render_of_ne_nil {comps : List (List UInt8)} (h : comps ≠ []) :
    render comps = delimited slash comps := if_neg h

theorem components_render {comps : List (List UInt8)} (h : ∀ c ∈ comps, ValidSegment c) :
    components (render comps) = comps := by
  by_cases hnil : comps = []
  · subst hnil
    decide
  · rw [render_of_ne_nil hnil]
    exact splitOn_delimited (fun c hc => (h c hc).no_slash) (fun c hc => (h c hc).ne_nil)

theorem length_render_of_ne_nil {comps : List (List UInt8)} (h : ∀ c ∈ comps, ValidSegment c)
    (hnil : comps ≠ []) : 1 < (render comps).length := by
  rw [render_of_ne_nil hnil]
  cases comps with
  | nil => exact absurd rfl hnil
  | cons c cs =>
      have hc : 0 < c.length := List.length_pos_iff.mpr (h c (by simp)).ne_nil
      simp only [delimited_cons, List.length_cons, List.length_append]
      omega

theorem render_eq_root_iff {comps : List (List UInt8)} (h : ∀ c ∈ comps, ValidSegment c) :
    render comps = [slash] ↔ comps = [] := by
  constructor
  · intro hroot
    by_contra hnil
    have hlen := length_render_of_ne_nil h hnil
    rw [hroot] at hlen
    exact absurd hlen (by decide)
  · rintro rfl
    rfl

theorem no_nul_render {comps : List (List UInt8)} (h : ∀ c ∈ comps, ValidSegment c) :
    0 ∉ render comps := by
  have hslash : (0 : UInt8) ≠ slash := by decide
  by_cases hnil : comps = []
  · subst hnil
    simpa [render_nil] using hslash
  · rw [render_of_ne_nil hnil, delimited]
    simp only [List.mem_flatMap, List.mem_cons, not_exists, not_and, not_or]
    exact fun c hc => ⟨hslash, (h c hc).no_nul⟩

theorem CanonicalPath.no_nul {p : List UInt8} (h : CanonicalPath p) : 0 ∉ p := by
  obtain ⟨comps, hvalid, -, rfl, -⟩ := h
  exact no_nul_render hvalid

/-- Appending one component appends it after a separator, which the root path
already carries. -/
theorem render_append_singleton {comps : List (List UInt8)} (h : ∀ c ∈ comps, ValidSegment c)
    (s : List UInt8) :
    render (comps ++ [s])
      = render comps ++ (if (render comps).length > 1 then [slash] else []) ++ s := by
  by_cases hnil : comps = []
  · subst hnil
    simp [render]
  · rw [if_pos (length_render_of_ne_nil h hnil), render_of_ne_nil hnil,
      render_of_ne_nil (by simp)]
    simp

/-! ## `normalize_path` yields canonical paths -/

/-- `copy_str` copies the whole string or fails. -/
theorem copyStr_eq (src : List UInt8) (max : Nat) :
    copyStr src max = if src.length ≤ max - 1 then some src else none := by
  rw [copyStr, sLen]
  by_cases hle : src.length ≤ max - 1
  · rw [if_pos hle, Nat.min_eq_left hle, if_neg (Nat.lt_irrefl _), List.take_length]
  · rw [if_neg hle, if_pos (by omega)]

theorem copyStr_eq_some {src dst : List UInt8} {max : Nat} (h : copyStr src max = some dst) :
    dst = src ∧ src.length ≤ max - 1 := by
  rw [copyStr_eq] at h
  split at h
  · rename_i hle
    exact ⟨(Option.some.inj h).symm, hle⟩
  · cases h

theorem absolutePath_no_nul {cwd path temp : List UInt8} (hc : 0 ∉ cwd) (hp : 0 ∉ path)
    (h : absolutePath cwd path = some temp) : 0 ∉ temp := by
  simp only [absolutePath] at h
  split at h
  · rw [(copyStr_eq_some h).1]
    exact hp
  · split at h
    · cases h
    · obtain ⟨dst, hdst, rfl⟩ := Option.map_eq_some_iff.mp h
      rw [(copyStr_eq_some hdst).1]
      have hslash : (0 : UInt8) ≠ slash := by decide
      intro hmem
      rcases List.mem_append.mp hmem with hmem | hmem
      · rcases List.mem_append.mp hmem with hmem | hmem
        · exact hc (List.mem_of_mem_take hmem)
        · split at hmem
          · exact hslash (by simpa using hmem)
          · simp at hmem
      · exact hp hmem

/-- The segment scanned from a non-empty rest without leading slashes. -/
theorem scanSegment_valid {s : List UInt8} (hnul : 0 ∉ s)
    (hs : s.head? ≠ none) (hslash : s.head? ≠ some slash)
    (hdot : (scanSegment s).1 ≠ ascii ".") (hdots : (scanSegment s).1 ≠ ascii "..") :
    ValidSegment (scanSegment s).1 := by
  cases s with
  | nil => exact absurd rfl hs
  | cons c cs =>
      have hc : c ≠ slash := fun h => hslash (by simp [h])
      refine ⟨?_, ?_, ?_, hdot, hdots, ?_⟩
      · simp [scanSegment, hc, vfsMaxName]
      · intro hmem
        have := List.mem_takeWhile_imp (List.mem_of_mem_take hmem)
        simp at this
      · intro hmem
        exact hnul ((List.takeWhile_sublist _).subset (List.mem_of_mem_take hmem))
      · simp only [scanSegment, List.length_take, vfsMaxName]
        omega

theorem head?_dropWhile_slash (s : List UInt8) :
    (s.dropWhile (· = slash)).head? ≠ some slash := by
  intro h
  have := List.head?_dropWhile_not (fun c => decide (c = slash)) s
  rw [h] at this
  simp at this

/-- The stack of `normalize_path` holds valid segments, at most 16 of them. -/
theorem splitLoop_valid : ∀ (fuel : Nat) {temp : List UInt8} {segs out : List (List UInt8)},
    0 ∉ temp → (∀ s ∈ segs, ValidSegment s) → segs.length ≤ maxSegs →
    splitLoop fuel temp segs = some out →
    (∀ s ∈ out, ValidSegment s) ∧ out.length ≤ maxSegs
  | 0, _, segs, out, _, hsegs, hlen, h => by
      obtain rfl : segs = out := by simpa [splitLoop] using h
      exact ⟨hsegs, hlen⟩
  | fuel + 1, temp, segs, out, hnul, hsegs, hlen, h => by
      have hs : 0 ∉ temp.dropWhile (· = slash) :=
        fun hm => hnul ((List.dropWhile_sublist _).subset hm)
      have hrest : 0 ∉ (scanSegment (temp.dropWhile (· = slash))).2 :=
        fun hm => hs ((List.dropWhile_sublist _).subset hm)
      simp only [splitLoop] at h
      split at h
      · obtain rfl : segs = out := by simpa using h
        exact ⟨hsegs, hlen⟩
      · rename_i hne
        have hdots0 : 0 ∉ (scanSegment (temp.dropWhile (· = slash))).1 :=
          fun hm => hs ((List.takeWhile_sublist _).subset (List.mem_of_mem_take hm))
        split at h
        · exact splitLoop_valid fuel hrest hsegs hlen h
        · rename_i hdot
          split at h
          · refine splitLoop_valid fuel hrest (fun s hs' => hsegs s (List.mem_of_mem_dropLast hs')) ?_ h
            rw [List.length_dropLast]
            omega
          · rename_i hdotdot
            split at h
            · cases h
            · rename_i htop
              split at h
              · cases h
              · rename_i copied hcopy
                have hseg : ValidSegment (scanSegment (temp.dropWhile (· = slash))).1 := by
                  refine scanSegment_valid hs ?_ (head?_dropWhile_slash temp) ?_ ?_
                  · simpa using hne
                  · exact fun he => hdot ((strcmp_eq_zero_iff hdots0 (by decide)).mpr he)
                  · exact fun he => hdotdot ((strcmp_eq_zero_iff hdots0 (by decide)).mpr he)
                rw [← (copyStr_eq_some hcopy).1] at hseg
                refine splitLoop_valid fuel hrest ?_ ?_ h
                · intro s hs'
                  rcases List.mem_append.mp hs' with hs' | hs'
                  · exact hsegs s hs'
                  · rw [List.mem_singleton.mp hs']
                    exact hseg
                · rw [List.length_append, List.length_singleton]
                  omega

/-- The output loop renders the segments written so far and those to come. -/
theorem joinLoop_render : ∀ (segs : List (List UInt8)) {done : List (List UInt8)}
    {out : List UInt8}, (∀ s ∈ done, ValidSegment s) → (∀ s ∈ segs, ValidSegment s) →
    (render done).length < vfsMaxPath → joinLoop (render done) segs = some out →
    out = render (done ++ segs) ∧ out.length < vfsMaxPath
  | [], done, out, _, _, hlen, h => by
      obtain rfl : render done = out := by simpa [joinLoop] using h
      exact ⟨by simp, hlen⟩
  | seg :: segs, done, out, hdone, hsegs, hlen, h => by
      have hseg : ValidSegment seg := hsegs seg (by simp)
      have hn : sLen seg vfsMaxName = seg.length := Nat.min_eq_left hseg.length_lt.le
      simp only [joinLoop, hn, List.take_length, ← render_append_singleton hdone seg] at h
      split at h
      · cases h
      · rename_i hfit
        have hdone' : ∀ s ∈ done ++ [seg], ValidSegment s := by
          intro s hs
          rcases List.mem_append.mp hs with hs | hs
          · exact hdone s hs
          · rw [List.mem_singleton.mp hs]
            exact hseg
        have hlen' : (render (done ++ [seg])).length < vfsMaxPath := by
          rw [render_append_singleton hdone seg]
          simp only [List.length_append]
          split <;> simp <;> omega
        have := joinLoop_render segs hdone' (fun s hs => hsegs s (by simp [hs])) hlen' h
        simpa using this

/-- Whatever the working directory, `normalize_path` yields canonical paths. -/
theorem normalizePath_canonical {cwd path p : List UInt8} (hc : 0 ∉ cwd) (hp : 0 ∉ path)
    (h : normalizePath cwd path = some p) : CanonicalPath p := by
  unfold normalizePath at h
  split at h
  · cases h
  · rename_i temp htemp
    split at h
    · cases h
    · rename_i segs hsegs
      obtain ⟨hvalid, hlen⟩ := splitLoop_valid temp.length (absolutePath_no_nul hc hp htemp)
        (by simp) (by simp) hsegs
      obtain ⟨hout, hshort⟩ := @joinLoop_render segs [] _ (by simp) hvalid
        (by decide) h
      exact ⟨segs, hvalid, hlen, hout, hshort⟩

/-! ## `starts_with` on canonical paths -/

/-- On NUL-free strings `starts_with` asks for a prefix that ends at a
separator or at the end. -/
theorem startsWith_iff {a b : List UInt8} (ha : 0 ∉ a) (hb : 0 ∉ b) :
    startsWith a b = true ↔ ∃ t, a = b ++ t ∧ AtBoundary slash t := by
  have htake : strncmp a b (strlen b) = 0 ↔ a.take b.length = b := by
    rw [strncmp_eq_zero_iff _ ha hb]
    simp [strlen]
  unfold startsWith
  simp only [ne_eq, htake]
  constructor
  · intro h
    split at h
    · cases h
    · rename_i hpre
      refine ⟨a.drop b.length, ?_, ?_⟩
      · conv_lhs => rw [← List.take_append_drop b.length a, not_not.mp hpre]
      · intro c hc
        rw [Option.mem_def] at hc
        simpa [strlen, hc] using h
  · rintro ⟨t, rfl, ht⟩
    rw [if_neg (by simp)]
    simp only [strlen, List.drop_left, decide_eq_true_eq]
    cases hhead : t.head? with
    | none => exact Or.inl rfl
    | some c => exact Or.inr (by rw [ht c hhead])

/-- `starts_with` is the component-wise prefix test, except that the root
matches itself only. -/
theorem startsWith_render_iff {cs ms : List (List UInt8)} (hcs : ∀ c ∈ cs, ValidSegment c)
    (hms : ∀ m ∈ ms, ValidSegment m) :
    startsWith (render cs) (render ms) = true ↔ ms <+: cs ∧ (ms = [] → cs = []) := by
  rw [startsWith_iff (no_nul_render hcs) (no_nul_render hms)]
  by_cases hnil : ms = []
  · subst hnil
    simp only [render_nil, List.nil_prefix, true_and, forall_const]
    constructor
    · rintro ⟨t, ht, hb⟩
      by_contra hne
      -- the byte after the leading slash belongs to the first component
      obtain ⟨c, cs, rfl⟩ := List.exists_cons_of_ne_nil hne
      obtain ⟨b, c', rfl⟩ := List.exists_cons_of_ne_nil (hcs c (by simp)).ne_nil
      simp only [render, reduceCtorEq, if_false, delimited_cons, List.cons_append,
        List.nil_append, List.cons.injEq, true_and] at ht
      subst ht
      have hbslash : b = slash := hb b rfl
      exact (hcs (b :: c') (by simp)).no_slash (by simp [hbslash])
    · rintro rfl
      exact ⟨[], rfl, by simp [AtBoundary]⟩
  · simp only [hnil, false_implies, and_true]
    rw [render_of_ne_nil hnil]
    by_cases hcnil : cs = []
    · subst hcnil
      simp only [List.prefix_nil, hnil, iff_false, not_exists, not_and]
      rintro t ht
      exfalso
      have hlen := length_render_of_ne_nil hms hnil
      rw [render_of_ne_nil hnil] at hlen
      have := congrArg List.length ht
      simp only [render_nil, List.length_append, List.length_singleton] at this
      omega
    · rw [render_of_ne_nil hcnil]
      constructor
      · rintro ⟨t, ht, hb⟩
        obtain ⟨rest, hrest, -⟩ := (delimited_eq_append_iff (fun m hm => (hms m hm).no_slash)
          (fun c hc => (hcs c hc).no_slash)).mp ⟨ht, hb⟩
        exact ⟨rest, hrest.symm⟩
      · rintro ⟨rest, rfl⟩
        exact ⟨delimited slash rest, by simp, atBoundary_delimited rest⟩

/-- After the mountpoint, `find_mount` leaves the other components. -/
theorem drop_render {cs ms : List (List UInt8)} (hms : ∀ m ∈ ms, ValidSegment m)
    (hpre : ms <+: cs) (hroot : ms = [] → cs = []) :
    (let sub := (render cs).drop (render ms).length
     if sub.head? = some slash then sub.tail else sub)
      = [slash].intercalate (cs.drop ms.length) := by
  obtain ⟨rest, rfl⟩ := hpre
  by_cases hnil : ms = []
  · obtain rfl : rest = [] := by simpa [hnil] using hroot
    subst hnil
    rfl
  · rw [render_of_ne_nil hnil, render_of_ne_nil (by simp [hnil]), delimited_append,
      List.drop_left, List.drop_left, ← tail_delimited]
    cases rest with
    | nil => rfl
    | cons r rest => simp

/-! ## The loop of `find_mount` -/

/-- Slot `k` of the table holds the mount `m`, and `starts_with` accepts it. -/
def Matches (path : List UInt8) (mounts : List (Option (VfsMount Ops Ctx))) (k : Nat)
    (m : VfsMount Ops Ctx) : Prop :=
  mounts[k]? = some (some m) ∧ startsWith path m.mountpoint = true

/-- What the loop may return from slot `i` on: the last of the longest
matching mountpoints ahead, or the best slot so far when no match ahead
reaches its length. -/
def LoopResult (path : List UInt8) (ms : List (Option (VfsMount Ops Ctx))) (i : Nat)
    (best : Option Nat) (bestLen : Nat) (r : Option Nat × Nat) : Prop :=
  (∃ k m, Matches path ms k m ∧ bestLen ≤ m.mountpoint.length ∧
    r = (some (i + k), m.mountpoint.length) ∧
    ∀ k' m', Matches path ms k' m' → m'.mountpoint.length ≤ m.mountpoint.length ∧
      (k < k' → m'.mountpoint.length < m.mountpoint.length)) ∨
  (r = (best, bestLen) ∧ ∀ k m, Matches path ms k m → m.mountpoint.length < bestLen)

/-- The matches after the first slot are the matches of the tail. -/
theorem matches_succ {path : List UInt8} {slot : Option (VfsMount Ops Ctx)}
    {ms : List (Option (VfsMount Ops Ctx))} {k : Nat} {m : VfsMount Ops Ctx} :
    Matches path (slot :: ms) (k + 1) m ↔ Matches path ms k m := by
  simp [Matches]

/-- A slot with no match of the best length is passed over. -/
theorem LoopResult.skip {path : List UInt8} {slot : Option (VfsMount Ops Ctx)}
    {ms : List (Option (VfsMount Ops Ctx))} {i : Nat} {best : Option Nat} {bestLen : Nat}
    {r : Option Nat × Nat} (h : LoopResult path ms (i + 1) best bestLen r)
    (hno : ∀ m, Matches path (slot :: ms) 0 m → m.mountpoint.length < bestLen) :
    LoopResult path (slot :: ms) i best bestLen r := by
  rcases h with ⟨k, m, hm, hlen, rfl, hmax⟩ | ⟨rfl, hmax⟩
  · refine Or.inl ⟨k + 1, m, matches_succ.mpr hm, hlen, by congr 2; omega, ?_⟩
    intro k' m' hm'
    cases k' with
    | zero =>
        have := hno m' hm'
        exact ⟨by omega, fun hlt => by omega⟩
    | succ k' =>
        obtain ⟨h1, h2⟩ := hmax k' m' (matches_succ.mp hm')
        exact ⟨h1, fun hlt => h2 (by omega)⟩
  · refine Or.inr ⟨rfl, ?_⟩
    intro k m hm
    cases k with
    | zero => exact hno m hm
    | succ k => exact hmax k m (matches_succ.mp hm)

/-- A match of at least the best length becomes the best slot. -/
theorem LoopResult.take {path : List UInt8} {m₀ : VfsMount Ops Ctx}
    {ms : List (Option (VfsMount Ops Ctx))} {i : Nat} {best : Option Nat} {bestLen : Nat}
    {r : Option Nat × Nat} (h : LoopResult path ms (i + 1) (some i) m₀.mountpoint.length r)
    (hsw : startsWith path m₀.mountpoint = true) (hge : bestLen ≤ m₀.mountpoint.length) :
    LoopResult path (some m₀ :: ms) i best bestLen r := by
  have h0 : ∀ m, Matches path (some m₀ :: ms) 0 m → m = m₀ :=
    fun m hm => by simpa using hm.1.symm
  left
  rcases h with ⟨k, m, hm, hlen, rfl, hmax⟩ | ⟨rfl, hmax⟩
  · refine ⟨k + 1, m, matches_succ.mpr hm, by omega, by congr 2; omega, ?_⟩
    intro k' m' hm'
    cases k' with
    | zero =>
        rw [h0 m' hm']
        exact ⟨hlen, fun hlt => by omega⟩
    | succ k' =>
        obtain ⟨h1, h2⟩ := hmax k' m' (matches_succ.mp hm')
        exact ⟨h1, fun hlt => h2 (by omega)⟩
  · refine ⟨0, m₀, ⟨rfl, hsw⟩, hge, rfl, ?_⟩
    intro k' m' hm'
    cases k' with
    | zero =>
        rw [h0 m' hm']
        exact ⟨le_rfl, fun hlt => by omega⟩
    | succ k' =>
        have := hmax k' m' (matches_succ.mp hm')
        exact ⟨this.le, fun _ => this⟩

theorem findMountLoop_spec (path : List UInt8) : ∀ (ms : List (Option (VfsMount Ops Ctx)))
    (i : Nat) (best : Option Nat) (bestLen : Nat),
    LoopResult path ms i best bestLen (findMountLoop path i ms best bestLen)
  | [], i, best, bestLen => Or.inr ⟨rfl, fun k m h => by simp [Matches] at h⟩
  | none :: ms, i, best, bestLen =>
      (findMountLoop_spec path ms (i + 1) best bestLen).skip
        (fun m h => by simp [Matches] at h)
  | some m₀ :: ms, i, best, bestLen => by
      by_cases hsw : startsWith path m₀.mountpoint = true
      · by_cases hge : bestLen ≤ m₀.mountpoint.length
        · simpa [findMountLoop, hsw, strlen, hge] using
            (findMountLoop_spec path ms (i + 1) (some i) m₀.mountpoint.length).take hsw hge
        · have hshort : ∀ m, Matches path (some m₀ :: ms) 0 m →
              m.mountpoint.length < bestLen := by
            rintro m ⟨hslot, -⟩
            obtain rfl : m₀ = m := by simpa using hslot
            omega
          simpa [findMountLoop, hsw, strlen, hge] using
            (findMountLoop_spec path ms (i + 1) best bestLen).skip hshort
      · have hno : ∀ m, Matches path (some m₀ :: ms) 0 m → m.mountpoint.length < bestLen := by
          rintro m ⟨hslot, hm⟩
          obtain rfl : m₀ = m := by simpa using hslot
          exact absurd hm hsw
        simpa [findMountLoop, hsw] using
          (findMountLoop_spec path ms (i + 1) best bestLen).skip hno

/-- `find_mount` returns the last of the longest matching mountpoints. -/
theorem findMount_eq_some {mounts : List (Option (VfsMount Ops Ctx))} {path sub : List UInt8}
    {i : Nat} (h : findMount mounts path = some (i, sub)) :
    ∃ m, Matches path mounts i m ∧
      sub = (let s := path.drop m.mountpoint.length
             if s.head? = some slash then s.tail else s) ∧
      ∀ j m', Matches path mounts j m' → m'.mountpoint.length ≤ m.mountpoint.length ∧
        (i < j → m'.mountpoint.length < m.mountpoint.length) := by
  unfold findMount at h
  rcases findMountLoop_spec path mounts 0 none 0 with ⟨k, m, hm, -, heq, hmax⟩ | ⟨heq, -⟩
  · rw [heq] at h
    simp only [Nat.zero_add, Option.some.injEq, Prod.mk.injEq] at h
    obtain ⟨rfl, rfl⟩ := h
    exact ⟨m, hm, rfl, hmax⟩
  · rw [heq] at h
    cases h

/-- `find_mount` fails only when no mountpoint matches. -/
theorem findMount_eq_none {mounts : List (Option (VfsMount Ops Ctx))} {path : List UInt8}
    (h : findMount mounts path = none) (j : Nat) (m : VfsMount Ops Ctx) :
    ¬ Matches path mounts j m := by
  unfold findMount at h
  rcases findMountLoop_spec path mounts 0 none 0 with ⟨k, m', -, -, heq, -⟩ | ⟨-, hmax⟩
  · rw [heq] at h
    cases h
  · exact fun hm => absurd (hmax j m hm) (by omega)

/-! ## Mount tables -/

/-- The tables that calls of `vfs_mount` build after `vfs_init`; between two
calls `vfs_chdir` may have moved `g_cwd`. -/
inductive MountReachable : Vfs Ops Ctx Node → Prop
  | init : MountReachable vfsInit
  | mount {v : Vfs Ops Ctx Node} (cwd mountpoint : CString) (ops : Option Ops) (ctx : Ctx) :
      MountReachable v →
      MountReachable (vfsMount { v with cwd := cwd.bytes } mountpoint ops ctx).2

/-- Every used mountpoint is a canonical path. -/
def TableOk (mounts : List (Option (VfsMount Ops Ctx))) : Prop :=
  ∀ m, some m ∈ mounts → CanonicalPath m.mountpoint

theorem vfsMount_tableOk {v : Vfs Ops Ctx Node} (hv : TableOk v.mounts) (hc : 0 ∉ v.cwd)
    (mountpoint : CString) (ops : Option Ops) (ctx : Ctx) :
    TableOk (vfsMount v mountpoint ops ctx).2.mounts := by
  unfold vfsMount
  split
  · exact hv
  · split
    · exact hv
    · rename_i norm hnorm
      split
      · exact hv
      · intro m hm
        rcases List.mem_or_eq_of_mem_set hm with hm | hm
        · exact hv m hm
        · obtain rfl := Option.some.inj hm
          exact normalizePath_canonical hc mountpoint.noNul hnorm

theorem MountReachable.tableOk {v : Vfs Ops Ctx Node} (h : MountReachable v) :
    TableOk v.mounts := by
  induction h with
  | init =>
      intro m hm
      simp [vfsInit] at hm
  | @mount v cwd mountpoint ops ctx _ ih =>
      exact vfsMount_tableOk (v := { v with cwd := cwd.bytes }) ih cwd.noNul mountpoint ops ctx

/-! ## Longest-prefix resolution -/

/-- Slot `j` holds a mount whose mountpoint is a component-wise prefix of the path. -/
def Covers (path : List UInt8) (mounts : List (Option (VfsMount Ops Ctx))) (j : Nat)
    (m : VfsMount Ops Ctx) : Prop :=
  mounts[j]? = some (some m) ∧ components m.mountpoint <+: components path

/-- `find_mount` resolves the path by the component-wise longest-prefix rule:
the covering mount of maximal length, the latest slot on a tie, with the other
components as subpath; no mount only when none covers the path. -/
def Resolves (mounts : List (Option (VfsMount Ops Ctx))) (path : List UInt8) : Prop :=
  match findMount mounts path with
  | some (i, sub) =>
      ∃ m, Covers path mounts i m ∧
        (∀ j m', Covers path mounts j m' → m'.mountpoint.length ≤ m.mountpoint.length ∧
          (m'.mountpoint.length = m.mountpoint.length → j ≤ i)) ∧
        sub = [slash].intercalate
          ((components path).drop (components m.mountpoint).length)
  | none => ∀ j m, ¬ Covers path mounts j m

/-- A mount on `/` covers every path. -/
theorem covers_root {path : List UInt8} {mounts : List (Option (VfsMount Ops Ctx))} {j : Nat}
    {m : VfsMount Ops Ctx} (hslot : mounts[j]? = some (some m)) (hroot : m.mountpoint = [slash]) :
    Covers path mounts j m := by
  refine ⟨hslot, ?_⟩
  have hnil : components m.mountpoint = [] := by
    rw [hroot]
    decide
  rw [hnil]
  exact List.nil_prefix

/-- The string test of `find_mount` against component-wise covering: they
differ only at a root mount below which the path lies. -/
theorem matches_iff_covers {path : List UInt8} (hpath : CanonicalPath path)
    {mounts : List (Option (VfsMount Ops Ctx))} (hok : TableOk mounts) {j : Nat}
    {m : VfsMount Ops Ctx} :
    Matches path mounts j m ↔
      Covers path mounts j m ∧ (m.mountpoint = [slash] → path = [slash]) := by
  obtain ⟨cs, hcs, -, rfl, -⟩ := hpath
  unfold Matches Covers
  rw [and_assoc]
  refine and_congr_right (fun hslot => ?_)
  obtain ⟨ms, hms, -, hm, -⟩ := hok m (List.mem_of_getElem? hslot)
  rw [hm, startsWith_render_iff hcs hms, components_render hcs, components_render hms,
    render_eq_root_iff hms, render_eq_root_iff hcs]

theorem one_lt_length_of_ne_root {path : List UInt8} (h : CanonicalPath path)
    (hne : path ≠ [slash]) : 1 < path.length := by
  obtain ⟨cs, hcs, -, rfl, -⟩ := h
  exact length_render_of_ne_nil hcs (fun hnil => hne (by rw [hnil]; rfl))

/-- The subpath of a matching mount holds the components below its mountpoint. -/
theorem subpath_of_covers {path mountpoint : List UInt8} (hpath : CanonicalPath path)
    (hmp : CanonicalPath mountpoint) (hpre : components mountpoint <+: components path)
    (hroot : mountpoint = [slash] → path = [slash]) :
    (let sub := path.drop mountpoint.length
     if sub.head? = some slash then sub.tail else sub)
      = [slash].intercalate ((components path).drop (components mountpoint).length) := by
  obtain ⟨cs, hcs, -, rfl, -⟩ := hpath
  obtain ⟨ms, hms, -, rfl, -⟩ := hmp
  rw [components_render hms, components_render hcs] at *
  exact drop_render hms hpre fun hnil =>
    (render_eq_root_iff hcs).mp (hroot ((render_eq_root_iff hms).mpr hnil))

/-- **Mount resolution**: `find_mount` resolves a canonical path by the
longest-prefix rule exactly when no mount sits on `/`, or the path is `/`
itself, or another mount covers it too. -/
theorem findMount_resolves_iff {v : Vfs Ops Ctx Node} (hv : MountReachable v)
    {cwd input : CString} {path : List UInt8}
    (hpath : normalizePath cwd.bytes input.bytes = some path) :
    Resolves v.mounts path ↔
      ((∃ (j : Nat) (m : VfsMount Ops Ctx),
          v.mounts[j]? = some (some m) ∧ m.mountpoint = [slash]) →
        path = [slash] ∨ ∃ j m, Covers path v.mounts j m ∧ m.mountpoint ≠ [slash]) := by
  have hcanon := normalizePath_canonical cwd.noNul input.noNul hpath
  have hiff : ∀ j m, Matches path v.mounts j m ↔
      Covers path v.mounts j m ∧ (m.mountpoint = [slash] → path = [slash]) :=
    fun j m => matches_iff_covers hcanon hv.tableOk
  unfold Resolves
  cases hfind : findMount v.mounts path with
  | none =>
      have hnone := findMount_eq_none hfind
      constructor
      · rintro hno ⟨j, m, hslot, hroot⟩
        exact absurd (covers_root hslot hroot) (hno j m)
      · intro hcond j m hcov
        by_cases hroot : m.mountpoint = [slash]
        · rcases hcond ⟨j, m, hcov.1, hroot⟩ with hp | ⟨j', m', hcov', hne⟩
          · exact hnone j m ((hiff j m).mpr ⟨hcov, fun _ => hp⟩)
          · exact hnone j' m' ((hiff j' m').mpr ⟨hcov', fun h => absurd h hne⟩)
        · exact hnone j m ((hiff j m).mpr ⟨hcov, fun h => absurd h hroot⟩)
  | some r =>
      obtain ⟨i, sub⟩ := r
      obtain ⟨m, hm, hsub, hmax⟩ := findMount_eq_some hfind
      obtain ⟨hcov, hrootm⟩ := (hiff i m).mp hm
      constructor
      · rintro - ⟨j, m', hslot, hroot⟩
        by_cases hp : path = [slash]
        · exact Or.inl hp
        · exact Or.inr ⟨i, m, hcov, fun h => hp (hrootm h)⟩
      · intro _
        refine ⟨m, hcov, ?_, ?_⟩
        · intro j m' hcov'
          by_cases hm' : Matches path v.mounts j m'
          · obtain ⟨h1, h2⟩ := hmax j m' hm'
            refine ⟨h1, fun heq => ?_⟩
            by_contra hlt
            have := h2 (by omega)
            omega
          · -- only a root mount covers the path without matching it
            have hroot : m'.mountpoint = [slash] ∧ path ≠ [slash] := by
              by_contra hcon
              exact hm' ((hiff j m').mpr ⟨hcov', fun h => by
                by_contra hp
                exact hcon ⟨h, hp⟩⟩)
            have hne : m.mountpoint ≠ [slash] := fun h => hroot.2 (hrootm h)
            have hlen := one_lt_length_of_ne_root
              (hv.tableOk m (List.mem_of_getElem? hcov.1)) hne
            rw [hroot.1]
            simp only [List.length_singleton]
            omega
        · rw [hsub]
          exact subpath_of_covers hcanon (hv.tableOk m (List.mem_of_getElem? hcov.1)) hcov.2 hrootm

/-- The boot sequence's root mount. -/
def rootMounted : Vfs Unit Unit Unit :=
  (vfsMount { vfsInit with cwd := [slash] } ⟨[slash], by decide⟩ (some ()) ()).2

theorem rootMounted_reachable : MountReachable rootMounted :=
  .mount ⟨[slash], by decide⟩ ⟨[slash], by decide⟩ (some ()) () .init

/-- The root mount, `/a` in it and `/a/b` below. -/
def nestedMounted : Vfs Unit Unit Unit :=
  (vfsMount { (vfsMount { rootMounted with cwd := [slash] } ⟨ascii "/a", by decide⟩ (some ()) ()).2
    with cwd := [slash] } ⟨ascii "/a/b", by decide⟩ (some ()) ()).2

theorem nestedMounted_reachable : MountReachable nestedMounted :=
  .mount ⟨[slash], by decide⟩ _ (some ()) ()
    (.mount ⟨[slash], by decide⟩ _ (some ()) () rootMounted_reachable)

/-- A path below nested mounts resolves to the innermost one. -/
theorem findMount_resolves_nested : Resolves nestedMounted.mounts (ascii "/a/b/c") ∧
    findMount nestedMounted.mounts (ascii "/a/b/c") = some (2, ascii "c") := by
  refine ⟨?_, by decide⟩
  refine (@findMount_resolves_iff _ _ _ _ nestedMounted_reachable ⟨ascii "/a", by decide⟩
    ⟨ascii "b/c", by decide⟩ _ (by decide)).mpr fun _ => Or.inr ?_
  exact ⟨2, ⟨ascii "/a/b", (), ()⟩, ⟨by rfl, by decide⟩, by decide⟩

/-- With the root mount alone `/a` resolves to no mount, although `/` covers it. -/
theorem findMount_misses_root :
    MountReachable rootMounted ∧
    normalizePath [slash] (ascii "/a") = some (ascii "/a") ∧
    ¬ Resolves rootMounted.mounts (ascii "/a") := by
  refine ⟨rootMounted_reachable, by decide, ?_⟩
  intro h
  have hnone : findMount rootMounted.mounts (ascii "/a") = none := by decide
  rw [Resolves, hnone] at h
  exact h 0 { mountpoint := [slash], ops := (), ctx := () } (covers_root (by rfl) rfl)

end RoninOS.Fs
