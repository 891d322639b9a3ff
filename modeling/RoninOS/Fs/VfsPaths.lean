/-
RoninOS.Fs.VfsPaths — what `normalize_path` computes, for every path.

The specification is a fold over the components of the joined path with a stack
of whole components (`stackStep`). `normalize_path` follows it with every component
cut to 23 bytes, and fails exactly if the joined path does not fit its buffer or the
stack gets deeper than 16 (`normalizePath_iff`). The output limit never applies: a
rendered stack is no longer than the path.

So the output is canonical and its own normal form, and where no component is cut
it is the reference's. Two paths are merged where a component is cut.
-/
import RoninOS.Fs.VfsResolve
import Mathlib.Data.List.Flatten

namespace RoninOS.Fs

open RoninOS.Lib

/-! ## The reference -/

/-- The absolute path that a path means in a working directory. -/
def joinedPath (cwd path : List UInt8) : List UInt8 :=
  if path.head? = some slash then path
  else if cwd = [slash] then slash :: path
  else cwd ++ slash :: path

/-- One component on the stack: `.` is skipped, `..` pops or stays at the root. -/
def stackStep (stack : List (List UInt8)) (comp : List UInt8) : List (List UInt8) :=
  if comp = ascii "." then stack
  else if comp = ascii ".." then stack.dropLast
  else stack ++ [comp]

/-- The components of a path after resolving `.` and `..`, taken in full. -/
def resolvedComps (cwd path : List UInt8) : List (List UInt8) :=
  (components (joinedPath cwd path)).foldl stackStep []

/-- What `normalize_path` checks: the joined path fits its buffer, and the stack its
rows. -/
structure PathFits (cwd path : List UInt8) : Prop where
  length_lt : (joinedPath cwd path).length < vfsMaxPath
  depth_le : ∀ k, (((components (joinedPath cwd path)).take k).foldl stackStep []).length ≤ maxSegs

/-- No component of the joined path is too long for `VFS_MAX_NAME`. -/
def ShortComps (cwd path : List UInt8) : Prop :=
  ∀ c ∈ components (joinedPath cwd path), c.length < vfsMaxName

/-- What `normalize_path` keeps of a component. -/
def cut (comp : List UInt8) : List UInt8 := comp.take (vfsMaxName - 1)

/-! ## Components -/

/-- The pieces between slashes. -/
theorem mem_splitOn_slash : ∀ {p c : List UInt8}, c ∈ p.splitOn slash → slash ∉ c ∧ ∀ x ∈ c, x ∈ p
  | [], c, h => by
      obtain rfl : c = [] := by simpa using h
      simp
  | x :: p, c, h => by
      rw [List.splitOn_cons_eq_if_modifyHead] at h
      split at h
      · rcases List.mem_cons.mp h with rfl | h
        · simp
        · obtain ⟨hslash, hsub⟩ := mem_splitOn_slash h
          exact ⟨hslash, fun y hy => List.mem_cons_of_mem _ (hsub y hy)⟩
      · rename_i hx
        obtain ⟨piece, pieces, hsplit⟩ := List.exists_cons_of_ne_nil (List.splitOn_ne_nil slash p)
        have hmem : ∀ d ∈ piece :: pieces, slash ∉ d ∧ ∀ y ∈ d, y ∈ p := fun d hd =>
          mem_splitOn_slash (hsplit ▸ hd)
        rw [hsplit, List.modifyHead_cons] at h
        rcases List.mem_cons.mp h with rfl | h
        · obtain ⟨hslash, hsub⟩ := hmem piece (List.mem_cons_self ..)
          refine ⟨fun hs => ?_, fun y hy => ?_⟩
          · rcases List.mem_cons.mp hs with heq | hs
            · exact hx (by simp [heq])
            · exact hslash hs
          · rcases List.mem_cons.mp hy with rfl | hy
            · exact List.mem_cons_self ..
            · exact List.mem_cons_of_mem _ (hsub y hy)
        · obtain ⟨hslash, hsub⟩ := hmem c (List.mem_cons_of_mem _ h)
          exact ⟨hslash, fun y hy => List.mem_cons_of_mem _ (hsub y hy)⟩

theorem mem_components {p c : List UInt8} (h : c ∈ components p) :
    c ≠ [] ∧ slash ∉ c ∧ ∀ x ∈ c, x ∈ p := by
  obtain ⟨hmem, hne⟩ := List.mem_filter.mp h
  exact ⟨by simpa using hne, mem_splitOn_slash hmem⟩

/-- Each slash ends a piece, so writing the components takes no more than the path. -/
theorem length_delimited_components {p : List UInt8} (h : p.head? = some slash) :
    (delimited slash (components p)).length ≤ p.length := by
  obtain ⟨q, rfl⟩ : ∃ q, p = slash :: q := by
    cases p with
    | nil => simp at h
    | cons c q => exact ⟨q, by rw [Option.some.inj h]⟩
  have hsub : (delimited slash (components q)).Sublist (delimited slash (q.splitOn slash)) :=
    List.filter_sublist.flatMap _
  have htail := @tail_delimited _ slash (q.splitOn slash)
  rw [List.intercalate_splitOn] at htail
  have hlen := congrArg List.length htail
  rw [List.length_tail] at hlen
  have hle := hsub.length_le
  rw [components_slash_cons, List.length_cons]
  omega

/-! ## The stack -/

section Stack

variable {stack comps : List (List UInt8)} {comp : List UInt8}

/-- The stack holds components of the path, none of them `.` or `..`. -/
theorem mem_foldl_stackStep {c : List UInt8} : ∀ {comps stack : List (List UInt8)},
    c ∈ comps.foldl stackStep stack →
    c ∈ stack ∨ (c ∈ comps ∧ c ≠ ascii "." ∧ c ≠ ascii "..") := by
  intro comps
  induction comps with
  | nil => intro stack h; exact Or.inl h
  | cons comp comps ih =>
      intro stack h
      rcases ih h with h | ⟨h, hne⟩
      · simp only [stackStep] at h
        split at h
        · exact Or.inl h
        · rename_i hdot
          split at h
          · exact Or.inl (List.mem_of_mem_dropLast h)
          · rename_i hdots
            rcases List.mem_append.mp h with h | h
            · exact Or.inl h
            · obtain rfl := List.mem_singleton.mp h
              exact Or.inr ⟨List.mem_cons_self .., hdot, hdots⟩
      · exact Or.inr ⟨List.mem_cons_of_mem _ h, hne⟩

theorem length_delimited_stackStep (stack : List (List UInt8)) (comp : List UInt8) :
    (delimited slash (stackStep stack comp)).length
      ≤ (delimited slash stack).length + (comp.length + 1) := by
  unfold stackStep
  split
  · omega
  · split
    · have hsub : (delimited slash stack.dropLast).Sublist (delimited slash stack) :=
        (List.dropLast_sublist stack).flatMap _
      have hle := hsub.length_le
      omega
    · simp only [delimited_append, delimited_cons, delimited_nil, List.append_nil,
        List.length_append, List.length_cons]
      omega

/-- A fold writes no more than its components. -/
theorem length_delimited_foldl : ∀ {comps stack : List (List UInt8)},
    (delimited slash (comps.foldl stackStep stack)).length
      ≤ (delimited slash stack).length + (delimited slash comps).length := by
  intro comps
  induction comps with
  | nil => intro stack; simp
  | cons comp comps ih =>
      intro stack
      have hstep := length_delimited_stackStep stack comp
      have hfold := @ih (stackStep stack comp)
      rw [List.foldl_cons, delimited_cons, List.length_cons, List.length_append]
      omega

/-! ## `normalize_path` follows it with cut components -/

theorem cut_eq_short {s : List UInt8} (hs : s.length < vfsMaxName - 1) :
    cut comp = s ↔ comp = s := by
  unfold cut
  constructor
  · intro h
    have hlen := congrArg List.length h
    rw [List.length_take] at hlen
    rwa [List.take_of_length_le (by omega)] at h
  · rintro rfl
    exact List.take_of_length_le (by omega)

/-- One round of `normalize_path`, on a stack of cut components. -/
theorem pushPiece_cut (hlen : stack.length ≤ maxSegs) : pushPiece (stack.map cut) comp
    = if (stackStep stack comp).length ≤ maxSegs then some ((stackStep stack comp).map cut)
      else none := by
  have hdot := @cut_eq_short comp (ascii ".") (by decide)
  have hdots := @cut_eq_short comp (ascii "..") (by decide)
  simp only [pushPiece]
  rw [show comp.take (vfsMaxName - 1) = cut comp from rfl, List.length_map]
  by_cases h1 : comp = ascii "."
  · have hstep : stackStep stack comp = stack := if_pos h1
    rw [if_pos (hdot.mpr h1), hstep, if_pos hlen]
  · rw [if_neg (fun h => h1 (hdot.mp h))]
    by_cases h2 : comp = ascii ".."
    · have hstep : stackStep stack comp = stack.dropLast := by
        rw [stackStep, if_neg h1, if_pos h2]
      rw [if_pos (hdots.mpr h2), hstep, List.map_dropLast, if_pos]
      rw [List.length_dropLast]
      omega
    · have hstep : stackStep stack comp = stack ++ [comp] := by
        rw [stackStep, if_neg h1, if_neg h2]
      rw [if_neg (fun h => h2 (hdots.mp h)), hstep, List.length_append, List.length_singleton]
      by_cases htop : stack.length ≥ maxSegs
      · rw [if_pos htop, if_neg (by omega)]
      · rw [if_neg htop, if_pos (by omega), List.map_append, List.map_singleton]

/-- The loop of `normalize_path`, from a stack on. -/
theorem foldlM_pushPiece_cut {out : List (List UInt8)} : ∀ {comps stack : List (List UInt8)},
    stack.length ≤ maxSegs → (comps.foldlM pushPiece (stack.map cut) = some out ↔
      (∀ k, ((comps.take k).foldl stackStep stack).length ≤ maxSegs) ∧
        out = (comps.foldl stackStep stack).map cut) := by
  intro comps
  induction comps with
  | nil =>
      intro stack hlen
      simp [hlen, eq_comm]
  | cons comp comps ih =>
      intro stack hlen
      have hdepth : (∀ k, (((comp :: comps).take k).foldl stackStep stack).length ≤ maxSegs) ↔
          ∀ k, ((comps.take k).foldl stackStep (stackStep stack comp)).length ≤ maxSegs := by
        refine ⟨fun h k => h (k + 1), fun h k => ?_⟩
        cases k with
        | zero => exact hlen
        | succ k => exact h k
      rw [List.foldlM_cons, pushPiece_cut hlen, hdepth]
      by_cases hstep : (stackStep stack comp).length ≤ maxSegs
      · rw [if_pos hstep, Option.bind_eq_bind, Option.bind_some, ih hstep]
        rfl
      · rw [if_neg hstep]
        refine iff_of_false (by simp) fun h => hstep (h.1 0)

theorem length_delimited_cut (comps : List (List UInt8)) :
    (delimited slash (comps.map cut)).length ≤ (delimited slash comps).length := by
  induction comps with
  | nil => exact le_refl _
  | cons comp comps ih =>
      have hle : (cut comp).length ≤ comp.length := by
        rw [cut, List.length_take]
        omega
      simp only [List.map_cons, delimited_cons, List.length_cons, List.length_append]
      omega

end Stack

/-! ## The joined path -/

section Joined

variable {cwd path p : List UInt8}

theorem CanonicalPath.head (h : CanonicalPath p) : p.head? = some slash := by
  obtain ⟨comps, -, -, rfl, -⟩ := h
  exact head?_render comps

theorem head?_joinedPath (hcwd : CanonicalPath cwd) :
    (joinedPath cwd path).head? = some slash := by
  unfold joinedPath
  split
  · assumption
  · split
    · rfl
    · rw [List.head?_append, hcwd.head]
      rfl

/-- `temp` holds the joined path, if it fits. -/
theorem absolutePath_eq (hcwd : CanonicalPath cwd) : absolutePath cwd path =
    if (joinedPath cwd path).length < vfsMaxPath then some (joinedPath cwd path) else none := by
  have hlt : cwd.length < vfsMaxPath := by
    obtain ⟨-, -, -, -, hlt⟩ := hcwd
    exact hlt
  unfold absolutePath joinedPath
  by_cases habs : path.head? = some slash
  · rw [if_pos habs, if_pos habs, copyStr_eq]
    exact if_congr (by simp only [vfsMaxPath]; omega) rfl rfl
  · rw [if_neg habs, if_neg habs]
    by_cases hroot : cwd = [slash]
    · subst hroot
      simp only [copyStr_eq, vfsMaxPath, sLen, List.length_cons, if_true]
      by_cases hfit : path.length ≤ 126
      · simp [hfit, show path.length + 1 < 128 by omega]
      · simp [hfit, show ¬ path.length + 1 < 128 by omega]
    · have hone := one_lt_length_of_ne_root hcwd hroot
      have hmin : sLen cwd vfsMaxPath = cwd.length := Nat.min_eq_left (Nat.le_of_lt hlt)
      have hjoin : (cwd ++ slash :: path).length = cwd.length + (path.length + 1) := by simp
      rw [hmin, if_neg hroot, hjoin]
      simp only [List.take_length, if_pos hone, copyStr_eq, List.length_append,
        List.length_singleton]
      by_cases hcut : cwd.length + 1 ≥ vfsMaxPath
      · rw [if_pos hcut, if_neg (by omega)]
      · rw [if_neg hcut]
        by_cases hfit : path.length ≤ vfsMaxPath - (cwd.length + 1) - 1
        · rw [if_pos hfit, if_pos (by omega), Option.map_some, List.append_assoc]
          rfl
        · rw [if_neg hfit, if_neg (by omega)]
          rfl

theorem length_render_le (comps : List (List UInt8)) {n : Nat}
    (h : (delimited slash comps).length < n) (hn : 1 < n) : (render comps).length < n := by
  by_cases hnil : comps = []
  · rw [hnil, render_nil]
    exact hn
  · rwa [render_of_ne_nil hnil]

/-- `normalize_path` succeeds exactly if the path fits, and then renders the
reference's stack with every component cut. -/
theorem normalizePath_iff (hcwd : CanonicalPath cwd) (hpath : 0 ∉ path) :
    normalizePath cwd path = some p ↔
      PathFits cwd path ∧ p = render ((resolvedComps cwd path).map cut) := by
  rw [normalizePath_eq hcwd.no_nul hpath, absolutePath_eq hcwd]
  by_cases hlen : (joinedPath cwd path).length < vfsMaxPath
  · have hout : (render ((resolvedComps cwd path).map cut)).length < vfsMaxPath := by
      refine length_render_le _ ?_ (by decide)
      have h1 := length_delimited_cut (resolvedComps cwd path)
      have h2 := @length_delimited_foldl (components (joinedPath cwd path)) []
      have h3 := length_delimited_components (@head?_joinedPath cwd path hcwd)
      simp only [resolvedComps, delimited_nil, List.length_nil] at h1 h2 ⊢
      omega
    have hfold := fun out => @foldlM_pushPiece_cut out (components (joinedPath cwd path)) []
      (Nat.zero_le _)
    rw [if_pos hlen, Option.bind_some, Option.bind_eq_some_iff]
    constructor
    · rintro ⟨segs, hsegs, hp⟩
      obtain ⟨hdepth, rfl⟩ := (hfold segs).mp hsegs
      rw [show (components (joinedPath cwd path)).foldl stackStep [] = resolvedComps cwd path from rfl,
        if_pos hout] at hp
      exact ⟨⟨hlen, hdepth⟩, (Option.some.inj hp).symm⟩
    · rintro ⟨hfits, rfl⟩
      exact ⟨_, (hfold _).mpr ⟨hfits.depth_le, rfl⟩, if_pos hout⟩
  · rw [if_neg hlen]
    exact iff_of_false (by simp) fun h => hlen h.1.length_lt

/-- The working directory does not matter for an absolute path. -/
theorem normalizePath_of_slash (h : path.head? = some slash) (cwd cwd' : List UInt8) :
    normalizePath cwd path = normalizePath cwd' path := by
  have habs : absolutePath cwd path = absolutePath cwd' path := by
    rw [absolutePath, absolutePath, if_pos h, if_pos h]
  rw [normalizePath, normalizePath, habs]

theorem joinedPath_no_nul (hcwd : 0 ∉ cwd) (hpath : 0 ∉ path) : 0 ∉ joinedPath cwd path := by
  have hslash : (0 : UInt8) ≠ slash := by decide
  unfold joinedPath
  split
  · exact hpath
  · split
    · simp [hslash, hpath]
    · simp [hslash, hcwd, hpath]

/-- What is left of short components is valid. -/
theorem resolvedComps_valid (hcwd : CanonicalPath cwd) (hpath : 0 ∉ path)
    (hshort : ShortComps cwd path) : ∀ c ∈ resolvedComps cwd path, ValidSegment c := by
  intro c hc
  rcases mem_foldl_stackStep hc with hc | ⟨hc, hdot, hdots⟩
  · simp at hc
  · obtain ⟨hne, hslash, hsub⟩ := mem_components hc
    exact ⟨hne, hslash, fun h => joinedPath_no_nul hcwd.no_nul hpath (hsub 0 h), hdot, hdots,
      hshort c hc⟩

/-- No component of the result is cut if none of the path is too long. -/
theorem map_cut_resolvedComps (hshort : ShortComps cwd path) :
    (resolvedComps cwd path).map cut = resolvedComps cwd path := by
  refine (List.map_congr_left fun c hc => ?_).trans (List.map_id _)
  rcases mem_foldl_stackStep hc with hc | ⟨hc, -⟩
  · simp at hc
  · exact List.take_of_length_le (Nat.le_sub_one_of_lt (hshort c hc))

end Joined

/-! ## Normal forms -/

/-- What is asked of an output: it is canonical and its own normal form, and the
reference's if no component is too long. -/
structure NormalForm (cwd path p : List UInt8) : Prop where
  canonical : CanonicalPath p
  fixed : ∀ cwd', normalizePath cwd' p = some p
  reference : ShortComps cwd path → p = render (resolvedComps cwd path)

/-- `normalize_path` yields normal forms, and takes a relative path for the absolute
one that it means, if both fit. -/
theorem normalizePath_normal {cwd : List UInt8} (hcwd : CanonicalPath cwd) (path : CString) :
    (∀ p, normalizePath cwd path.bytes = some p → NormalForm cwd path.bytes p) ∧
    (path.bytes.head? ≠ some slash → (cwd ++ slash :: path.bytes).length < vfsMaxPath →
      normalizePath cwd (cwd ++ slash :: path.bytes) = normalizePath cwd path.bytes) := by
  refine ⟨fun p hp => ?_, fun hrel hlen => ?_⟩
  · have hcanon := normalizePath_canonical hcwd.no_nul path.noNul hp
    refine ⟨hcanon, fun cwd' => ?_, fun hshort => ?_⟩
    · rw [normalizePath_of_slash hcanon.head cwd' cwd]
      exact normalizePath_canonicalPath hcwd.no_nul hcanon
    · obtain ⟨-, rfl⟩ := (normalizePath_iff hcwd path.noNul).mp hp
      rw [map_cut_resolvedComps hshort]
  · -- the two joined paths have the same components
    have hhead : (cwd ++ slash :: path.bytes).head? = some slash := by
      rw [List.head?_append, hcwd.head]
      rfl
    have hjoin : joinedPath cwd (cwd ++ slash :: path.bytes) = cwd ++ slash :: path.bytes :=
      if_pos hhead
    have hcomps : components (joinedPath cwd path.bytes)
        = components (joinedPath cwd (cwd ++ slash :: path.bytes)) := by
      rw [hjoin, joinedPath, if_neg hrel]
      by_cases hroot : cwd = [slash]
      · rw [if_pos hroot, hroot, List.singleton_append, components_slash_cons (slash :: path.bytes)]
      · rw [if_neg hroot]
    have hfit : (joinedPath cwd path.bytes).length < vfsMaxPath := by
      rw [joinedPath, if_neg hrel]
      split
      · rw [List.length_append] at hlen
        omega
      · exact hlen
    have hnul : 0 ∉ cwd ++ slash :: path.bytes := by
      have hslash : (0 : UInt8) ≠ slash := by decide
      simp [hslash, hcwd.no_nul, path.noNul]
    refine Option.ext fun p => ?_
    rw [normalizePath_iff hcwd hnul, normalizePath_iff hcwd path.noNul, resolvedComps,
      resolvedComps, hcomps]
    refine and_congr_left fun _ => ⟨fun h => ⟨hfit, ?_⟩, fun h => ⟨by rwa [hjoin], ?_⟩⟩
    · rw [hcomps]
      exact h.depth_le
    · rw [← hcomps]
      exact h.depth_le

theorem rootPath_canonical : CanonicalPath [slash] :=
  ⟨[], by simp, Nat.zero_le _, rfl, by decide⟩

theorem normalizePath_normal_example :
    (∀ p, normalizePath [slash] (ascii "a/./b/../c//") = some p →
      NormalForm [slash] (ascii "a/./b/../c//") p) ∧
    ((ascii "a/./b/../c//").head? ≠ some slash →
      ([slash] ++ slash :: ascii "a/./b/../c//").length < vfsMaxPath →
      normalizePath [slash] ([slash] ++ slash :: ascii "a/./b/../c//")
        = normalizePath [slash] (ascii "a/./b/../c//")) :=
  normalizePath_normal rootPath_canonical ⟨ascii "a/./b/../c//", by decide⟩

/-! ## Different names -/

/-- Two paths that mean different components do not get one output, and a path with
a component that is too long is refused. -/
structure NeverMerges (cwd s t : List UInt8) : Prop where
  apart : ∀ p q, normalizePath cwd s = some p → normalizePath cwd t = some q →
    resolvedComps cwd s ≠ resolvedComps cwd t → p ≠ q
  refused_left : ¬ ShortComps cwd s → normalizePath cwd s = none
  refused_right : ¬ ShortComps cwd t → normalizePath cwd t = none

/-- A path with a long component is refused only if another check refuses it. -/
theorem refuses_long_iff {cwd path : List UInt8} (hcwd : CanonicalPath cwd) (hpath : 0 ∉ path) :
    (¬ ShortComps cwd path → normalizePath cwd path = none) ↔
      (PathFits cwd path → ShortComps cwd path) := by
  constructor
  · intro h hfits
    by_contra hlong
    have hsome := (normalizePath_iff hcwd hpath).mpr ⟨hfits, rfl⟩
    rw [h hlong] at hsome
    exact absurd hsome (by simp)
  · intro h hlong
    rw [Option.eq_none_iff_forall_ne_some]
    intro p hp
    exact hlong (h ((normalizePath_iff hcwd hpath).mp hp).1)

/-- `normalize_path` merges no two paths exactly when each of them is refused by the
limits of the buffer and the stack, or has short components only. -/
theorem normalizePath_apart_iff {cwd : List UInt8} (hcwd : CanonicalPath cwd) (s t : CString) :
    NeverMerges cwd s.bytes t.bytes ↔
      (PathFits cwd s.bytes → ShortComps cwd s.bytes) ∧
        (PathFits cwd t.bytes → ShortComps cwd t.bytes) := by
  rw [← refuses_long_iff hcwd s.noNul, ← refuses_long_iff hcwd t.noNul]
  refine ⟨fun h => ⟨h.refused_left, h.refused_right⟩, fun ⟨hs, ht⟩ => ⟨?_, hs, ht⟩⟩
  intro p q hp hq hne heq
  have hshort : ∀ {r : CString} {o}, normalizePath cwd r.bytes = some o →
      (¬ ShortComps cwd r.bytes → normalizePath cwd r.bytes = none) → ShortComps cwd r.bytes := by
    intro r o hr hrefused
    by_contra hlong
    rw [hrefused hlong] at hr
    exact absurd hr (by simp)
  have hs' := hshort hp hs
  have ht' := hshort hq ht
  -- both outputs are writings of valid components
  obtain ⟨-, rfl⟩ := (normalizePath_iff hcwd s.noNul).mp hp
  obtain ⟨-, rfl⟩ := (normalizePath_iff hcwd t.noNul).mp hq
  rw [map_cut_resolvedComps hs', map_cut_resolvedComps ht'] at heq
  have hcomps := congrArg components heq
  rw [components_render (resolvedComps_valid hcwd s.noNul hs'),
    components_render (resolvedComps_valid hcwd t.noNul ht')] at hcomps
  exact hne hcomps

theorem normalizePath_apart_example : NeverMerges [slash] (ascii "a/b") (ascii "a/../b") := by
  have hcomps : ∀ c ∈ [ascii "a", ascii "b", ascii ".."], c.length < vfsMaxName := by decide
  refine (normalizePath_apart_iff rootPath_canonical ⟨ascii "a/b", by decide⟩
    ⟨ascii "a/../b", by decide⟩).mpr ⟨fun _ c hc => hcomps c ?_, fun _ c hc => hcomps c ?_⟩
  · have : components (joinedPath [slash] (ascii "a/b")) = [ascii "a", ascii "b"] := by decide
    simp only [this] at hc
    simp only [List.mem_cons] at hc ⊢
    tauto
  · have : components (joinedPath [slash] (ascii "a/../b")) = [ascii "a", ascii "..", ascii "b"] := by
      decide
    simp only [this] at hc
    simp only [List.mem_cons] at hc ⊢
    tauto

/-- Two names of 24 characters that differ in the last one. -/
def longName (last : UInt8) : List UInt8 := List.replicate 23 97 ++ [last]

theorem normalizePath_merges : ∃ p, normalizePath [slash] (longName 120) = some p ∧
    normalizePath [slash] (longName 121) = some p ∧
    ¬ NeverMerges [slash] (longName 120) (longName 121) := by
  have hx : normalizePath [slash] (longName 120) = some (slash :: List.replicate 23 97) := by decide
  have hy : normalizePath [slash] (longName 121) = some (slash :: List.replicate 23 97) := by decide
  exact ⟨_, hx, hy, fun h => h.apart _ _ hx hy (by decide) rfl⟩

end RoninOS.Fs
