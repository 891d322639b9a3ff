/-
RoninOS.Fs.VfsMounts — the mount of a path in any mount table.

`resolve_path` first picks a mount and then walks below it, and the first part
looks at the mount table only (`resolvePath_mountFor`). A path and its parent
get the same mount, except where a mount sits on the path itself or the parent
is `/` (`mountFor_parent`): a mountpoint `/` matches no other path. There the
path is no file, whatever its parent lists (`resolveFile_hidden`).
-/
import RoninOS.Fs.VfsResolve

namespace RoninOS.Fs

open RoninOS.Lib

section Mounts

variable {σ Ctx Node : Type} {v : FsVfs σ Ctx Node} {comps ps : List (List UInt8)}
  {leaf : List UInt8} {m : FsMount σ Ctx Node}

/-- The mount that `find_mount` takes for the path with the components `comps`. -/
def mountFor (v : FsVfs σ Ctx Node) (comps : List (List UInt8)) : Option (FsMount σ Ctx Node) :=
  (findMount v.mounts (render comps)).bind fun (i, _) => (v.mounts[i]?).join

/-- What `find_mount` takes, where it takes something. -/
theorem mountFor_cases (v : FsVfs σ Ctx Node) (comps : List (List UInt8)) :
    (mountFor v comps = none ∧ findMount v.mounts (render comps) = none) ∨
    ∃ i m, mountFor v comps = some m ∧ Matches (render comps) v.mounts i m ∧
      findMount v.mounts (render comps) = some (i,
        let sub := (render comps).drop m.mountpoint.length
        if sub.head? = some slash then sub.tail else sub) ∧
      ∀ j m', Matches (render comps) v.mounts j m' →
        m'.mountpoint.length ≤ m.mountpoint.length := by
  unfold mountFor
  cases hfind : findMount v.mounts (render comps) with
  | none => exact Or.inl ⟨rfl, rfl⟩
  | some r =>
      obtain ⟨i, sub⟩ := r
      obtain ⟨m, hm, rfl, hmax⟩ := findMount_eq_some hfind
      refine Or.inr ⟨i, m, ?_, hm, rfl, fun j m' hm' => (hmax j m' hm').1⟩
      simp only [Option.bind_some, hm.1, Option.join_some]

/-- The mount of a path is on a component-wise prefix of it. -/
theorem mountFor_below (hok : TableOk v.mounts) (hcomps : ∀ c ∈ comps, ValidSegment c)
    (h : mountFor v comps = some m) : some m ∈ v.mounts ∧
      components m.mountpoint <+: comps ∧ (components m.mountpoint = [] → comps = []) := by
  rcases mountFor_cases v comps with ⟨hnone, -⟩ | ⟨i, m', hm', hmatch, -, -⟩
  · rw [hnone] at h
    cases h
  · obtain rfl : m' = m := Option.some.inj (hm'.symm.trans h)
    have hmem := List.mem_of_getElem? hmatch.1
    obtain ⟨ms, hms, -, hmp, -⟩ := hok m' hmem
    rw [hmp, components_render hms]
    exact ⟨hmem, (startsWith_render_iff hcomps hms).mp (hmp ▸ hmatch.2)⟩

/-- `resolve_path` picks a mount and walks the components below it. -/
theorem resolvePath_mountFor (hok : TableOk v.mounts) (s : σ) {path : List UInt8}
    (hnorm : normalizePath v.cwd path = some (render comps))
    (hcomps : ∀ c ∈ comps, ValidSegment c) :
    resolvePath v s path = (mountFor v comps).bind fun m =>
      (resolveComps s m (comps.drop (components m.mountpoint).length)).map fun (node, isDir) =>
        (m, node, isDir) := by
  unfold resolvePath
  rcases mountFor_cases v comps with ⟨hnone, hfind⟩ | ⟨i, m, hm, hmatch, hfind, -⟩
  · simp only [hnorm, hfind, hnone]
    rfl
  · obtain ⟨ms, hms, -, hmp, -⟩ := hok m (List.mem_of_getElem? hmatch.1)
    have hpre := (startsWith_render_iff hcomps hms).mp (hmp ▸ hmatch.2)
    have hdrop : ∀ c ∈ comps.drop ms.length, ValidSegment c :=
      fun c hc => hcomps c (List.mem_of_mem_drop hc)
    have hsub := drop_render hms hpre.1 hpre.2
    simp only [hmp] at hfind
    simp only [hsub] at hfind
    simp only [hnorm, hfind, hmatch.1, hm, Option.bind_some, hmp, components_render hms,
      resolveOnMount_eq s m hdrop]

/-- A path that is a mountpoint gets a mount on it. -/
theorem mountFor_of_mountpoint (hok : TableOk v.mounts) (hcomps : ∀ c ∈ comps, ValidSegment c)
    (hmem : some m ∈ v.mounts) (hmp : m.mountpoint = render comps) :
    ∃ m', mountFor v comps = some m' ∧ components m'.mountpoint = comps := by
  obtain ⟨j, hj⟩ := List.getElem?_of_mem hmem
  have hmatch : Matches (render comps) v.mounts j m :=
    ⟨hj, by rw [hmp, startsWith_render_iff hcomps hcomps]; exact ⟨List.prefix_refl _, id⟩⟩
  rcases mountFor_cases v comps with ⟨-, hfind⟩ | ⟨i, m', hm', hmatch', -, hmax⟩
  · exact absurd hmatch (findMount_eq_none hfind j m)
  · obtain ⟨ms, hms, -, hmp', -⟩ := hok m' (List.mem_of_getElem? hmatch'.1)
    have hlen := hmax j m hmatch
    obtain ⟨rest, hrest, -⟩ := (startsWith_iff (no_nul_render hcomps)
      (by rw [hmp']; exact no_nul_render hms)).mp hmatch'.2
    have hnil : rest = [] := by
      have hlen' := congrArg List.length hrest
      rw [List.length_append] at hlen'
      rw [hmp] at hlen
      exact List.length_eq_zero_iff.mp (by omega)
    rw [hnil, List.append_nil] at hrest
    exact ⟨m', hm', by rw [← hrest, components_render hcomps]⟩

/-- The loop of `find_mount` sees a path through `starts_with` only. -/
theorem findMountLoop_congr {path path' : List UInt8} {mounts : List (Option (FsMount σ Ctx Node))}
    {i : Nat} {best : Option Nat} {bestLen : Nat}
    (h : ∀ m, some m ∈ mounts → startsWith path m.mountpoint = startsWith path' m.mountpoint) :
    findMountLoop path i mounts best bestLen = findMountLoop path' i mounts best bestLen := by
  induction mounts generalizing i best bestLen with
  | nil => rfl
  | cons slot mounts ih =>
      have htail : ∀ m, some m ∈ mounts →
          startsWith path m.mountpoint = startsWith path' m.mountpoint :=
        fun m hm => h m (List.mem_cons_of_mem _ hm)
      cases slot with
      | none =>
          rw [findMountLoop, findMountLoop]
          exact ih htail
      | some m₀ =>
          rw [findMountLoop, findMountLoop, h m₀ (List.mem_cons_self ..)]
          simp only [ih htail]

/-- A path below `/` and its parent get the same mount, unless the path is a
mountpoint. -/
theorem mountFor_append (hok : TableOk v.mounts) (hvalid : ∀ c ∈ ps ++ [leaf], ValidSegment c)
    (hps : ps ≠ []) (hno : ∀ m, some m ∈ v.mounts → m.mountpoint ≠ render (ps ++ [leaf])) :
    mountFor v (ps ++ [leaf]) = mountFor v ps := by
  have hpsv : ∀ c ∈ ps, ValidSegment c := fun c hc => hvalid c (List.mem_append_left _ hc)
  have hloop : findMountLoop (render (ps ++ [leaf])) 0 v.mounts none 0
      = findMountLoop (render ps) 0 v.mounts none 0 := by
    refine findMountLoop_congr fun m hm => ?_
    obtain ⟨ms, hms, -, hmp, -⟩ := hok m hm
    have hne : ms ≠ ps ++ [leaf] := fun heq => hno m hm (by rw [hmp, heq])
    rw [Bool.eq_iff_iff, hmp, startsWith_render_iff hvalid hms, startsWith_render_iff hpsv hms,
      List.prefix_concat_iff]
    simp only [hne, false_or, hps, List.append_eq_nil_iff, List.cons_ne_nil, and_self]
  unfold mountFor findMount
  rw [hloop]
  generalize findMountLoop (render ps) 0 v.mounts none 0 = r
  obtain ⟨best, bestLen⟩ := r
  cases best with
  | none => rfl
  | some i => rfl

/-- A path directly below `/` has no mount, unless it is a mountpoint. -/
theorem mountFor_singleton (hok : TableOk v.mounts) (hleaf : ValidSegment leaf)
    (hno : ∀ m, some m ∈ v.mounts → m.mountpoint ≠ render [leaf]) : mountFor v [leaf] = none := by
  have hvalid : ∀ c ∈ [leaf], ValidSegment c := by
    intro c hc
    rw [List.mem_singleton.mp hc]
    exact hleaf
  rw [Option.eq_none_iff_forall_ne_some]
  intro m hm
  obtain ⟨hmem, hpre, hroot⟩ := mountFor_below hok hvalid hm
  obtain ⟨ms, hms, -, hmp, -⟩ := hok m hmem
  rw [hmp, components_render hms] at hpre hroot
  rcases List.prefix_concat_iff.mp (List.nil_append [leaf] ▸ hpre) with heq | hnil
  · exact hno m hmem (by rw [hmp, heq]; rfl)
  · exact absurd (hroot (List.prefix_nil.mp hnil)) (List.cons_ne_nil _ _)

/-! ## A path and its parent -/

/-- `resolve_parent` walks to the parent on the parent's own mount. -/
theorem resolveParent_mountFor (hok : TableOk v.mounts) (hcwd : 0 ∉ v.cwd) (path : CString) :
    (∀ s, resolveParent v s path.bytes = none) ∨
    ∃ ps leaf, (∀ c ∈ ps ++ [leaf], ValidSegment c) ∧
      normalizePath v.cwd path.bytes = some (render (ps ++ [leaf])) ∧
      ∀ s, resolveParent v s path.bytes = (mountFor v ps).bind fun m =>
        (resolveComps s m (ps.drop (components m.mountpoint).length)).map fun (node, _) =>
          (m, node, leaf) := by
  cases hnorm : normalizePath v.cwd path.bytes with
  | none => exact Or.inl fun s => by simp only [resolveParent, hnorm]
  | some norm =>
      obtain ⟨comps, hvalid, hsegs, rfl, hfits⟩ := normalizePath_canonical hcwd path.noNul hnorm
      rcases List.eq_nil_or_concat' comps with rfl | ⟨ps, leaf, rfl⟩
      · refine Or.inl fun s => ?_
        simp only [resolveParent, hnorm, render_nil]
        rfl
      · refine Or.inr ⟨ps, leaf, hvalid, rfl, fun s => ?_⟩
        have hps : ∀ c ∈ ps, ValidSegment c := fun c hc => hvalid c (List.mem_append_left _ hc)
        have hleaf := hvalid leaf (List.mem_append_right _ (List.mem_singleton_self leaf))
        have hparent := canonicalPath_parent hvalid hsegs hfits
        rw [resolveParent_eq s hnorm hps hleaf hfits, resolvePath_mountFor hok s
          (normalizePath_canonicalPath hcwd hparent) hps]
        cases mountFor v ps with
        | none => rfl
        | some m => rw [Option.bind_some, Option.bind_some, Option.map_map]; rfl

/-- A path that gets another mount than its parent: it lies directly below `/`,
or is a mountpoint. -/
def HiddenPath (v : FsVfs σ Ctx Node) (norm : List UInt8) : Prop :=
  (components norm).length = 1 ∨ ∃ m, some m ∈ v.mounts ∧ m.mountpoint = norm

/-- Any other path gets the mount of its parent. -/
theorem mountFor_parent (hok : TableOk v.mounts) (hvalid : ∀ c ∈ ps ++ [leaf], ValidSegment c)
    (h : ¬ HiddenPath v (render (ps ++ [leaf]))) : mountFor v (ps ++ [leaf]) = mountFor v ps := by
  rw [HiddenPath, components_render hvalid, not_or] at h
  refine mountFor_append hok hvalid ?_ fun m hm hmp => h.2 ⟨m, hm, hmp⟩
  rintro rfl
  exact h.1 rfl

/-- The path of a mountpoint is a directory, and a path directly below `/` has
no mount. -/
theorem resolveFile_hidden (hok : TableOk v.mounts) {path : List UInt8}
    (hvalid : ∀ c ∈ comps, ValidSegment c)
    (hnorm : normalizePath v.cwd path = some (render comps)) (h : HiddenPath v (render comps))
    (s : σ) : resolveFile v s path = none := by
  unfold resolveFile
  rw [resolvePath_mountFor hok s hnorm hvalid]
  by_cases hmp : ∃ m, some m ∈ v.mounts ∧ m.mountpoint = render comps
  · obtain ⟨m, hm, hmp⟩ := hmp
    obtain ⟨m', hm', hcomps⟩ := mountFor_of_mountpoint hok hvalid hm hmp
    rw [hm', Option.bind_some, hcomps, List.drop_length, resolveComps]
    cases m'.ops.getRoot with
    | none => rfl
    | some getRoot =>
        cases m'.ops.lookup with
        | none => rfl
        | some lookup => rfl
  · obtain ⟨leaf, rfl⟩ := List.length_eq_one_iff.mp
      (components_render hvalid ▸ h.resolve_right hmp)
    rw [mountFor_singleton hok (hvalid leaf (List.mem_singleton_self leaf))
      fun m hm heq => hmp ⟨m, hm, heq⟩]
    rfl

end Mounts

end RoninOS.Fs
