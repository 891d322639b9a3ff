/-
RoninOS.Fs.RamfsVfs — RAMFS as the only file system of the VFS.

With one mount, at a mountpoint other than `/`, `resolve_path` turns a string
into the components below the mountpoint (`treePath`) and looks them up from
the root node (`OnlyRamfs.resolvePath_eq`), and `resolve_parent` does so for all but
the last of them (`OnlyRamfs.resolveParent_eq`).
-/
import RoninOS.Fs.VfsResolve
import RoninOS.Fs.Ramfs

namespace RoninOS.Fs

open RoninOS.Lib

/-- `g_ops`. -/
def ramfsOps : VfsFsOps RamfsTable Unit Nat where
  getRoot := some fun _ _ => fsGetRoot
  lookup := some fun t _ dir name => fsLookup t dir name
  create := some fun t _ dir name isDir => fsCreate t dir name isDir
  read := some fun t _ node offset n => fsRead t node offset n
  write := some fun t _ node offset buf => fsWrite t node offset buf
  readdir := some fun t _ dir index => fsReaddir t dir index
  size := some fun t _ node => fsSize t node

/-- The VFS over RAMFS. -/
abbrev RamfsVfs := FsVfs RamfsTable Unit Nat

/-- `vfs_init` and `vfs_mount(mountpoint, ramfs_ops(), 0)`. -/
def ramfsMounted (mountpoint : CString) : RamfsVfs :=
  (vfsMount vfsInit mountpoint (some ramfsOps) ()).2

/-- The mount of RAMFS on the components `ms`. -/
def ramfsMount (ms : List (List UInt8)) : FsMount RamfsTable Unit Nat where
  mountpoint := render ms
  ops := ramfsOps
  ctx := ()

/-- The components of a canonical mountpoint other than `/`. -/
structure MountComps (ms : List (List UInt8)) : Prop where
  valid : ∀ c ∈ ms, ValidSegment c
  ne_nil : ms ≠ []
  segs_le : ms.length ≤ maxSegs
  fits : (render ms).length < vfsMaxPath

/-- RAMFS on `ms` is the only mount. -/
structure OnlyRamfs (v : RamfsVfs) (ms : List (List UInt8)) : Prop where
  comps : MountComps ms
  mounts : v.mounts = [some (ramfsMount ms), none, none, none]
  cwd_no_nul : 0 ∉ v.cwd

theorem MountComps.of_canonical {p : List UInt8} (h : CanonicalPath p) (hne : p ≠ [slash]) :
    MountComps (components p) ∧ render (components p) = p := by
  obtain ⟨ms, hvalid, hsegs, rfl, hfits⟩ := h
  rw [components_render hvalid]
  exact ⟨⟨hvalid, fun hnil => hne (by rw [hnil]; rfl), hsegs, hfits⟩, rfl⟩

/-- Mounting RAMFS on a canonical path. -/
theorem ramfsMounted_only {mp : CString} (h : CanonicalPath mp.bytes) (hne : mp.bytes ≠ [slash]) :
    OnlyRamfs (ramfsMounted mp) (components mp.bytes) ∧ (ramfsMounted mp).cwd = [slash] ∧
    (ramfsMounted mp).fds = List.replicate vfsMaxFd none := by
  obtain ⟨hcomps, hrender⟩ := MountComps.of_canonical h hne
  have hnul : (0 : UInt8) ∉ [slash] := by decide
  have hnorm : normalizePath ([slash] : List UInt8) mp.bytes = some mp.bytes :=
    normalizePath_canonicalPath hnul h
  have hmounted : ramfsMounted mp = { (vfsInit : RamfsVfs) with
      mounts := [some (ramfsMount (components mp.bytes)), none, none, none] } := by
    unfold ramfsMounted vfsMount
    simp only [show (vfsInit : RamfsVfs).cwd = [slash] from rfl, hnorm, ramfsMount, hrender]
    rfl
  rw [hmounted]
  exact ⟨⟨hcomps, rfl, hnul⟩, rfl, rfl⟩

/-! ## Paths below the mountpoint -/

/-- The components below the mountpoint `ms` of the normal form of a path. -/
def treePath (cwd : List UInt8) (ms : List (List UInt8)) (path : List UInt8) :
    Option (List (List UInt8)) :=
  (normalizePath cwd path).bind fun norm =>
    if ms <+: components norm then some ((components norm).drop ms.length) else none

section Paths

variable {v : RamfsVfs} {ms : List (List UInt8)} {cwd : List UInt8}

/-- A path below the mountpoint has the normal form the components say. -/
theorem treePath_eq_some (hc : 0 ∉ cwd) {path : CString} {rest : List (List UInt8)}
    (h : treePath cwd ms path.bytes = some rest) :
    normalizePath cwd path.bytes = some (render (ms ++ rest)) ∧
    (∀ c ∈ ms ++ rest, ValidSegment c) ∧ (ms ++ rest).length ≤ maxSegs ∧
    (render (ms ++ rest)).length < vfsMaxPath := by
  obtain ⟨norm, hnorm, hrest⟩ := Option.bind_eq_some_iff.mp h
  obtain ⟨comps, hvalid, hsegs, rfl, hfits⟩ := normalizePath_canonical hc path.noNul hnorm
  rw [components_render hvalid] at hrest
  split at hrest
  · rename_i hpre
    obtain ⟨rest', rfl⟩ := hpre
    rw [List.drop_left, Option.some.injEq] at hrest
    subst hrest
    exact ⟨hnorm, hvalid, hsegs, hfits⟩
  · cases hrest

theorem treePath_valid (hc : 0 ∉ cwd) {path : CString} {rest : List (List UInt8)}
    (h : treePath cwd ms path.bytes = some rest) : ∀ c ∈ rest, ValidSegment c :=
  fun c hcmem => (treePath_eq_some hc h).2.1 c (List.mem_append_right _ hcmem)

/-- A path that is not below the mountpoint has no normal form, or one that the
mountpoint is no prefix of. -/
theorem treePath_eq_none (hc : 0 ∉ cwd) {path : CString} (h : treePath cwd ms path.bytes = none) :
    normalizePath cwd path.bytes = none ∨
    ∃ comps, normalizePath cwd path.bytes = some (render comps) ∧
      (∀ c ∈ comps, ValidSegment c) ∧ ¬ ms <+: comps ∧ (render comps).length < vfsMaxPath ∧
      comps.length ≤ maxSegs := by
  unfold treePath at h
  cases hnorm : normalizePath cwd path.bytes with
  | none => exact Or.inl rfl
  | some norm =>
      obtain ⟨comps, hvalid, hsegs, rfl, hfits⟩ := normalizePath_canonical hc path.noNul hnorm
      refine Or.inr ⟨comps, rfl, hvalid, fun hpre => ?_, hfits, hsegs⟩
      rw [hnorm, Option.bind_some, components_render hvalid, if_pos hpre] at h
      cases h

/-- The mount matches exactly the paths below its mountpoint. -/
theorem OnlyRamfs.matches_iff (h : OnlyRamfs v ms) {comps : List (List UInt8)}
    (hcomps : ∀ c ∈ comps, ValidSegment c) {j : Nat} {m : FsMount RamfsTable Unit Nat} :
    Matches (render comps) v.mounts j m ↔ j = 0 ∧ m = ramfsMount ms ∧ ms <+: comps := by
  have hslots : v.mounts[j]? = some (some m) ↔ j = 0 ∧ m = ramfsMount ms := by
    rw [h.mounts]
    rcases j with _ | _ | _ | _ | j <;> simp [eq_comm]
  unfold Matches
  rw [hslots, and_assoc]
  refine and_congr_right fun _ => and_congr_right fun hm => ?_
  rw [hm]
  exact (startsWith_render_iff hcomps h.comps.valid).trans
    ⟨fun hpre => hpre.1, fun hpre => ⟨hpre, fun hnil => absurd hnil h.comps.ne_nil⟩⟩

/-- `resolve_path` of a canonical path. -/
theorem OnlyRamfs.resolve_render (h : OnlyRamfs v ms) (t : RamfsTable) {path : List UInt8}
    {comps : List (List UInt8)} (hcomps : ∀ c ∈ comps, ValidSegment c)
    (hnorm : normalizePath v.cwd path = some (render comps)) :
    resolvePath v t path = if ms <+: comps then
      (descend (fsLookup t) (comps.drop ms.length) fsGetRoot true).map fun (node, isDir) =>
        (ramfsMount ms, node, isDir)
      else none := by
  by_cases hpre : ms <+: comps
  · rw [if_pos hpre]
    refine resolvePath_eq t hnorm (i := 0) ⟨(h.matches_iff hcomps).mpr ⟨rfl, rfl, hpre⟩, rfl, ?_⟩
      h.comps.valid hcomps
    intro j m' hm' hj
    exact absurd ((h.matches_iff hcomps).mp hm').1 hj
  · rw [if_neg hpre]
    exact resolvePath_none t hnorm fun j m hm => hpre ((h.matches_iff hcomps).mp hm).2.2

/-- `resolve_path` looks up the components below the mountpoint. -/
theorem OnlyRamfs.resolvePath_eq (h : OnlyRamfs v ms) (t : RamfsTable) (path : CString) :
    resolvePath v t path.bytes = (treePath v.cwd ms path.bytes).bind fun rest =>
      (descend (fsLookup t) rest fsGetRoot true).map fun (node, isDir) =>
        (ramfsMount ms, node, isDir) := by
  cases htree : treePath v.cwd ms path.bytes with
  | none =>
      rcases treePath_eq_none h.cwd_no_nul htree with hnorm | ⟨comps, hnorm, hvalid, hpre, -, -⟩
      · unfold resolvePath
        simp only [hnorm, Option.bind_none]
      · rw [h.resolve_render t hvalid hnorm, if_neg hpre]
        rfl
  | some rest =>
      obtain ⟨hnorm, hvalid, -, -⟩ := treePath_eq_some h.cwd_no_nul htree
      rw [h.resolve_render t hvalid hnorm, if_pos (List.prefix_append ..), List.drop_left]
      rfl

/-- `resolve_parent` looks up all components below the mountpoint but the last. -/
theorem OnlyRamfs.resolveParent_eq (h : OnlyRamfs v ms) (t : RamfsTable) (path : CString) :
    resolveParent v t path.bytes = (treePath v.cwd ms path.bytes).bind fun rest =>
      rest.getLast?.bind fun leaf =>
        (descend (fsLookup t) rest.dropLast fsGetRoot true).map fun (node, _) =>
          (ramfsMount ms, node, leaf) := by
  have hparent : ∀ {comps : List (List UInt8)} {leaf : List UInt8},
      (∀ c ∈ comps ++ [leaf], ValidSegment c) → (comps ++ [leaf]).length ≤ maxSegs →
      (render (comps ++ [leaf])).length < vfsMaxPath →
      normalizePath v.cwd path.bytes = some (render (comps ++ [leaf])) →
      resolveParent v t path.bytes = if ms <+: comps then
        (descend (fsLookup t) (comps.drop ms.length) fsGetRoot true).map fun (node, _) =>
          (ramfsMount ms, node, leaf)
        else none := by
    intro comps leaf hvalid hsegs hfits hnorm
    have hcomps : ∀ c ∈ comps, ValidSegment c := fun c hc => hvalid c (List.mem_append_left _ hc)
    have hleaf := hvalid leaf (List.mem_append_right _ (List.mem_singleton_self leaf))
    have hparent := canonicalPath_parent hvalid hsegs hfits
    rw [Fs.resolveParent_eq t hnorm hcomps hleaf hfits, h.resolve_render t hcomps
      (normalizePath_canonicalPath h.cwd_no_nul hparent)]
    split
    · rw [Option.map_map]
      rfl
    · rfl
  cases htree : treePath v.cwd ms path.bytes with
  | none =>
      rcases treePath_eq_none h.cwd_no_nul htree with
        hnorm | ⟨comps, hnorm, hvalid, hpre, hfits, hsegs⟩
      · unfold resolveParent
        simp only [hnorm, Option.bind_none]
      · rcases List.eq_nil_or_concat' comps with rfl | ⟨ps, leaf, rfl⟩
        · unfold resolveParent
          simp only [hnorm, render_nil, Option.bind_none]
          rfl
        · rw [hparent hvalid hsegs hfits hnorm, if_neg fun hps =>
            hpre (hps.trans (List.prefix_append ..))]
          rfl
  | some rest =>
      obtain ⟨hnorm, hvalid, hsegs, hfits⟩ := treePath_eq_some h.cwd_no_nul htree
      rcases List.eq_nil_or_concat' rest with rfl | ⟨ps, leaf, rfl⟩
      · -- the mountpoint itself: its parent is above it
        rw [List.append_nil] at hnorm hvalid hsegs hfits
        obtain ⟨ms', last, hms⟩ := (List.eq_nil_or_concat' ms).resolve_left h.comps.ne_nil
        rw [hms] at hnorm hvalid hsegs hfits
        rw [hparent hvalid hsegs hfits hnorm, if_neg]
        · rfl
        · intro hpre
          have hlen := hpre.length_le
          rw [hms, List.length_append, List.length_singleton] at hlen
          omega
      · rw [← List.append_assoc] at hnorm hvalid hsegs hfits
        rw [hparent hvalid hsegs hfits hnorm, if_pos (List.prefix_append ..), List.drop_left]
        simp

end Paths

end RoninOS.Fs
