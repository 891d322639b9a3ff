/-
RoninOS.Fs.VfsResolve — the three places where `vfs.c` splits a path agree.

`normalize_path` folds the pieces between slashes onto a stack of components
(`normalizePath_eq`) and leaves canonical paths as they are
(`normalizePath_render`). On the path below a mountpoint `resolve_on_mount`
looks the components up one after the other (`resolveOnMount_eq`), and
`resolve_parent` splits the last component off (`cutLoop_append`). Where one
mount matches, resolution is therefore a walk over the components below its
mountpoint: `resolvePath_eq` and `resolveParent_eq`.
-/
import RoninOS.Fs.VfsOps
import RoninOS.Fs.VfsTheorems

namespace RoninOS.Fs

open RoninOS.Lib

/-! ## Components -/

theorem components_slash_cons (p : List UInt8) : components (slash :: p) = components p := by
  have hsplit := List.splitOn_append_cons_self_of_not_mem
    (show slash ∉ [] from List.not_mem_nil) p
  rw [List.nil_append] at hsplit
  rw [components, hsplit, List.filter_cons_of_neg (by simp)]
  rfl

theorem components_dropWhile (p : List UInt8) :
    components (p.dropWhile (· = slash)) = components p := by
  induction p with
  | nil => rfl
  | cons c p ih =>
      by_cases hc : c = slash
      · rw [hc, List.dropWhile_cons_of_pos (by simp), ih, components_slash_cons]
      · rw [List.dropWhile_cons_of_neg (by simpa using hc)]

/-- The first component is the segment before the first slash. -/
theorem components_segment {seg t : List UInt8} (hslash : slash ∉ seg) (hne : seg ≠ [])
    (ht : AtBoundary slash t) : components (seg ++ t) = seg :: components t := by
  cases t with
  | nil =>
      rw [List.append_nil, components, List.splitOn_eq_singleton hslash,
        List.filter_cons_of_pos (by simpa using hne)]
      rfl
  | cons c t =>
      rw [ht c rfl, components, List.splitOn_append_cons_self_of_not_mem hslash,
        List.filter_cons_of_pos (by simpa using hne), components_slash_cons]
      rfl

/-- A rest without leading slashes is a segment and what follows it. -/
theorem segment_split {s : List UInt8} (hne : s ≠ []) (hhead : s.head? ≠ some slash) :
    slash ∉ s.takeWhile (· ≠ slash) ∧ s.takeWhile (· ≠ slash) ≠ [] ∧
    AtBoundary slash (s.dropWhile (· ≠ slash)) ∧
    components s = s.takeWhile (· ≠ slash) :: components (s.dropWhile (· ≠ slash)) := by
  have hslash : slash ∉ s.takeWhile (· ≠ slash) := fun hmem => by
    simpa using List.mem_takeWhile_imp hmem
  have htake : s.takeWhile (· ≠ slash) ≠ [] := by
    cases s with
    | nil => exact absurd rfl hne
    | cons c s =>
        have hc : c ≠ slash := fun hc => hhead (by rw [hc]; rfl)
        rw [List.takeWhile_cons_of_pos (by simpa using hc)]
        exact List.cons_ne_nil _ _
  have hbound : AtBoundary slash (s.dropWhile (· ≠ slash)) := by
    intro c hc
    have hnot := List.head?_dropWhile_not (fun c => decide (c ≠ slash)) s
    rw [Option.mem_def.mp hc] at hnot
    simpa using hnot
  refine ⟨hslash, htake, hbound, ?_⟩
  rw [← components_segment hslash htake hbound, List.takeWhile_append_dropWhile]

/-! ## `normalize_path` -/

/-- One round of `normalize_path` on the piece between two slashes. -/
def pushPiece (segs : List (List UInt8)) (piece : List UInt8) : Option (List (List UInt8)) :=
  let seg := piece.take (vfsMaxName - 1)
  if seg = ascii "." then some segs
  else if seg = ascii ".." then some segs.dropLast
  else if segs.length ≥ maxSegs then none
  else some (segs ++ [seg])

/-- The splitting loop folds the pieces onto the stack. -/
theorem splitLoop_eq : ∀ {fuel : Nat} {temp : List UInt8} {segs : List (List UInt8)},
    0 ∉ temp → temp.length ≤ fuel →
    splitLoop fuel temp segs = (components temp).foldlM pushPiece segs
  | 0, temp, segs, _, hlen => by
      rw [List.length_eq_zero_iff.mp (Nat.le_zero.mp hlen)]
      rfl
  | fuel + 1, temp, segs, hnul, hlen => by
      rw [splitLoop, ← components_dropWhile temp]
      have hsnul : 0 ∉ temp.dropWhile (· = slash) :=
        fun hm => hnul ((List.dropWhile_sublist _).subset hm)
      have hslen : (temp.dropWhile (· = slash)).length ≤ temp.length :=
        (List.dropWhile_sublist _).length_le
      have hhead := head?_dropWhile_slash temp
      generalize temp.dropWhile (· = slash) = s at hsnul hslen hhead ⊢
      by_cases hs : s = []
      · subst hs
        rfl
      · obtain ⟨-, htake, -, hcomps⟩ := segment_split hs hhead
        have hrestnul : 0 ∉ s.dropWhile (· ≠ slash) :=
          fun hm => hsnul ((List.dropWhile_sublist _).subset hm)
        have hrestlen : (s.dropWhile (· ≠ slash)).length ≤ fuel := by
          have hsplit := congrArg List.length (List.takeWhile_append_dropWhile (p := (· ≠ slash)) (l := s))
          have hpos := List.length_pos_iff.mpr htake
          rw [List.length_append] at hsplit
          omega
        have hsegnul : 0 ∉ (s.takeWhile (· ≠ slash)).take (vfsMaxName - 1) := fun hm =>
          hsnul ((List.takeWhile_sublist _).subset (List.mem_of_mem_take hm))
        have hsegcopy : copyStr ((s.takeWhile (· ≠ slash)).take (vfsMaxName - 1)) vfsMaxName
            = some ((s.takeWhile (· ≠ slash)).take (vfsMaxName - 1)) := by
          rw [copyStr_eq, if_pos (List.length_take_le _ _)]
        have ih := fun segs => @splitLoop_eq _ _ segs hrestnul hrestlen
        rw [if_neg hs, hcomps, List.foldlM_cons]
        simp only [scanSegment, pushPiece]
        simp only [strcmp_eq_zero_iff hsegnul (show (0 : UInt8) ∉ ascii "." by decide),
          strcmp_eq_zero_iff hsegnul (show (0 : UInt8) ∉ ascii ".." by decide), hsegcopy, ih]
        by_cases hdot : (s.takeWhile (· ≠ slash)).take (vfsMaxName - 1) = ascii "."
        · simp only [if_pos hdot]
          rfl
        · simp only [if_neg hdot]
          by_cases hdots : (s.takeWhile (· ≠ slash)).take (vfsMaxName - 1) = ascii ".."
          · simp only [if_pos hdots]
            rfl
          · simp only [if_neg hdots]
            by_cases htop : segs.length ≥ maxSegs
            · simp only [if_pos htop]
              rfl
            · simp only [if_neg htop]
              rfl

/-- The joining loop renders the components when they fit a path. -/
theorem joinLoop_eq : ∀ {segs done : List (List UInt8)}, (∀ s ∈ done, ValidSegment s) →
    (∀ s ∈ segs, ValidSegment s) → (render done).length < vfsMaxPath →
    joinLoop (render done) segs = if (render (done ++ segs)).length < vfsMaxPath then
      some (render (done ++ segs)) else none
  | [], done, _, _, hlen => by
      rw [List.append_nil, if_pos hlen]
      rfl
  | seg :: segs, done, hdone, hsegs, hlen => by
      have hseg : ValidSegment seg := hsegs seg (List.mem_cons_self ..)
      have hn : sLen seg vfsMaxName = seg.length := Nat.min_eq_left hseg.length_lt.le
      have hdone' : ∀ s ∈ done ++ [seg], ValidSegment s := by
        intro s hs
        rcases List.mem_append.mp hs with hs | hs
        · exact hdone s hs
        · rw [List.mem_singleton.mp hs]
          exact hseg
      have hpos : 0 < seg.length := List.length_pos_iff.mpr hseg.ne_nil
      have hgrow : (render (done ++ [seg])).length ≤ (render (done ++ seg :: segs)).length := by
        rw [render_of_ne_nil (by simp), render_of_ne_nil (by simp)]
        simp only [delimited_append, List.length_append, delimited_cons, List.length_cons,
          delimited_nil, List.length_nil]
        omega
      have hroot : 0 < (render done).length := by
        by_cases hnil : done = []
        · rw [hnil, render_nil]
          decide
        · exact Nat.lt_of_succ_lt (length_render_of_ne_nil hdone hnil)
      have hstep := render_append_singleton hdone seg
      have hlenStep := congrArg List.length hstep
      simp only [List.length_append] at hlenStep
      rw [joinLoop]
      simp only [hn, List.take_length, ← hstep]
      -- the guard measures the path with the new segment
      by_cases hfit : (render done).length + seg.length + 1 ≥ vfsMaxPath
      · rw [if_pos hfit, if_neg]
        by_cases hone : (render done).length > 1
        · rw [if_pos hone, List.length_singleton] at hlenStep
          omega
        · have hle := hseg.length_lt
          simp only [vfsMaxName, vfsMaxPath] at hle hfit ⊢
          omega
      · rw [if_neg hfit, joinLoop_eq hdone' (fun s hs => hsegs s (List.mem_cons_of_mem _ hs)),
          List.append_assoc]
        · rfl
        · rw [hlenStep]
          split <;> simp only [List.length_singleton, List.length_nil] <;> omega

/-- `normalize_path` folds the pieces of the absolute path and renders the result. -/
theorem normalizePath_eq {cwd path : List UInt8} (hc : 0 ∉ cwd) (hp : 0 ∉ path) :
    normalizePath cwd path = (absolutePath cwd path).bind fun temp =>
      ((components temp).foldlM pushPiece []).bind fun segs =>
        if (render segs).length < vfsMaxPath then some (render segs) else none := by
  unfold normalizePath
  cases htemp : absolutePath cwd path with
  | none => rfl
  | some temp =>
      have hnul := absolutePath_no_nul hc hp htemp
      rw [Option.bind_some, ← splitLoop_eq hnul le_rfl]
      cases hsegs : splitLoop temp.length temp [] with
      | none => simp only [hsegs, Option.bind_none]
      | some segs =>
          obtain ⟨hvalid, -⟩ := splitLoop_valid temp.length hnul (by simp) (by simp) hsegs
          simp only [hsegs, Option.bind_some]
          exact @joinLoop_eq _ [] (by simp) hvalid (by decide)

/-- A valid component is pushed as it is. -/
theorem pushPiece_valid {segs : List (List UInt8)} {seg : List UInt8} (h : ValidSegment seg)
    (hroom : segs.length < maxSegs) : pushPiece segs seg = some (segs ++ [seg]) := by
  have htake : seg.take (vfsMaxName - 1) = seg :=
    List.take_of_length_le (Nat.le_sub_one_of_lt h.length_lt)
  rw [pushPiece, htake, if_neg h.ne_dot, if_neg h.ne_dotdot, if_neg (by omega)]

theorem foldlM_pushPiece : ∀ {comps segs : List (List UInt8)}, (∀ c ∈ comps, ValidSegment c) →
    segs.length + comps.length ≤ maxSegs →
    comps.foldlM pushPiece segs = some (segs ++ comps)
  | [], segs, _, _ => by rw [List.append_nil]; rfl
  | c :: comps, segs, hvalid, hlen => by
      rw [List.length_cons] at hlen
      rw [List.foldlM_cons, pushPiece_valid (hvalid c (List.mem_cons_self ..)) (by omega)]
      simp only [Option.bind_eq_bind, Option.bind_some]
      rw [foldlM_pushPiece (fun c hc => hvalid c (List.mem_cons_of_mem _ hc)) (by
        rw [List.length_append, List.length_singleton]
        omega), List.append_assoc]
      rfl

theorem head?_render (comps : List (List UInt8)) : (render comps).head? = some slash := by
  by_cases hnil : comps = []
  · rw [hnil]
    rfl
  · obtain ⟨c, comps, rfl⟩ := List.exists_cons_of_ne_nil hnil
    rw [render_of_ne_nil hnil]
    rfl

/-- An absolute path that fits is taken as it is. -/
theorem absolutePath_of_slash {cwd path : List UInt8} (h : path.head? = some slash)
    (hlen : path.length < vfsMaxPath) : absolutePath cwd path = some path := by
  have hle : path.length ≤ vfsMaxPath - 1 := Nat.le_sub_one_of_lt hlen
  rw [absolutePath, if_pos h, copyStr_eq, if_pos hle]

/-- A canonical path is its own normal form, whatever the working directory. -/
theorem normalizePath_render {cwd : List UInt8} (hc : 0 ∉ cwd) {comps : List (List UInt8)}
    (hvalid : ∀ c ∈ comps, ValidSegment c) (hsegs : comps.length ≤ maxSegs)
    (hlen : (render comps).length < vfsMaxPath) :
    normalizePath cwd (render comps) = some (render comps) := by
  rw [normalizePath_eq hc (no_nul_render hvalid),
    absolutePath_of_slash (head?_render comps) hlen, Option.bind_some, components_render hvalid,
    foldlM_pushPiece hvalid (by simpa using hsegs), Option.bind_some, List.nil_append, if_pos hlen]

theorem normalizePath_canonicalPath {cwd p : List UInt8} (hc : 0 ∉ cwd) (h : CanonicalPath p) :
    normalizePath cwd p = some p := by
  obtain ⟨comps, hvalid, hsegs, rfl, hlen⟩ := h
  exact normalizePath_render hc hvalid hsegs hlen

/-- A canonical path fits a buffer of `VFS_MAX_PATH` bytes. -/
theorem copyStr_canonicalPath {p : List UInt8} (h : CanonicalPath p) :
    copyStr p vfsMaxPath = some p := by
  obtain ⟨_, -, -, -, hlen⟩ := h
  rw [copyStr_eq, if_pos (Nat.le_sub_one_of_lt hlen)]

/-- The parent of a canonical path is canonical. -/
theorem canonicalPath_parent {ps : List (List UInt8)} {leaf : List UInt8}
    (hvalid : ∀ c ∈ ps ++ [leaf], ValidSegment c) (hsegs : (ps ++ [leaf]).length ≤ maxSegs)
    (hlen : (render (ps ++ [leaf])).length < vfsMaxPath) : CanonicalPath (render ps) := by
  have hps : ∀ c ∈ ps, ValidSegment c := fun c hc => hvalid c (List.mem_append_left _ hc)
  have hstep := congrArg List.length (render_append_singleton hps leaf)
  simp only [List.length_append, List.length_singleton] at hstep hsegs
  exact ⟨ps, hps, by omega, rfl, by omega⟩

/-! ## `resolve_on_mount` -/

/-- Looking components up one after the other; only a directory is looked up in. -/
def descend {Node : Type} (lookup : Node → List UInt8 → Option (Node × Bool)) :
    List (List UInt8) → Node → Bool → Option (Node × Bool)
  | [], cur, isDir => some (cur, isDir)
  | c :: cs, cur, isDir =>
      if isDir = false then none
      else (lookup cur c).bind fun (next, isDir) => descend lookup cs next isDir

section Resolve

variable {σ Ctx Node : Type}

/-- The loop of `resolve_on_mount` over one component and what follows it. -/
theorem resolveLoop_segment {lookup : Node → List UInt8 → Option (Node × Bool)} {fuel : Nat}
    {c t : List UInt8} (hc : ValidSegment c) (ht : AtBoundary slash t) (cur : Node) (lead : List UInt8)
    (hlead : ∀ b ∈ lead, b = slash) :
    resolveLoop lookup (fuel + 1) (lead ++ (c ++ t)) cur true
      = (lookup cur c).bind fun (next, isDir) => resolveLoop lookup fuel t next isDir := by
  have hne : c ++ t ≠ [] := by simp [hc.ne_nil]
  have hdrop : (lead ++ (c ++ t)).dropWhile (· = slash) = c ++ t := by
    rw [List.dropWhile_append_of_pos (by simpa using hlead)]
    obtain ⟨b, c', rfl⟩ := List.exists_cons_of_ne_nil hc.ne_nil
    refine List.dropWhile_cons_of_neg ?_
    have hb : b ≠ slash := fun hb => hc.no_slash (by simp [hb])
    simpa using hb
  have hall : ∀ b ∈ c, decide (b ≠ slash) = true := by
    intro b hb
    have hbs : b ≠ slash := fun h => hc.no_slash (h ▸ hb)
    simpa using hbs
  have htail : t.takeWhile (· ≠ slash) = [] ∧ t.dropWhile (· ≠ slash) = t := by
    cases t with
    | nil => exact ⟨rfl, rfl⟩
    | cons b t =>
        have hb : b = slash := ht b rfl
        exact ⟨List.takeWhile_cons_of_neg (by simp [hb]), List.dropWhile_cons_of_neg (by simp [hb])⟩
  have hscan : scanSegment (c ++ t) = (c, t) := by
    rw [scanSegment, List.takeWhile_append_of_pos hall, List.dropWhile_append_of_pos hall, htail.1,
      htail.2, List.append_nil, List.take_of_length_le (Nat.le_sub_one_of_lt hc.length_lt)]
  rw [resolveLoop, if_neg (by simp [hne]), if_neg (by decide)]
  simp only [hdrop, if_neg hne, hscan]
  cases lookup cur c with
  | none => rfl
  | some r => rfl

/-- The loop of `resolve_on_mount` over delimited components. -/
theorem resolveLoop_delimited {lookup : Node → List UInt8 → Option (Node × Bool)} :
    ∀ {comps : List (List UInt8)} {fuel : Nat} (cur : Node) (isDir : Bool),
    (∀ c ∈ comps, ValidSegment c) → (delimited slash comps).length ≤ fuel →
    resolveLoop lookup fuel (delimited slash comps) cur isDir = descend lookup comps cur isDir
  | [], 0, cur, isDir, _, _ => rfl
  | [], fuel + 1, cur, isDir, _, _ => by
      rw [delimited_nil, resolveLoop, if_pos rfl, descend]
  | c :: comps, 0, _, _, _, hlen => by
      rw [delimited_cons, List.length_cons] at hlen
      omega
  | c :: comps, fuel + 1, cur, isDir, hvalid, hlen => by
      rw [descend]
      cases isDir with
      | false =>
          rw [delimited_cons, resolveLoop, if_neg (List.cons_ne_nil _ _), if_pos rfl, if_pos rfl]
      | true =>
          have hseg := @resolveLoop_segment _ lookup fuel _ _
            (hvalid c (List.mem_cons_self ..)) (atBoundary_delimited comps) cur [slash]
            (by simp)
          rw [List.singleton_append] at hseg
          rw [if_neg (by decide), delimited_cons, hseg]
          rw [delimited_cons, List.length_cons, List.length_append] at hlen
          congr 1
          funext r
          exact resolveLoop_delimited _ _ (fun c hc => hvalid c (List.mem_cons_of_mem _ hc))
            (by omega)

/-- The walk over the components below the root of a mount. -/
def resolveComps (s : σ) (m : FsMount σ Ctx Node) (comps : List (List UInt8)) :
    Option (Node × Bool) :=
  match m.ops.getRoot, m.ops.lookup with
  | some getRoot, some lookup => descend (lookup s m.ctx) comps (getRoot s m.ctx) true
  | _, _ => none

/-- `resolve_on_mount` walks the components of its subpath. -/
theorem resolveOnMount_eq (s : σ) (m : FsMount σ Ctx Node) {comps : List (List UInt8)}
    (hvalid : ∀ c ∈ comps, ValidSegment c) :
    resolveOnMount s m ([slash].intercalate comps) = resolveComps s m comps := by
  unfold resolveOnMount resolveComps
  cases m.ops.getRoot with
  | none => rfl
  | some getRoot =>
      cases m.ops.lookup with
      | none => rfl
      | some lookup =>
          simp only
          rw [← tail_delimited]
          cases comps with
          | nil => rfl
          | cons c comps =>
              have hc := hvalid c (List.mem_cons_self ..)
              have hne : c ++ delimited slash comps ≠ [] := by simp [hc.ne_nil]
              have hpos : 0 < c.length := List.length_pos_iff.mpr hc.ne_nil
              rw [delimited_cons, List.tail_cons, if_neg hne, List.length_append,
                show c.length + (delimited slash comps).length
                  = c.length - 1 + (delimited slash comps).length + 1 by omega,
                ← List.nil_append (c ++ delimited slash comps),
                resolveLoop_segment hc (atBoundary_delimited comps) _ [] (by simp), descend,
                if_neg (by decide)]
              congr 1
              funext r
              exact resolveLoop_delimited _ _ (fun c hc => hvalid c (List.mem_cons_of_mem _ hc))
                (by omega)

/-! ## `resolve_path` -/

/-- The mount `m` in slot `i`, on the components `ms`, is the one longest match
of the path with the components `comps`. -/
def OnlyMatch (v : FsVfs σ Ctx Node) (i : Nat) (m : FsMount σ Ctx Node)
    (ms comps : List (List UInt8)) : Prop :=
  Matches (render comps) v.mounts i m ∧ m.mountpoint = render ms ∧
  ∀ j m', Matches (render comps) v.mounts j m' → j ≠ i →
    m'.mountpoint.length < m.mountpoint.length

theorem OnlyMatch.findMount {v : FsVfs σ Ctx Node} {i : Nat} {m : FsMount σ Ctx Node}
    {ms comps : List (List UInt8)} (h : OnlyMatch v i m ms comps)
    (hms : ∀ c ∈ ms, ValidSegment c) (hcomps : ∀ c ∈ comps, ValidSegment c) :
    findMount v.mounts (render comps)
      = some (i, [slash].intercalate (comps.drop ms.length)) := by
  obtain ⟨hmatch, hmp, hmax⟩ := h
  cases hfind : Fs.findMount v.mounts (render comps) with
  | none => exact absurd hmatch (findMount_eq_none hfind i m)
  | some r =>
      obtain ⟨k, sub⟩ := r
      obtain ⟨m', hm', hsub, hlongest⟩ := findMount_eq_some hfind
      have hki : k = i := by
        by_contra hne
        have hlt := hmax k m' hm' hne
        have hle := (hlongest i m hmatch).1
        omega
      subst hki
      obtain rfl : m' = m := by
        have hslot := hm'.1.symm.trans hmatch.1
        exact Option.some.inj (Option.some.inj hslot)
      have hpre := (startsWith_render_iff hcomps hms).mp (hmp ▸ hmatch.2)
      rw [hsub, hmp]
      exact congrArg (fun s => some (k, s)) (drop_render hms hpre.1 hpre.2)

/-- `resolve_path` of a path that one mount matches. -/
theorem resolvePath_eq {v : FsVfs σ Ctx Node} (s : σ) {path : List UInt8} {i : Nat}
    {m : FsMount σ Ctx Node} {ms comps : List (List UInt8)}
    (hnorm : normalizePath v.cwd path = some (render comps)) (h : OnlyMatch v i m ms comps)
    (hms : ∀ c ∈ ms, ValidSegment c) (hcomps : ∀ c ∈ comps, ValidSegment c) :
    resolvePath v s path
      = (resolveComps s m (comps.drop ms.length)).map fun (node, isDir) => (m, node, isDir) := by
  have hdrop : ∀ c ∈ comps.drop ms.length, ValidSegment c :=
    fun c hc => hcomps c (List.mem_of_mem_drop hc)
  unfold resolvePath
  simp only [hnorm, h.findMount hms hcomps, h.1.1, resolveOnMount_eq s m hdrop]

/-- `resolve_path` of a path that no mount matches. -/
theorem resolvePath_none {v : FsVfs σ Ctx Node} (s : σ) {path norm : List UInt8}
    (hnorm : normalizePath v.cwd path = some norm) (h : ∀ j m, ¬ Matches norm v.mounts j m) :
    resolvePath v s path = none := by
  unfold resolvePath
  simp only [hnorm]
  cases hfind : Fs.findMount v.mounts norm with
  | none => rfl
  | some r =>
      obtain ⟨m, hm, -⟩ := @findMount_eq_some _ _ _ _ r.2 r.1 hfind
      exact absurd hm (h _ _)

/-! ## `resolve_parent` -/

/-- The cut of a path is the slash before its last component. -/
theorem cutLoop_append {pre leaf : List UInt8} (hleaf : slash ∉ leaf) :
    ∀ {k : Nat}, k ≤ leaf.length + 1 →
    cutLoop (pre ++ slash :: leaf) (pre.length + k) = pre.length
  | 0, _ => by
      rw [Nat.add_zero]
      cases hpre : pre.length with
      | zero => rfl
      | succ n =>
          rw [cutLoop, if_neg]
          rw [List.getD_eq_getElem?_getD, List.getElem?_append_right (by omega), ← hpre,
            Nat.sub_self]
          simp
  | k + 1, hk => by
      have hget : (pre ++ slash :: leaf).getD (pre.length + k + 1) 0 ≠ slash := by
        rw [List.getD_eq_getElem?_getD, List.getElem?_append_right (by omega),
          show pre.length + k + 1 - pre.length = k + 1 by omega, List.getElem?_cons_succ]
        cases hleafk : leaf[k]? with
        | none => decide
        | some b =>
            intro hb
            exact hleaf (hb ▸ List.mem_of_getElem? hleafk)
      rw [show pre.length + (k + 1) = pre.length + k + 1 by omega, cutLoop, if_pos hget]
      exact cutLoop_append hleaf (by omega)

/-- `resolve_parent` resolves the path without its last component. -/
theorem resolveParent_eq {v : FsVfs σ Ctx Node} (s : σ) {path leaf : List UInt8}
    {ps : List (List UInt8)} (hnorm : normalizePath v.cwd path = some (render (ps ++ [leaf])))
    (hps : ∀ c ∈ ps, ValidSegment c) (hleaf : ValidSegment leaf)
    (hlen : (render (ps ++ [leaf])).length < vfsMaxPath) :
    resolveParent v s path
      = (resolvePath v s (render ps)).map fun (m, node, _) => (m, node, leaf) := by
  have hsplit : render (ps ++ [leaf]) = delimited slash ps ++ slash :: leaf := by
    rw [render_of_ne_nil (by simp)]
    simp
  have hcut : cutLoop (render (ps ++ [leaf])) (strlen (render (ps ++ [leaf])))
      = (delimited slash ps).length := by
    rw [strlen, hsplit, List.length_append, List.length_cons]
    exact cutLoop_append hleaf.no_slash le_rfl
  have hlong : 1 < (render (ps ++ [leaf])).length := length_render_of_ne_nil (by
    intro c hc
    rcases List.mem_append.mp hc with hc | hc
    · exact hps c hc
    · rw [List.mem_singleton.mp hc]
      exact hleaf) (by simp)
  have hnotroot : ¬ strcmp (render (ps ++ [leaf])) [slash] = 0 := by
    rw [strcmp_eq_zero_iff (no_nul_render (by
      intro c hc
      rcases List.mem_append.mp hc with hc | hc
      · exact hps c hc
      · rw [List.mem_singleton.mp hc]
        exact hleaf)) (by decide)]
    intro hroot
    rw [hroot] at hlong
    exact absurd hlong (by decide)
  have hslash : (render (ps ++ [leaf])).getD (delimited slash ps).length 0 = slash := by
    rw [hsplit, List.getD_eq_getElem?_getD, List.getElem?_append_right le_rfl, Nat.sub_self]
    rfl
  have hdrop : (render (ps ++ [leaf])).drop ((delimited slash ps).length + 1) = leaf := by
    rw [hsplit, ← List.drop_drop, List.drop_left, List.drop_one, List.tail_cons]
  have hcopy : copyStr leaf vfsMaxName = some leaf := by
    rw [copyStr_eq, if_pos (Nat.le_sub_one_of_lt hleaf.length_lt)]
  have htake : (if (delimited slash ps).length = 0 then [slash]
      else (render (ps ++ [leaf])).take (delimited slash ps).length) = render ps := by
    by_cases hnil : ps = []
    · rw [hnil]
      rfl
    · have hne : (delimited slash ps).length ≠ 0 := by
        obtain ⟨c, cs, rfl⟩ := List.exists_cons_of_ne_nil hnil
        rw [delimited_cons, List.length_cons]
        omega
      rw [if_neg hne, hsplit, List.take_left, render_of_ne_nil hnil]
  have hshort : ¬ ((delimited slash ps).length ≠ 0 ∧
      (delimited slash ps).length + 1 ≥ vfsMaxPath) := by
    rw [hsplit, List.length_append, List.length_cons] at hlen
    omega
  unfold resolveParent
  simp only [hnorm, if_neg hnotroot, hcut, hslash, hdrop, hcopy, htake, if_neg hshort]
  rw [if_neg (by simp)]

end Resolve

/-! ## `vfs_listdir` -/

/-- The loop of `vfs_listdir` with a callback that always returns 0 passes it
every entry that `readdir` gives. -/
theorem listdirLoop_all {readdir : Nat → Option (List UInt8 × Bool × Nat)} {ents : List VfsDirent}
    (hread : ∀ index, readdir index = ents[index]?.map fun ent => (ent.name, ent.isDir, ent.size)) :
    ∀ {rounds index : Nat}, index ≤ ents.length → ents.length < index + rounds →
    listdirLoop readdir (fun _ => 0) rounds index = some (ents.drop index)
  | 0, index, hle, hlen => by omega
  | rounds + 1, index, _, hlen => by
      rw [listdirLoop, hread]
      cases hent : ents[index]? with
      | none =>
          rw [List.drop_eq_nil_of_le (List.getElem?_eq_none_iff.mp hent)]
          rfl
      | some ent =>
          obtain ⟨hlt, hget⟩ := List.getElem?_eq_some_iff.mp hent
          simp only [Option.map_some, ne_eq, not_true_eq_false, if_false]
          rw [listdirLoop_all hread hlt (by omega), List.drop_eq_getElem_cons hlt, hget]
          rfl

end RoninOS.Fs
