/-
RoninOS.Fs.RamfsNames — the names that both interfaces share.

`ramfs_touch` and `ramfs_write` store a name verbatim, and the VFS splits and
normalizes its paths, so a name with a `/` in it, `.` or `..` can be listed but
not be reached. `ramfs_write` also gives a directory a size, which `vfs_stat`
does not report. `namespaces_agree`: in every run that does neither, each entry
that `vfs_listdir` yields for the mountpoint is what `vfs_stat` reports.
-/
import RoninOS.Fs.RamfsShared
import RoninOS.Lib.Runs

namespace RoninOS.Fs

open RoninOS.Lib

/-! ## What agrees -/

/-- Each entry listed at the mountpoint is found below it, with its kind and size. -/
def NamespacesAgree (mp : CString) (s : RamfsVfs × RamfsTable) : Prop :=
  ∀ (rounds : Nat) (callback : VfsDirent → Int) (ret : Int) (ents : List VfsDirent),
    vfsListdir rounds s.1 s.2 mp.bytes callback = some (ret, ents) →
    ∀ ent ∈ ents, vfsStat s.1 s.2 (mp.bytes ++ slash :: ent.name)
      = some { isDir := ent.isDir, size := ent.size }

/-- The VFS keeps the name as one component. -/
def PlainName (name : List UInt8) : Prop :=
  slash ∉ name ∧ name ≠ ascii "." ∧ name ≠ ascii ".."

instance (name : List UInt8) : Decidable (PlainName name) :=
  inferInstanceAs (Decidable (slash ∉ name ∧ name ≠ ascii "." ∧ name ≠ ascii ".."))

/-- Creating the name makes no node with a name that the VFS would split. -/
def NameSafe (t : RamfsTable) (name : List UInt8) : Prop :=
  PlainName name ∨ ¬ RamfsName name ∨ ∀ i < ramfsMaxNodes, (t i).used = true

/-- A call of `ramfs_touch` or `ramfs_write` has such a name, and no text for a
directory. -/
def NamesSafe (t : RamfsTable) : SharedOp → Prop
  | .legacy (.touch name) => NameSafe t name.bytes
  | .legacy (.write name text _) => NameSafe t name.bytes ∧
      ∀ c, Lists t 0 c → (t c).nameStr = name.bytes → (t c).isDir = true →
        (text.map (·.bytes)).getD [] = []
  | _ => True

/-- Every call of a run keeps the names. -/
def AllNamesSafe : List SharedOp → RamfsVfs × RamfsTable → Prop
  | [], _ => True
  | op :: ops, s => NamesSafe s.2 op ∧ ∀ s', sharedNext s op = some s' → AllNamesSafe ops s'

/-! ## Names of the root directory -/

/-- The root directory has components as names, and its directories no size. -/
def NamesOk (t : RamfsTable) (kids : Nat → List Nat) : Prop :=
  ∀ c ∈ kids 0, ValidSegment (t c).nameStr ∧ ((t c).isDir = true → (t c).size = 0)

section Names

variable {ms : List (List UInt8)} {v : RamfsVfs} {t t' : RamfsTable} {kids kids' : Nat → List Nat}
  {op : SharedOp}

/-- A new node of a safe call has a component as its name. -/
theorem MakesNode.validSegment (h : NodesOk t kids) (hsafe : NamesSafe t op)
    (hmakes : MakesNode t kids op.MayName t' kids') {c : Nat} (hc : c ∈ kids' 0)
    (hnew : (t c).used = false) : ValidSegment (t' c).nameStr := by
  have h' := hmakes.nodesOk h
  have hname := h'.ramfsName hc
  rcases hmakes.node_cases (h'.child 0 c hc).1 with ⟨hused, -⟩ | ⟨-, name, isDir, dir, next, hmay, heq⟩
  · rw [hnew] at hused
    cases hused
  · have hstr : (t' c).nameStr = name.str := by rw [heq]; rfl
    have hlegacy : ∀ {given : CString}, NameSafe t given.bytes → name.str = given.bytes →
        ValidSegment (t' c).nameStr := by
      intro given hgiven hnameStr
      rw [← hnameStr, ← hstr] at hgiven
      obtain ⟨hslash, hdot, hdotdot⟩ := hgiven.resolve_right (by
        rintro (hbad | hfull)
        · exact hbad hname
        · have hused := hfull c (h'.used_lt c (h'.child 0 c hc).1)
          rw [hnew] at hused
          cases hused)
      exact ⟨hname.1, hslash, (t' c).no_nul_nameStr, hdot, hdotdot, hname.2⟩
    cases op with
    | vfs op =>
        rw [hstr]
        exact hmay
    | legacy op =>
        cases op with
        | touch given => exact hlegacy hsafe hmay.1
        | write given text append => exact hlegacy hsafe.1 hmay.1
        | remove given => exact absurd hmay id

/-- Making a node in a safe call keeps the names. -/
theorem MakesNode.namesOk (h : NodesOk t kids) (hok : NamesOk t kids) (hsafe : NamesSafe t op)
    (hmakes : MakesNode t kids op.MayName t' kids') : NamesOk t' kids' := by
  intro c hc
  have h' := hmakes.nodesOk h
  rcases hmakes.node_cases (h'.child 0 c hc).1 with ⟨hused, heq⟩ | ⟨hfree, _, _, _, _, -, heq⟩
  · obtain ⟨hvalid, hsize⟩ := hok c (hmakes.mem_kids hc hused)
    rw [heq]
    exact ⟨hvalid, hsize⟩
  · refine ⟨hmakes.validSegment h hsafe hc hfree, fun _ => ?_⟩
    rw [heq]
    rfl

/-- `ramfs_write` of no text leaves no size. -/
theorem writeText_nil_size {node node' : RamfsNode} {off : Nat} (hoff : off = 0)
    (h : writeText node [] off = some node') : node'.size = 0 := by
  subst hoff
  unfold writeText at h
  rw [if_neg (by simp)] at h
  rw [← Option.some.inj h]
  rfl

/-- A safe call keeps the names. -/
theorem TableChange.namesOk (h : NodesOk t kids) (hok : NamesOk t kids) (hsafe : NamesSafe t op)
    (hchange : TableChange v t kids op t' kids') : NamesOk t' kids' := by
  cases hchange with
  | makes hmakes => exact hmakes.namesOk h hok hsafe
  | @wrote name text append t₁ _ c node hmakes hc hname hwrite =>
      have hok₁ := hmakes.namesOk h hok hsafe
      have hlinks := writeText_links hwrite
      intro i hi
      by_cases hic : i = c
      · subst hic
        obtain ⟨hvalid, hsize⟩ := hok₁ i hi
        rw [Function.update_self, hlinks.nameStr, hlinks.isDir]
        refine ⟨hvalid, fun hdir => ?_⟩
        have hnil : (text.map (·.bytes)).getD [] = [] := by
          rcases hmakes.node_cases ((hmakes.nodesOk h).child 0 i hi).1 with
            ⟨hused, heq⟩ | ⟨-, _, isDir, _, _, hmay, heq⟩
          · have hlist := (h.lists_iff h.root).mpr (hmakes.mem_kids hi hused)
            rw [heq] at hname hdir
            exact hsafe.2 i hlist hname hdir
          · rw [heq] at hdir
            exact absurd (hmay.2.symm.trans hdir) (by decide)
        rw [hnil] at hwrite
        refine writeText_nil_size ?_ hwrite
        rw [hsize hdir]
        split <;> rfl
      · rw [Function.update_of_ne hic]
        exact hok₁ i hi
  | @removed _ x _ hx _ _ hkeep _ =>
      intro i hi
      obtain ⟨hi, hix, -⟩ := (mem_removeKids h hx).mp hi
      rw [hkeep i hix]
      exact hok i hi
  | @put _ _ bytes f off _ _ hfile _ _ =>
      intro i hi
      by_cases hif : i = f.node
      · subst hif
        have hlinks := writeBytes_links (t f.node) off bytes
        rw [Function.update_self, hlinks.nameStr, hlinks.isDir, hfile]
        exact ⟨(hok _ hi).1, fun hdir => absurd hdir (by decide)⟩
      · rw [Function.update_of_ne hif]
        exact hok i hi

/-! ## Listing and finding -/

/-- Every entry that `vfs_listdir` yields is one that `readdir` gave. -/
theorem listdirLoop_mem {readdir : Nat → Option (List UInt8 × Bool × Nat)}
    {callback : VfsDirent → Int} : ∀ {rounds index : Nat} {ents : List VfsDirent},
    listdirLoop readdir callback rounds index = some ents →
    ∀ ent ∈ ents, ∃ k, readdir k = some (ent.name, ent.isDir, ent.size)
  | 0, _, _, h => by cases h
  | rounds + 1, index, ents, h => by
      rw [listdirLoop] at h
      cases hread : readdir index with
      | none =>
          rw [hread] at h
          rw [← Option.some.inj h]
          exact fun ent hent => absurd hent List.not_mem_nil
      | some found =>
          obtain ⟨name, isDir, size⟩ := found
          rw [hread] at h
          simp only at h
          by_cases hstop : callback { name, isDir, size } ≠ 0
          · rw [if_pos hstop] at h
            rw [← Option.some.inj h]
            intro ent hent
            rw [List.mem_singleton.mp hent]
            exact ⟨index, hread⟩
          · rw [if_neg hstop] at h
            obtain ⟨rest, hrest, rfl⟩ := Option.map_eq_some_iff.mp h
            intro ent hent
            rcases List.mem_cons.mp hent with rfl | hent
            · exact ⟨index, hread⟩
            · exact listdirLoop_mem hrest ent hent

/-- `vfs_stat` of a name below the mountpoint. -/
theorem NodesOk.vfsStat_name (h : NodesOk t kids) (hv : OnlyRamfs v ms) {c : Nat}
    (hc : c ∈ kids 0) (hvalid : ValidSegment (t c).nameStr)
    (hdir : (t c).isDir = true → (t c).size = 0) (hsegs : ms.length < maxSegs)
    (hfits : (render ms).length + 1 + (ramfsMaxName - 1) < vfsMaxPath) :
    vfsStat v t (render ms ++ slash :: (t c).nameStr)
      = some { isDir := (t c).isDir, size := (t c).size } := by
  have hcomps : ∀ s ∈ ms ++ [(t c).nameStr], ValidSegment s := by
    intro s hs
    rcases List.mem_append.mp hs with hs | hs
    · exact hv.comps.valid s hs
    · rw [List.mem_singleton.mp hs]
      exact hvalid
  have hlen : 1 < (render ms).length := by
    obtain ⟨m, ms', rfl⟩ := List.exists_cons_of_ne_nil hv.comps.ne_nil
    have hm := List.length_pos_of_ne_nil (hv.comps.valid m (List.mem_cons_self ..)).ne_nil
    rw [render_of_ne_nil (by simp)]
    simp only [delimited, List.length_append, List.flatMap_cons, List.length_cons]
    omega
  have hpath : render ms ++ slash :: (t c).nameStr = render (ms ++ [(t c).nameStr]) := by
    rw [render_append_singleton hv.comps.valid, if_pos hlen, List.append_assoc]
    rfl
  have hnorm : normalizePath v.cwd (render (ms ++ [(t c).nameStr]))
      = some (render (ms ++ [(t c).nameStr])) := by
    refine normalizePath_render hv.cwd_no_nul hcomps ?_ ?_
    · rw [List.length_append, List.length_singleton]
      omega
    · have hname := hvalid.length_lt
      have hmax : vfsMaxName = ramfsMaxName := rfl
      rw [← hpath, List.length_append, List.length_cons]
      omega
  have hroot : descend (fsLookup t) [(t c).nameStr] fsGetRoot true = some (c, (t c).isDir) := by
    rw [descend, if_neg (by decide)]
    rcases h.lookup_cases h.root hvalid.no_nul with ⟨-, hall⟩ | ⟨k, hk, hkname, hlookup⟩
    · exact absurd rfl (hall c hc)
    · obtain rfl := h.names 0 k hk c hc hkname
      rw [show fsLookup t fsGetRoot = fsLookup t 0 from rfl, hlookup]
      rfl
  unfold vfsStat
  rw [hpath, hv.resolve_render t hcomps hnorm, if_pos (List.prefix_append ..), List.drop_left, hroot]
  simp only [Option.map_some, ramfsMount, ramfsOps, fsSize]
  cases hd : (t c).isDir with
  | true => rw [hdir hd]; rfl
  | false => rfl

/-- A table with good names shows them in both ways. -/
theorem SharedOk.namespacesAgree {s : RamfsVfs × RamfsTable} {mp : CString}
    (h : SharedOk (components mp.bytes) s kids) (hok : NamesOk s.2 kids)
    (hcanon : CanonicalPath mp.bytes) (hsegs : (components mp.bytes).length < maxSegs)
    (hfits : mp.bytes.length + 1 + (ramfsMaxName - 1) < vfsMaxPath) : NamespacesAgree mp s := by
  intro rounds callback ret ents hlist ent hent
  have hnorm : normalizePath s.1.cwd mp.bytes = some mp.bytes :=
    normalizePath_canonicalPath h.only.cwd_no_nul hcanon
  have hrender : render (components mp.bytes) = mp.bytes := by
    obtain ⟨comps, hvalid, -, hrender, -⟩ := hcanon
    rw [hrender, components_render hvalid]
  have hres : resolvePath s.1 s.2 mp.bytes = some (ramfsMount (components mp.bytes), 0, true) := by
    have heq := @OnlyRamfs.resolve_render _ _ h.only s.2 mp.bytes _ h.only.comps.valid
      (by rw [hrender]; exact hnorm)
    rw [if_pos (List.prefix_refl _), List.drop_length] at heq
    exact heq
  unfold vfsListdir at hlist
  rw [hres] at hlist
  obtain ⟨ents', hloop, heq⟩ := Option.map_eq_some_iff.mp hlist
  obtain ⟨-, rfl⟩ := Prod.mk.inj heq
  obtain ⟨k, hread⟩ := listdirLoop_mem hloop ent hent
  have hreaddir := h.nodes.fsReaddir_eq h.nodes.root k
  rw [show fsReaddir s.2 0 k = some (ent.name, ent.isDir, ent.size) from hread] at hreaddir
  obtain ⟨ent', hent', heq⟩ := Option.map_eq_some_iff.mp hreaddir.symm
  obtain ⟨c, hc, rfl⟩ := List.mem_map.mp (List.mem_of_getElem? hent')
  obtain ⟨hvalid, hdir⟩ := hok c hc
  simp only [Prod.mk.injEq] at heq
  obtain ⟨hname, hisDir, hsize⟩ := heq
  have hstat := h.nodes.vfsStat_name h.only hc hvalid hdir hsegs (by rw [hrender]; exact hfits)
  rw [hrender] at hstat
  rw [← hname, ← hisDir, ← hsize]
  exact hstat

end Names

/-! ## Runs -/

theorem SharedOk.namesOk_run {ms : List (List UInt8)} {s s' : RamfsVfs × RamfsTable}
    {kids : Nat → List Nat} (h : SharedOk ms s kids) (hok : NamesOk s.2 kids)
    {ops : List SharedOp} (hsafe : AllNamesSafe ops s) (hrun : ops.foldlM sharedNext s = some s') :
    ∃ kids', SharedOk ms s' kids' ∧ NamesOk s'.2 kids' := by
  have hall : AllCalls sharedNext (fun s op => NamesSafe s.2 op) ops s :=
    (allCalls_unique (F := AllNamesSafe) (fun _ => trivial) (fun _ _ _ => Iff.rfl) ops s).mp hsafe
  refine hall.invariant (fun s => ∃ kids, SharedOk ms s kids ∧ NamesOk s.2 kids) ?_
    ⟨kids, h, hok⟩ hrun
  rintro ⟨v, t⟩ op ⟨v', t'⟩ ⟨kids, h, hok⟩ hsafe hnext
  obtain ⟨⟨kids', hchange⟩, -, -⟩ := h.change hnext
  exact ⟨kids', h.next hnext hchange, hchange.namesOk h.nodes hok hsafe⟩

/-- With RAMFS as only mount, at a canonical path other than `/` that leaves
room for a name, both namespaces agree after every run that creates plain names
and writes no text to a directory. -/
theorem namespaces_agree {mp : CString} (hcanon : CanonicalPath mp.bytes)
    (hroot : mp.bytes ≠ [slash]) (hsegs : (components mp.bytes).length < maxSegs)
    (hfits : mp.bytes.length + 1 + (ramfsMaxName - 1) < vfsMaxPath) (ops : List SharedOp)
    (hsafe : AllNamesSafe ops (ramfsMounted mp, ramfsInit)) {s : RamfsVfs × RamfsTable}
    (hrun : ops.foldlM sharedNext (ramfsMounted mp, ramfsInit) = some s) : NamespacesAgree mp s := by
  obtain ⟨kids, h, hok⟩ := (ramfsMounted_sharedOk hcanon hroot).namesOk_run
    (fun _ hc => absurd hc List.not_mem_nil) hsafe hrun
  exact h.namespacesAgree hok hcanon hsegs hfits

/-- A directory made through the VFS and a file made by `ramfs_touch`. -/
def plainOps : List SharedOp :=
  [.vfs (.tree (.mkdir ⟨ascii "/r/d", by decide⟩)), .legacy (.touch ⟨ascii "a", by decide⟩)]

theorem namespaces_agree_plain :
    ∃ s, plainOps.foldlM sharedNext (ramfsMounted mountR, ramfsInit) = some s ∧
      NamespacesAgree mountR s := by
  have hrun := (Option.some_get (show (plainOps.foldlM sharedNext
    (ramfsMounted mountR, ramfsInit)).isSome by decide +kernel)).symm
  refine ⟨_, hrun, namespaces_agree mountR_canonical (by decide) (by decide) (by decide) plainOps
    ?_ hrun⟩
  exact ⟨trivial, fun _ _ => ⟨Or.inl (by decide), fun _ _ => trivial⟩⟩

/-- `ramfs_touch` of a name with a `/` makes an entry that `vfs_stat` does not find. -/
theorem ramfsTouch_hides_entry :
    ¬ ∀ (ops : List SharedOp) (s : RamfsVfs × RamfsTable),
      ops.foldlM sharedNext (ramfsMounted mountR, ramfsInit) = some s → NamespacesAgree mountR s := by
  intro hall
  have hagree := hall [.legacy (.touch ⟨ascii "a/b", by decide⟩)] _ rfl
  have hstat := hagree 2 (fun _ => 0) 0 [{ name := ascii "a/b", isDir := false, size := 0 }]
    (by decide +kernel) _ (List.mem_singleton_self _)
  exact absurd hstat (by decide +kernel)

end RoninOS.Fs
