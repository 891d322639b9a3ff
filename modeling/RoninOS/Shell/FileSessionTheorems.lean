/-
RoninOS.Shell.FileSessionTheorems — the commands on files, over whole sessions.

`FilesOk` is what every call of `shell_execute_line` keeps: the mounts of the boot, no open
descriptor, a working directory that is a `Place`, and the data of the modules. From it
each path resolves to what `locate` says (`FilesOk.located`), each command prints its
`answer`, and the working directory moves as `LineCall.place` says.
-/
import RoninOS.Apps.AppFsTheorems
import RoninOS.Shell.FileSession

namespace RoninOS.Shell

open RoninOS.Lib RoninOS.Fs RoninOS.Mem RoninOS.Apps

/-! ## Places -/

theorem Place.path_noNul (p : Place) : 0 ∉ p.path := by
  cases p <;> decide

/-- The directory of a path is written as its place. -/
theorem locate_dir {mods : List BootModule} {p q : Place} {path : List UInt8} (hnul : 0 ∉ path)
    (h : locate mods p path = .dir q) : normalizePath p.path path = some q.path := by
  rw [locate] at h
  cases hnorm : normalizePath p.path path with
  | none =>
      rw [hnorm] at h
      cases h
  | some norm =>
      obtain ⟨comps, hvalid, -, rfl, -⟩ := normalizePath_canonical p.path_noNul hnul hnorm
      rw [hnorm] at h
      simp only [components_render hvalid] at h
      match comps with
      | [] =>
          obtain rfl := Target.dir.inj h
          rfl
      | [c] =>
          rw [locateComps] at h
          split at h
          · rename_i hc
            obtain rfl := Target.dir.inj h
            rw [hc]
            rfl
          · cases h
      | [c, name] =>
          rw [locateComps] at h
          split at h
          · split at h <;> cases h
          · cases h
      | _ :: _ :: _ :: _ => cases h

/-! ## Modules -/

section Modules

variable {mods : List BootModule} {name : List UInt8}

theorem findModule_first {j : Nat} {m : BootModule} (h : FirstNamed mods name j m) :
    findModule mods name = some m := by
  obtain ⟨hlt, hget⟩ := List.getElem?_eq_some_iff.mp h.get
  rw [findModule, Option.map_eq_some_iff]
  refine ⟨(m, j), List.find?_eq_some_iff_getElem.mpr ⟨by simpa using h.name_eq, j,
    by rwa [List.length_zipIdx], by simp [hget], fun k hk => ?_⟩, rfl⟩
  have hne := h.first k _ (List.getElem?_eq_getElem (by omega)) hk
  simpa using hne

theorem firstNamed_findModule {m : BootModule} (h : findModule mods name = some m) :
    ∃ j, FirstNamed mods name j m := by
  rw [findModule, Option.map_eq_some_iff] at h
  obtain ⟨⟨m', j⟩, hfind, rfl⟩ := h
  obtain ⟨hname, i, hi, hget, hfirst⟩ := List.find?_eq_some_iff_getElem.mp hfind
  rw [List.length_zipIdx] at hi
  simp only [List.getElem_zipIdx, Nat.zero_add, Prod.mk.injEq] at hget
  obtain ⟨hm, rfl⟩ := hget
  refine ⟨i, List.getElem?_eq_some_iff.mpr ⟨hi, hm⟩, by simpa using hname, fun k m' hm' hk => ?_⟩
  obtain ⟨hlt, rfl⟩ := List.getElem?_eq_some_iff.mp hm'
  simpa using hfirst k hk

/-- `initrd_lookup` finds that module. -/
theorem findModule_lookup {s : BootState RamfsTable} (h : FilesAre s.initrd mods)
    (hnul : 0 ∉ name) :
    (initrdLookupLoop s.initrd name s.initrd.count 0 = none ∧ findModule mods name = none) ∨
      ∃ j m, initrdLookupLoop s.initrd name s.initrd.count 0 = some j ∧ mods[j]? = some m ∧
        findModule mods name = some m := by
  cases hlookup : initrdLookupLoop s.initrd name s.initrd.count 0 with
  | none =>
      refine Or.inl ⟨rfl, ?_⟩
      rw [Option.eq_none_iff_forall_ne_some]
      intro m hm
      obtain ⟨j, hj⟩ := firstNamed_findModule hm
      rw [(h.lookup_eq hnul j).mpr ⟨m, hj⟩] at hlookup
      cases hlookup
  | some j =>
      obtain ⟨m, hm⟩ := (h.lookup_eq hnul j).mp hlookup
      exact Or.inr ⟨j, m, rfl, hm.get, findModule_first hm⟩

end Modules

/-! ## The machine of a session -/

/-- The mount of RAMFS at `/`. -/
def ramfsRootMount : FsMount (BootState RamfsTable) Unit (BootNode Nat) where
  mountpoint := render []
  ops := bootOps ramfsOps
  ctx := ()

/-- The VFS after the boot, in a directory. -/
def sessionVfs (p : Place) : FsVfs (BootState RamfsTable) Unit (BootNode Nat) :=
  { initrdVfs (bootOps ramfsOps) with cwd := p.path }

/-- What every call keeps. -/
structure FilesOk (mods : List BootModule) (bytes : BootModule → List UInt8) (p : Place)
    (m : Machine) : Prop where
  vfs : m.vfs = sessionVfs p
  modules : FilesAre m.files.initrd mods
  ramfs : RamfsState m.files.other
  bytes_eq : ∀ mod ∈ mods, mod.bytes m.files.mem = bytes mod

/-! ## Paths -/

section Paths

variable {p : Place} {s : BootState RamfsTable} {path c : List UInt8} {rest : List (List UInt8)}

theorem resolvePath_root (hnorm : normalizePath p.path path = some (render [])) :
    resolvePath (sessionVfs p) s path = some (ramfsRootMount, .other fsGetRoot, true) :=
  @resolvePath_eq _ _ _ (sessionVfs p) s path _ _ _ _ hnorm (onlyMatch_root (bootOps ramfsOps))
    (by simp) (by simp)

theorem resolvePath_below
    (hnorm : normalizePath p.path path = some (render (initrdSegment :: rest)))
    (hvalid : ∀ c ∈ rest, ValidSegment c) :
    resolvePath (sessionVfs p) s path = (descend (initrdLookup s) rest .root true).map
      fun (node, isDir) => (initrdMount, node, isDir) :=
  @resolvePath_eq _ _ _ (sessionVfs p) s path _ _ _ _ hnorm
    (onlyMatch_initrd (bootOps ramfsOps) hvalid) initrdMount_valid (initrdComponents_valid hvalid)

/-- No mount matches another path. -/
theorem resolvePath_elsewhere (hnorm : normalizePath p.path path = some (render (c :: rest)))
    (hvalid : ∀ d ∈ c :: rest, ValidSegment d) (hc : c ≠ initrdSegment) :
    resolvePath (sessionVfs p) s path = none := by
  refine resolvePath_none s hnorm fun j m' hm' => ?_
  obtain ⟨hslot, hsw⟩ := hm'
  match j with
  | 0 =>
      obtain rfl := Option.some.inj (Option.some.inj hslot)
      cases ((startsWith_render_iff hvalid (by simp)).mp hsw).2 rfl
  | 1 =>
      obtain rfl := Option.some.inj (Option.some.inj hslot)
      obtain ⟨rest', heq⟩ := ((startsWith_render_iff hvalid initrdMount_valid).mp hsw).1
      exact hc (List.cons.inj heq).1.symm
  | 2 => cases hslot
  | 3 => cases hslot
  | j + 4 => cases hslot

end Paths

/-- What `resolve_path` finds for a target. -/
inductive LeadsTo (mods : List BootModule) :
    Target → Option (FsMount (BootState RamfsTable) Unit (BootNode Nat) × BootNode Nat × Bool) →
      Prop
  | root : LeadsTo mods (.dir .root) (some (ramfsRootMount, .other fsGetRoot, true))
  | initrd : LeadsTo mods (.dir .initrd) (some (initrdMount, .root, true))
  | file {j : Nat} {m : BootModule} : mods[j]? = some m →
      LeadsTo mods (.file m) (some (initrdMount, .file j, false))
  | nothing : LeadsTo mods .nothing none

section Session

variable {mods : List BootModule} {bytes : BootModule → List UInt8} {p : Place} {m : Machine}

/-- The components of a path lead where it resolves. -/
theorem FilesOk.resolves (h : FilesOk mods bytes p m) {path : List UInt8} :
    ∀ {comps : List (List UInt8)}, (∀ c ∈ comps, ValidSegment c) →
      normalizePath p.path path = some (render comps) →
      LeadsTo mods (locateComps mods comps) (resolvePath m.vfs m.files path) := by
  intro comps hvalid hnorm
  rw [h.vfs]
  match comps, hvalid, hnorm with
  | [], _, hnorm =>
      rw [resolvePath_root hnorm]
      exact .root
  | [c], hvalid, hnorm =>
      rw [locateComps]
      split
      · rename_i hc
        rw [resolvePath_below (hc ▸ hnorm) (by simp)]
        exact .initrd
      · rename_i hc
        rw [resolvePath_elsewhere hnorm hvalid hc]
        exact .nothing
  | [c, name], hvalid, hnorm =>
      have hname : ValidSegment name := hvalid name (by simp)
      rw [locateComps]
      split
      · rename_i hc
        rw [resolvePath_below (hc ▸ hnorm) (by simpa using hname)]
        rcases findModule_lookup h.modules hname.no_nul with
          ⟨hlookup, hfind⟩ | ⟨j, mod, hlookup, hget, hfind⟩
        · rw [hfind]
          simp only [descend, initrdLookup, hlookup]
          exact .nothing
        · rw [hfind]
          simp only [descend, initrdLookup, hlookup]
          exact .file hget
      · rename_i hc
        rw [resolvePath_elsewhere hnorm hvalid hc]
        exact .nothing
  | c :: name :: x :: more, hvalid, hnorm =>
      have hlocate : locateComps mods (c :: name :: x :: more) = .nothing := by
        rw [locateComps] <;> simp
      rw [hlocate]
      by_cases hc : c = initrdSegment
      · rw [resolvePath_below (hc ▸ hnorm) fun d hd => hvalid d (List.mem_cons_of_mem _ hd)]
        simp only [descend, initrdLookup]
        cases initrdLookupLoop m.files.initrd name m.files.initrd.count 0 with
        | none => exact .nothing
        | some j => exact .nothing
      · rw [resolvePath_elsewhere hnorm hvalid hc]
        exact .nothing

/-- A path resolves to where it leads. -/
theorem FilesOk.located (h : FilesOk mods bytes p m) {path : List UInt8} (hnul : 0 ∉ path) :
    LeadsTo mods (locate mods p path) (resolvePath m.vfs m.files path) := by
  rw [locate]
  cases hnorm : normalizePath p.path path with
  | none =>
      have hcwd : normalizePath m.vfs.cwd path = none := by
        rw [h.vfs]
        exact hnorm
      have hnone : resolvePath m.vfs m.files path = none := by
        unfold resolvePath
        simp only [hcwd]
      rw [hnone]
      exact .nothing
  | some norm =>
      obtain ⟨comps, hvalid, -, rfl, -⟩ := normalizePath_canonical p.path_noNul hnul hnorm
      simp only [components_render hvalid]
      exact h.resolves hvalid hnorm

/-! ## `cd` -/

/-- A normalized path leads where the path leads. -/
theorem locate_normalize {path norm : List UInt8} (hnul : 0 ∉ path)
    (hnorm : normalizePath p.path path = some norm) : locate mods p norm = locate mods p path := by
  have hcanon : CanonicalPath norm := normalizePath_canonical p.path_noNul hnul hnorm
  rw [locate, locate, hnorm, normalizePath_canonicalPath p.path_noNul hcanon]

/-- `vfs_chdir` to a directory moves there, and fails elsewhere. -/
theorem FilesOk.vfsChdir_eq (h : FilesOk mods bytes p m) {path : List UInt8} (hnul : 0 ∉ path) :
    vfsChdir m.vfs m.files path = (match locate mods p path with
      | .dir _ => 0
      | _ => -1, sessionVfs (chdirPlace p (locate mods p path))) := by
  have hcwd : m.vfs.cwd = p.path := congrArg Vfs.cwd h.vfs
  unfold vfsChdir
  rw [hcwd]
  cases hnorm : normalizePath p.path path with
  | none =>
      have hlocate : locate mods p path = .nothing := by rw [locate, hnorm]
      rw [hlocate]
      exact Prod.ext rfl h.vfs
  | some norm =>
      have hcanon : CanonicalPath norm := normalizePath_canonical p.path_noNul hnul hnorm
      have hleads := h.located hcanon.no_nul
      rw [locate_normalize hnul hnorm] at hleads
      have hmove : ∀ q, locate mods p path = .dir q →
          ({ m.vfs with cwd := (copyStr norm vfsMaxPath).getD m.vfs.cwd } : FsVfs _ _ _)
            = sessionVfs q := by
        intro q hq
        have hpath := (locate_dir hnul hq).symm.trans hnorm
        rw [copyStr_canonicalPath hcanon, h.vfs, ← Option.some.inj hpath]
        rfl
      simp only
      rw [← hcwd]
      generalize locate mods p path = target at hleads hmove ⊢
      generalize resolvePath m.vfs m.files norm = found at hleads ⊢
      cases hleads with
      | root => exact Prod.ext rfl (hmove _ rfl)
      | initrd => exact Prod.ext rfl (hmove _ rfl)
      | file _ => exact Prod.ext rfl h.vfs
      | nothing => exact Prod.ext rfl h.vfs

/-! ## `ls` -/

/-- `vfs_listdir` of a directory gives its entries, and fails elsewhere. -/
theorem FilesOk.vfsListdir_eq (h : FilesOk mods bytes p m) {kids : Nat → List Nat}
    (hkids : NodesOk m.files.other kids) {fuel : Nat} (hmods : mods.length < fuel)
    (hfuel : ramfsRounds ≤ fuel) {path : List UInt8} (hnul : 0 ∉ path) :
    vfsListdir fuel m.vfs m.files path (fun _ => 0)
      = some (match listing mods (direntsOf m.files.other (kids 0)) (locate mods p path) with
        | some ents => (0, ents)
        | none => (-1, [])) := by
  have hleads := h.located hnul
  unfold vfsListdir
  generalize locate mods p path = target at hleads ⊢
  generalize resolvePath m.vfs m.files path = found at hleads ⊢
  cases hleads with
  | root =>
      have hlen := hkids.length_lt 0
      have hread : ∀ index, fsReaddir m.files.other fsGetRoot index
          = (direntsOf m.files.other (kids 0))[index]?.map
            fun ent => (ent.name, ent.isDir, ent.size) := hkids.fsReaddir_eq hkids.root
      simp only [ramfsRootMount, bootOps, ramfsOps, Option.map_some, BootNode.otherNode,
        Option.bind_some, listing]
      rw [listdirLoop_all hread (Nat.zero_le _) (by rw [direntsOf, List.length_map]; omega)]
      rfl
  | initrd =>
      simp only [initrdMount, initrdOps, listing]
      rw [listdirLoop_all h.modules.readdir_eq (Nat.zero_le _)
        (by rw [List.length_mapIdx]; omega)]
      rfl
  | file _ => rfl
  | nothing => rfl

/-! ## `cat` -/

/-- The VFS in a directory after `vfs_open` of file `j`, `pos` bytes into it. -/
def sessionOpened (p : Place) (j pos : Nat) : FsVfs (BootState RamfsTable) Unit (BootNode Nat) :=
  { openedVfs (bootOps ramfsOps) j pos with cwd := p.path }

/-- `vfs_read` does not look at the working directory. -/
theorem vfsRead_cwd {σ Ctx Node : Type} (v : FsVfs σ Ctx Node) (s : σ) (fd : Int) (n : Nat)
    (cwd : List UInt8) :
    vfsRead { v with cwd } s fd n
      = ((vfsRead v s fd n).1, (vfsRead v s fd n).2.1, { (vfsRead v s fd n).2.2 with cwd }) := by
  have hused : usedFd { v with cwd } fd = usedFd v fd := rfl
  unfold vfsRead
  rw [hused]
  cases usedFd v fd with
  | none => rfl
  | some f =>
      simp only
      cases f.ops.read with
      | none => rfl
      | some read =>
          simp only [advanceFd]
          split
          · rfl
          · split <;> rfl

/-- Chunks of 64 bytes give the rest of the module. -/
theorem catLoop_eq {s : BootState RamfsTable} (h : FilesAre s.initrd mods) {j : Nat}
    {mod : BootModule} (hm : mods[j]? = some mod) : ∀ {fuel pos : Nat},
    (mod.bytes s.mem).length - pos < fuel →
    ∃ pos', catLoop s 0 fuel (sessionOpened p j pos)
      = some ((mod.bytes s.mem).drop pos, sessionOpened p j pos') := by
  intro fuel
  induction fuel with
  | zero => exact fun hfuel => absurd hfuel (Nat.not_lt_zero _)
  | succ fuel ih =>
      intro pos hfuel
      rw [catLoop, sessionOpened, vfsRead_cwd, vfsRead_opened]
      by_cases hend : (mod.bytes s.mem).length ≤ pos
      · refine ⟨pos, ?_⟩
        rw [h.read_end hm hend, List.drop_eq_nil_of_le hend]
        rfl
      · have hlt : min ((mod.bytes s.mem).length - pos) 64 < 2 ^ 31 := by omega
        obtain ⟨pos', hrest⟩ := @ih (pos + min ((mod.bytes s.mem).length - pos) 64) (by omega)
        refine ⟨pos', ?_⟩
        rw [h.read_eq hm (by omega)]
        have hpos : 0 < min ((mod.bytes s.mem).length - pos) 64 := by omega
        generalize min ((mod.bytes s.mem).length - pos) 64 = can at hlt hpos hrest
        have hcan : intOfU32 can = (can : Int) := if_pos hlt
        simp only [hcan, Int.toNat_natCast]
        rw [if_pos (by omega)]
        refine (congrArg (Option.map _) hrest).trans ?_
        rw [Option.map_some, List.take_take, Nat.min_self, ← List.drop_drop,
          List.take_append_drop]

/-- `cat` prints a module and leaves the descriptors as they were. -/
theorem FilesOk.appCat_eq (h : FilesOk mods bytes p m) {fuel : Nat} (hfuel : 2 ^ 32 ≤ fuel)
    {argv : List (List UInt8)} (hargv : ∀ arg ∈ argv, 0 ∉ arg) :
    ∃ ret, appCatMain fuel argv m.vfs m.files
      = some (ret, if argv.length < 2 then ascii "usage: cat <path>\n"
          else catText bytes (locate mods p (argv.getD 1 [])), m.vfs, m.files) := by
  rw [appCatMain]
  by_cases hargs : argv.length < 2
  · rw [if_pos hargs, if_pos hargs]
    exact ⟨1, rfl⟩
  · simp only [if_neg hargs]
    have hnul : 0 ∉ argv.getD 1 [] := by
      rw [List.getD_eq_getElem _ _ (by omega)]
      exact hargv _ (List.getElem_mem _)
    have hleads := h.located hnul
    have hclosed : resolveFile m.vfs m.files (argv.getD 1 []) = none →
        vfsOpen m.vfs m.files (argv.getD 1 []) vfsORdonly = (-1, m.vfs, m.files) :=
      vfsOpen_rdonly_none
    have hopened : ∀ j, resolveFile m.vfs m.files (argv.getD 1 []) = some (initrdMount, .file j) →
        vfsOpen m.vfs m.files (argv.getD 1 []) vfsORdonly = (0, sessionOpened p j 0, m.files) := by
      intro j hj
      rw [vfsOpen, hj, h.vfs]
      rfl
    unfold resolveFile at hclosed hopened
    generalize locate mods p (argv.getD 1 []) = target at hleads ⊢
    generalize resolvePath m.vfs m.files (argv.getD 1 []) = found at hleads hclosed hopened
    cases hleads with
    | root =>
        rw [hclosed rfl]
        exact ⟨1, rfl⟩
    | initrd =>
        rw [hclosed rfl]
        exact ⟨1, rfl⟩
    | @file j mod hget =>
        have hmod := List.mem_of_getElem? hget
        have hlt := (h.modules.ok mod hmod).lt
        obtain ⟨pos, hcat⟩ := @catLoop_eq mods p m.files h.modules j mod hget fuel 0
          (by rw [mod.length_bytes]; omega)
        rw [hopened j rfl]
        simp only
        rw [hcat, if_neg (by decide), h.vfs, h.bytes_eq mod hmod]
        exact ⟨0, rfl⟩
    | nothing =>
        rw [hclosed rfl]
        exact ⟨1, rfl⟩

end Session

/-! ## Programs -/

/-- The programs that use no file system leave the data of the modules alone. -/
def KeepModules (mods : List BootModule) (others : Others) : Prop :=
  ∀ program argv m out mem, others program argv m = some (out, mem) →
    ∀ mod ∈ mods, mod.bytes mem = mod.bytes m.files.mem

section Programs

variable {mods : List BootModule} {bytes : BootModule → List UInt8} {p : Place} {m m' : Machine}
  {fuel : Nat} {others : Others} {argv : List (List UInt8)} {text : List UInt8}

/-- Where `cd` and `ls` look has no NUL byte. -/
theorem pathArg_noNul (default : String) (hargv : ∀ arg ∈ argv, 0 ∉ arg)
    (hdefault : 0 ∉ ascii default) : 0 ∉ pathArg argv default := by
  rw [pathArg]
  split
  · rw [List.getD_eq_getElem _ _ (by omega)]
    exact hargv _ (List.getElem_mem _)
  · exact hdefault

/-- `pwd` prints the working directory. -/
theorem FilesOk.appPwd_eq (h : FilesOk mods bytes p m) :
    fileResult (appPwdMain m.vfs m.files) = (p.path ++ ascii "\n", m) := by
  have hcwd : m.vfs.cwd = p.path := congrArg Vfs.cwd h.vfs
  rw [appPwdMain, hcwd]
  rfl

/-- `cd` moves to a directory. -/
theorem FilesOk.appCd_eq (h : FilesOk mods bytes p m) (hargv : ∀ arg ∈ argv, 0 ∉ arg) :
    fileResult (appCdMain argv m.vfs m.files) = (cdText (locate mods p (pathArg argv "/")),
      { m with vfs := sessionVfs (placeAfter mods p argv .appCd) }) := by
  have hchdir := h.vfsChdir_eq (pathArg_noNul "/" hargv (by decide))
  have hmain : appCdMain argv m.vfs m.files
      = (let (rc, v) := vfsChdir m.vfs m.files (pathArg argv "/")
         if rc < 0 then (1, ascii "cd: no such directory\n", v, m.files)
         else (0, [], v, m.files)) := rfl
  rw [hmain, hchdir, placeAfter]
  cases locate mods p (pathArg argv "/") with
  | dir q => rfl
  | file mod => rfl
  | nothing => rfl

/-- `ls` prints the entries of a directory. -/
theorem FilesOk.appLs_eq (h : FilesOk mods bytes p m) {kids : Nat → List Nat}
    (hkids : NodesOk m.files.other kids) (hmods : mods.length < fuel) (hfuel : ramfsRounds ≤ fuel)
    (hargv : ∀ arg ∈ argv, 0 ∉ arg) :
    ∃ ret, appLsMain fuel argv m.vfs m.files
      = some (ret, lsText (listing mods (direntsOf m.files.other (kids 0))
          (locate mods p (pathArg argv "."))), m.vfs, m.files) := by
  have hlist := h.vfsListdir_eq hkids hmods hfuel
    (pathArg_noNul "." hargv (by decide))
  have hmain : appLsMain fuel argv m.vfs m.files
      = (vfsListdir fuel m.vfs m.files (pathArg argv ".") fun _ => 0).map fun listed =>
        if listed.1 < 0 then
          (1, listed.2.flatMap printDirent ++ ascii "ls: cannot open directory\n", m.vfs, m.files)
        else (0, listed.2.flatMap printDirent, m.vfs, m.files) := rfl
  rw [hmain, hlist]
  cases listing mods (direntsOf m.files.other (kids 0)) (locate mods p (pathArg argv ".")) with
  | some ents => exact ⟨0, rfl⟩
  | none => exact ⟨1, rfl⟩

/-- A command on paths prints its answer and moves to the next place. -/
theorem FilesOk.answered (h : FilesOk mods bytes p m) (hmods : mods.length ≤ initrdMaxFiles)
    (hfuel : 2 ^ 32 ≤ fuel) {kids : Nat → List Nat} (hkids : NodesOk m.files.other kids)
    (hargv : ∀ arg ∈ argv, 0 ∉ arg) {program : Program}
    (hanswer : answer mods bytes (direntsOf m.files.other (kids 0)) p argv program = some text) :
    filePrograms fuel others program argv m
      = some (text, { m with vfs := sessionVfs (placeAfter mods p argv program) }) := by
  have hrounds : ramfsRounds = 97 := rfl
  have hmax : initrdMaxFiles = 32 := rfl
  have hsame : ({ m with vfs := sessionVfs p } : Machine) = m := by rw [← h.vfs]
  cases program with
  | appPwd =>
      obtain rfl := Option.some.inj hanswer
      simp only [filePrograms, placeAfter, hsame, h.appPwd_eq]
  | appCd =>
      obtain rfl := Option.some.inj hanswer
      rw [filePrograms, h.appCd_eq hargv]
  | appLs =>
      obtain ⟨ret, hls⟩ := h.appLs_eq hkids (show mods.length < fuel by omega) (by omega) hargv
      obtain rfl := Option.some.inj hanswer
      simp only [filePrograms, placeAfter, hsame, hls]
      rfl
  | appCat =>
      obtain ⟨ret, hcat⟩ := h.appCat_eq hfuel hargv
      obtain rfl := Option.some.inj hanswer
      simp only [filePrograms, placeAfter, hsame, hcat]
      rfl
  | _ => cases hanswer

/-- A program without an answer changes RAMFS at most. -/
theorem FilesOk.unanswered (h : FilesOk mods bytes p m) (hkeep : KeepModules mods others)
    (hargv : ∀ arg ∈ argv, 0 ∉ arg) {root : List VfsDirent} {program : Program}
    (hanswer : answer mods bytes root p argv program = none)
    (hrun : filePrograms fuel others program argv m = some (text, m')) :
    FilesOk mods bytes (placeAfter mods p argv program) m' := by
  have hother : (others program argv m).map (fun done =>
      (done.1, ({ m with files := { m.files with mem := done.2 } } : Machine))) = some (text, m') →
      FilesOk mods bytes p m' := by
    intro hrun
    obtain ⟨⟨out, mem⟩, hmem, heq⟩ := Option.map_eq_some_iff.mp hrun
    obtain ⟨-, rfl⟩ := Prod.mk.inj heq
    refine ⟨h.vfs, h.modules, h.ramfs, fun mod hmod => ?_⟩
    rw [← h.bytes_eq mod hmod]
    exact hkeep program argv m out mem hmem mod hmod
  cases program with
  | appPwd => cases hanswer
  | appCd => cases hanswer
  | appLs => cases hanswer
  | appCat => cases hanswer
  | appFs =>
      obtain ⟨⟨ret, other, out⟩, hfs, heq⟩ := Option.map_eq_some_iff.mp hrun
      obtain ⟨-, rfl⟩ := Prod.mk.inj heq
      exact ⟨h.vfs, h.modules, appFsMain_state h.ramfs hargv hfs, h.bytes_eq⟩
  | _ => exact hother hrun

/-- Every program keeps the machine of a session. -/
theorem FilesOk.program (h : FilesOk mods bytes p m) (hmods : mods.length ≤ initrdMaxFiles)
    (hfuel : 2 ^ 32 ≤ fuel) (hkeep : KeepModules mods others) (hargv : ∀ arg ∈ argv, 0 ∉ arg)
    {program : Program} (hrun : filePrograms fuel others program argv m = some (text, m')) :
    FilesOk mods bytes (placeAfter mods p argv program) m' := by
  obtain ⟨kids, hkids⟩ := h.ramfs.callsOk
  cases hanswer : answer mods bytes (direntsOf m.files.other (kids 0)) p argv program with
  | none => exact h.unanswered hkeep hargv hanswer hrun
  | some text' =>
      rw [h.answered hmods hfuel hkids.nodes hargv hanswer] at hrun
      obtain ⟨-, rfl⟩ := Prod.mk.inj (Option.some.inj hrun)
      exact ⟨rfl, h.modules, h.ramfs, h.bytes_eq⟩

end Programs

/-! ## Sessions -/

section Sessions

variable {mods : List BootModule} {bytes : BootModule → List UInt8} {p : Place} {m m' : Machine}
  {fuel : Nat} {others : Others}

theorem LineCall.argv_noNul (c : LineCall) : ∀ arg ∈ c.argv, 0 ∉ arg := by
  intro arg harg h0
  have hline := mem_wordsFrom h0 (List.mem_of_mem_take harg)
  exact c.line.noNul (List.mem_of_mem_take hline)

/-- A call runs its program on its arguments. -/
theorem LineCall.run_eq (c : LineCall) (hfuel : 2 ^ 32 ≤ fuel) : c.run fuel others m
    = match c.argv with
      | [] => some ([], m)
      | _ :: _ => match c.program with
        | some program => filePrograms fuel others program c.argv m
        | none => some (unknownCommand, m) := by
  obtain ⟨ptrs, buf', hexec, hpoints⟩ := executeArgs_points c.holds c.buf
  have hargv : ptrs.map (argString buf') = c.argv := map_argString hpoints
  rw [run, shellExecuteLine, hexec fuel (by omega), Option.bind_some]
  simp only [hargv, program]
  cases c.argv with
  | nil => rfl
  | cons name args => rfl

/-- A call of a command on paths prints its answer. -/
theorem FilesOk.call (h : FilesOk mods bytes p m) (hmods : mods.length ≤ initrdMaxFiles)
    (hfuel : 2 ^ 32 ≤ fuel) {kids : Nat → List Nat} (hkids : NodesOk m.files.other kids)
    {c : LineCall} {program : Program} {text : List UInt8} (hprogram : c.program = some program)
    (hanswer : answer mods bytes (direntsOf m.files.other (kids 0)) p c.argv program = some text) :
    c.run fuel others m = some (text, { m with vfs := sessionVfs (c.place mods p) }) := by
  have hcall : filePrograms fuel others program c.argv m = _ :=
    h.answered hmods hfuel hkids c.argv_noNul hanswer
  rw [c.run_eq hfuel, LineCall.place, hprogram, Option.map_some, Option.getD_some]
  cases hnil : c.argv with
  | nil =>
      rw [LineCall.program, hnil] at hprogram
      cases hprogram
  | cons name args =>
      rw [hnil] at hcall
      exact hcall

/-- A call keeps the machine of a session. -/
theorem FilesOk.step (h : FilesOk mods bytes p m) (hmods : mods.length ≤ initrdMaxFiles)
    (hfuel : 2 ^ 32 ≤ fuel) (hkeep : KeepModules mods others) {c : LineCall} {text : List UInt8}
    (hrun : c.run fuel others m = some (text, m')) :
    FilesOk mods bytes (c.place mods p) m' := by
  have hargv := c.argv_noNul
  rw [c.run_eq hfuel] at hrun
  rw [LineCall.place]
  cases hprogram : c.program with
  | none =>
      simp only [hprogram] at hrun
      split at hrun
      · obtain ⟨-, rfl⟩ := Prod.mk.inj (Option.some.inj hrun)
        exact h
      · obtain ⟨-, rfl⟩ := Prod.mk.inj (Option.some.inj hrun)
        exact h
  | some program =>
      simp only [hprogram] at hrun
      split at hrun
      · rename_i hnil
        rw [LineCall.program, hnil] at hprogram
        cases hprogram
      · exact h.program hmods hfuel hkeep hargv hrun

/-- So do all calls. -/
theorem FilesOk.session (hmods : mods.length ≤ initrdMaxFiles) (hfuel : 2 ^ 32 ≤ fuel)
    (hkeep : KeepModules mods others) (calls : List LineCall) : ∀ {p : Place} {m : Machine},
    FilesOk mods bytes p m →
    calls.foldlM (fun m c => (c.run fuel others m).map (·.2)) m = some m' →
    FilesOk mods bytes (calls.foldl (LineCall.place mods) p) m' := by
  induction calls with
  | nil =>
      intro p m h hrun
      obtain rfl := Option.some.inj hrun
      exact h
  | cons c calls ih =>
      intro p m h hrun
      rw [List.foldlM_cons, Option.bind_eq_bind, Option.bind_eq_some_iff] at hrun
      obtain ⟨m₁, hstep, hrest⟩ := hrun
      obtain ⟨⟨text, m₁⟩, hcall, rfl⟩ := Option.map_eq_some_iff.mp hstep
      exact ih (h.step hmods hfuel hkeep hcall) hrest

/-- `vfs_mkdir` writes RAMFS only. -/
theorem mkdirInitrd_mem (mem : Mem) :
    (vfsMkdir (kernelVfs (bootOps ramfsOps)) ⟨mem, zeroCtx, ramfsInit⟩ initrdPath.bytes).2.mem
      = mem := by
  have hparent : resolveParent (kernelVfs (bootOps ramfsOps)) ⟨mem, zeroCtx, ramfsInit⟩
      initrdPath.bytes = some (ramfsRootMount, .other fsGetRoot, initrdSegment) := rfl
  rw [vfsMkdir, vfsCreateNode, hparent]
  rfl

/-- The machine after the boot. -/
theorem bootFiles_ok {mem : Mem} {addr : Nat} {tags : List Tag} (h : InfoBlock mem addr tags) :
    ∃ m, bootFiles (ld32 mem addr) mem multiboot2BootloaderMagic addr = some m ∧
      FilesOk (listedModules tags) (·.bytes mem) .root m := by
  have hboot : BootReach (kernelVfs (bootOps ramfsOps)) ⟨mem, zeroCtx, ramfsInit⟩ := by
    refine .mount rootPath (.init mem) fun fs hfs => ?_
    exact Or.inr (Option.some.inj hfs).symm
  have hstate := (hboot.create initrdPath true).calls
  have hmem := mkdirInitrd_mem mem
  rw [bootFiles]
  simp only
  unfold vfsMkdir at hmem ⊢
  generalize (vfsCreateNode (kernelVfs (bootOps ramfsOps)) ⟨mem, zeroCtx, ramfsInit⟩
    initrdPath.bytes true).2 = s at hstate hmem
  subst hmem
  obtain ⟨fs, hmount, hfiles⟩ := initrdMount_eq (bootOps ramfsOps) s h
  rw [hmount]
  exact ⟨_, rfl, rfl, hfiles, hstate, fun _ _ => rfl⟩

/-- **Files.** After the boot and any sequence of lines that ends, no descriptor is open,
the working directory is where the `cd` lines lead, and a line with `ls`, `cat`, `pwd` or
`cd` ends and prints exactly its answer: modules are read as they were loaded. -/
theorem file_commands {mem : Mem} {addr : Nat} {tags : List Tag} (h : InfoBlock mem addr tags)
    (hfuel : 2 ^ 32 ≤ fuel) (hkeep : KeepModules (listedModules tags) others) :
    ∃ m₀, bootFiles (ld32 mem addr) mem multiboot2BootloaderMagic addr = some m₀ ∧
      ∀ (calls : List LineCall) (m : Machine),
        calls.foldlM (fun m c => (c.run fuel others m).map (·.2)) m₀ = some m →
        let p := calls.foldl (LineCall.place (listedModules tags)) .root
        m.vfs.cwd = p.path ∧ (∀ fd ∈ m.vfs.fds, fd = none) ∧
        ∃ kids, CallsOk m.files.other kids ∧ ∀ (c : LineCall) program text,
          c.program = some program →
          answer (listedModules tags) (·.bytes mem) (direntsOf m.files.other (kids 0)) p c.argv
            program = some text →
          ∃ m', c.run fuel others m = some (text, m') ∧ m'.files = m.files ∧
            m'.vfs.cwd = (c.place (listedModules tags) p).path := by
  obtain ⟨m₀, hboot, hok₀⟩ := bootFiles_ok h
  refine ⟨m₀, hboot, fun calls m hrun => ?_⟩
  have hmods : (listedModules tags).length ≤ initrdMaxFiles := List.length_take_le _ _
  have hok := FilesOk.session hmods hfuel hkeep calls hok₀ hrun
  obtain ⟨kids, hkids⟩ := hok.ramfs.callsOk
  refine ⟨congrArg Vfs.cwd hok.vfs, fun fd hfd => ?_, kids, hkids, ?_⟩
  · rw [hok.vfs] at hfd
    exact List.eq_of_mem_replicate hfd
  · intro c program text hprogram hanswer
    exact ⟨_, hok.call hmods hfuel hkids.nodes hprogram hanswer, rfl, rfl⟩

end Sessions

/-- A line in memory. -/
def lineOf (line : CString) : LineCall where
  line := line
  src := fun i => line.bytes.getD i 0
  buf := fun _ => 0
  holds := ⟨line.noNul, fun _ hi => List.getD_eq_getElem _ _ hi,
    List.getD_eq_default _ _ le_rfl⟩

/-- Programs that print nothing. -/
def quiet : Others := fun _ _ m => some ([], m.files.mem)

/-- `cd /initrd`, and then `cat readme.txt` prints the four bytes of the module. -/
theorem file_commands_readme : ∃ m₀ m m',
    bootFiles (ld32 (oneModuleState readmeString).mem 0x8000) (oneModuleState readmeString).mem
      multiboot2BootloaderMagic 0x8000 = some m₀ ∧
    (lineOf ⟨ascii "cd /initrd", by decide⟩).run (2 ^ 32) quiet m₀ = some ([], m) ∧
    (lineOf ⟨ascii "cat readme.txt", by decide⟩).run (2 ^ 32) quiet m
      = some ([64, 0, 0, 0, 10], m') := by
  have hkeep : KeepModules (listedModules [.module 0x8000 0x8004 readmeString]) quiet := by
    intro program argv m out mem hrun mod hmod
    obtain ⟨-, rfl⟩ := Prod.mk.inj (Option.some.inj hrun)
    rfl
  obtain ⟨m₀, hboot, hsession⟩ := file_commands readme_infoBlock le_rfl hkeep
  obtain ⟨-, -, kids, -, hfirst⟩ := hsession [] m₀ rfl
  obtain ⟨m, hcd, -⟩ := hfirst (lineOf ⟨ascii "cd /initrd", by decide⟩) .appCd [] (by decide)
    (by rw [answer]; decide)
  obtain ⟨-, -, kids', -, hsecond⟩ := hsession [lineOf ⟨ascii "cd /initrd", by decide⟩] m
    (by rw [List.foldlM_cons, hcd]; rfl)
  obtain ⟨m', hcat, -⟩ := hsecond (lineOf ⟨ascii "cat readme.txt", by decide⟩) .appCat
    [64, 0, 0, 0, 10] (by decide) (by rw [answer]; decide)
  exact ⟨m₀, m, m', hboot, hcd, hcat⟩

end RoninOS.Shell
