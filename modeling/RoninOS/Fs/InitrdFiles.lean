/-
RoninOS.Fs.InitrdFiles — the boot modules read through the VFS.

After `initrd_mount_from_multiboot` a listing of `/initrd` gives the first 32
modules in tag order. A path below `/initrd` reaches the first file with the
name that `normalize_path` leaves, and a name loses the bytes that do not fit a
segment there. `initrd_readable_iff` is what follows: which block's modules can
all be opened by the names they are listed with and read back.
-/
import RoninOS.Fs.InitrdTheorems
import RoninOS.Fs.RamfsVfs

namespace RoninOS.Fs

open RoninOS.Lib RoninOS.Mem

/-- Reading `fd` until the end, with `chunk i` bytes asked for in round `i`. -/
def readToEnd {σ Ctx Node : Type} (chunk : Nat → Nat) (s : σ) (fd : Int) :
    Nat → Nat → FsVfs σ Ctx Node → Option (List UInt8)
  | 0, _, _ => none
  | rounds + 1, i, v =>
      let (rc, bytes, v) := vfsRead v s fd (chunk i)
      if rc < 0 then none
      else if rc = 0 then some []
      else (readToEnd chunk s fd rounds (i + 1) v).map (bytes ++ ·)

/-- The path opens, and reading it in chunks of any sizes gives the bytes. -/
def ReadsAs {σ Ctx Node : Type} (v : FsVfs σ Ctx Node) (s : σ) (path bytes : List UInt8) : Prop :=
  0 ≤ (vfsOpen v s path vfsORdonly).1 ∧
  ∀ chunk : Nat → Nat, (∀ i, 0 < chunk i ∧ chunk i < 2 ^ 32) →
    readToEnd chunk (vfsOpen v s path vfsORdonly).2.2 (vfsOpen v s path vfsORdonly).1
      (bytes.length + 1) 0 (vfsOpen v s path vfsORdonly).2.1 = some bytes

/-- The modules that `initrd_mount_from_multiboot` stores. -/
def listedModules (tags : List Tag) : List BootModule := (bootModules tags).take initrdMaxFiles

section Files

variable {Other Node : Type} {s : BootState Other} {mods : List BootModule}

/-! ## The table behind the operations -/

/-- The files are the modules. -/
structure FilesAre (fs : InitrdCtx) (mods : List BootModule) : Prop where
  count : fs.count = mods.length
  ok : ∀ m ∈ mods, ModuleOk m
  file : ∀ i m, mods[i]? = some m → fs.files i = m.file i

/-- Module `j` is the first with the name. -/
structure FirstNamed (mods : List BootModule) (name : List UInt8) (j : Nat) (m : BootModule) :
    Prop where
  get : mods[j]? = some m
  name_eq : m.name j = name
  first : ∀ k m', mods[k]? = some m' → k < j → m'.name k ≠ name

/-- The loop of `initrd_lookup` finds the first entry with the name. -/
theorem initrdLookupLoop_eq_some {fs : InitrdCtx} {name : List UInt8} {j : Nat} :
    ∀ {k i : Nat}, initrdLookupLoop fs name k i = some j ↔
      i ≤ j ∧ j < i + k ∧ ((fs.files j).used = true ∧ strcmp (fs.files j).name.str name = 0) ∧
      ∀ l, i ≤ l → l < j → ¬ ((fs.files l).used = true ∧ strcmp (fs.files l).name.str name = 0)
  | 0, i => by
      rw [initrdLookupLoop]
      constructor
      · intro h
        cases h
      · rintro ⟨hle, hlt, -⟩
        omega
  | k + 1, i => by
      rw [initrdLookupLoop]
      by_cases hhit : (fs.files i).used = true ∧ strcmp (fs.files i).name.str name = 0
      · rw [if_pos hhit, Option.some.injEq]
        constructor
        · rintro rfl
          exact ⟨le_rfl, by omega, hhit, fun l hle hlt => by omega⟩
        · rintro ⟨hle, -, -, hfirst⟩
          by_contra hne
          exact hfirst i le_rfl (by omega) hhit
      · rw [if_neg hhit, initrdLookupLoop_eq_some]
        constructor
        · rintro ⟨hle, hlt, hj, hfirst⟩
          refine ⟨by omega, by omega, hj, fun l hil hlj => ?_⟩
          by_cases heq : l = i
          · rw [heq]
            exact hhit
          · exact hfirst l (by omega) hlj
        · rintro ⟨hle, hlt, hj, hfirst⟩
          have hne : j ≠ i := fun heq => hhit (heq ▸ hj)
          exact ⟨by omega, by omega, hj, fun l hil hlj => hfirst l (by omega) hlj⟩

/-- The loop of `initrd_readdir` over used entries counts up to `index`. -/
theorem initrdReaddirLoop_eq {fs : InitrdCtx} {index : Nat} : ∀ {k i current : Nat},
    (∀ l, i ≤ l → l < i + k → (fs.files l).used = true) → current ≤ index →
    initrdReaddirLoop fs index k i current
      = if index < current + k then some (i + (index - current)) else none
  | 0, i, current, _, hle => by
      rw [initrdReaddirLoop, if_neg (by omega)]
  | k + 1, i, current, hused, hle => by
      rw [initrdReaddirLoop, if_neg (by rw [hused i le_rfl (by omega)]; decide)]
      by_cases heq : current = index
      · rw [if_pos heq, if_pos (by omega), heq, Nat.sub_self, Nat.add_zero]
      · rw [if_neg heq, initrdReaddirLoop_eq (fun l hil hlt => hused l (by omega) (by omega))
          (by omega)]
        by_cases hin : index < current + (k + 1)
        · rw [if_pos hin, if_pos (by omega), show i + 1 + (index - (current + 1))
            = i + (index - current) by omega]
        · rw [if_neg hin, if_neg (by omega)]

/-- `initrd_lookup` gives the first module with the name. -/
theorem FilesAre.lookup_eq (h : FilesAre s.initrd mods) {name : List UInt8} (hnul : 0 ∉ name)
    (j : Nat) : initrdLookupLoop s.initrd name s.initrd.count 0 = some j ↔
      ∃ m, FirstNamed mods name j m := by
  have hhit : ∀ i m, mods[i]? = some m →
      (((s.initrd.files i).used = true ∧ strcmp (s.initrd.files i).name.str name = 0) ↔
        m.name i = name) := by
    intro i m hm
    have hok := h.ok m (List.mem_of_getElem? hm)
    have hnul' : 0 ∉ m.name i := (baseName_spec hok.no_nul i).no_nul
    rw [h.file i m hm, m.file_name hok, strcmp_eq_zero_iff hnul' hnul]
    exact and_iff_right rfl
  rw [initrdLookupLoop_eq_some, h.count]
  constructor
  · rintro ⟨-, hlt, hj, hfirst⟩
    obtain ⟨m, hm⟩ : ∃ m, mods[j]? = some m := ⟨_, List.getElem?_eq_getElem (by omega)⟩
    exact ⟨m, hm, (hhit j m hm).mp hj, fun k m' hm' hk hname =>
      hfirst k (Nat.zero_le _) hk ((hhit k m' hm').mpr hname)⟩
  · rintro ⟨m, hm, hname, hfirst⟩
    have hlt := (List.getElem?_eq_some_iff.mp hm).1
    refine ⟨Nat.zero_le _, by omega, (hhit j m hm).mpr hname, fun l _ hl hhitl => ?_⟩
    obtain ⟨m', hm'⟩ : ∃ m', mods[l]? = some m' := ⟨_, List.getElem?_eq_getElem (by omega)⟩
    exact hfirst l m' hm' hl ((hhit l m' hm').mp hhitl)

/-- The entry of a module in a listing. -/
def moduleDirent (i : Nat) (m : BootModule) : VfsDirent where
  name := m.name i
  isDir := false
  size := m.stop - m.start

/-- `initrd_readdir` gives the modules in their order. -/
theorem FilesAre.readdir_eq (h : FilesAre s.initrd mods) (index : Nat) :
    initrdReaddir s (.root : BootNode Node) index
      = (mods.mapIdx moduleDirent)[index]?.map fun ent => (ent.name, ent.isDir, ent.size) := by
  have hused : ∀ l, 0 ≤ l → l < 0 + mods.length → (s.initrd.files l).used = true := by
    intro l _ hl
    rw [h.file l _ (List.getElem?_eq_getElem (by omega))]
    rfl
  rw [initrdReaddir, h.count, initrdReaddirLoop_eq hused (Nat.zero_le _), List.getElem?_mapIdx]
  cases hm : mods[index]? with
  | none =>
      rw [if_neg (by have := List.getElem?_eq_none_iff.mp hm; omega)]
      rfl
  | some m =>
      have hok := h.ok m (List.mem_of_getElem? hm)
      have hlt := (List.getElem?_eq_some_iff.mp hm).1
      rw [if_pos (by omega), Option.map_some, Nat.zero_add, Nat.sub_zero, h.file index m hm,
        m.file_name hok, m.file_size hok]
      rfl

/-- `initrd_read` gives the bytes of the module. -/
theorem FilesAre.read_eq (h : FilesAre s.initrd mods) {j : Nat} {m : BootModule}
    (hm : mods[j]? = some m) {offset : Nat} (hoffset : offset < (m.bytes s.mem).length) (n : Nat) :
    initrdRead s (.file j : BootNode Node) offset n
      = (intOfU32 (min ((m.bytes s.mem).length - offset) n),
          ((m.bytes s.mem).drop offset).take (min ((m.bytes s.mem).length - offset) n)) := by
  have hok := h.ok m (List.mem_of_getElem? hm)
  have hle := hok.le
  have hlt := hok.lt
  rw [m.length_bytes] at hoffset ⊢
  rw [initrdRead, h.file j m hm, m.file_size hok]
  simp only
  rw [if_neg (by omega)]
  congr 1
  refine List.ext_getElem? fun k => ?_
  rw [List.getElem?_map, List.getElem?_take]
  by_cases hk : k < min (m.stop - m.start - offset) n
  · rw [if_pos hk, List.getElem?_drop, BootModule.bytes, bytesAt, List.getElem?_map,
      List.getElem?_range hk, List.getElem?_range (by omega), Option.map_some, Option.map_some,
      show (m.file j).data = m.start from rfl, add32_of_lt (by omega)]
  · rw [if_neg hk, List.getElem?_eq_none_iff.mpr (by rw [List.length_range]; omega)]
    rfl

theorem FilesAre.read_end (h : FilesAre s.initrd mods) {j : Nat} {m : BootModule}
    (hm : mods[j]? = some m) {offset : Nat} (hoffset : (m.bytes s.mem).length ≤ offset) (n : Nat) :
    initrdRead s (.file j : BootNode Node) offset n = (0, []) := by
  have hok := h.ok m (List.mem_of_getElem? hm)
  rw [m.length_bytes] at hoffset
  rw [initrdRead, h.file j m hm, m.file_size hok]
  exact if_pos hoffset

/-! ## The mounts -/

/-- `"initrd"`. -/
def initrdSegment : List UInt8 := ascii "initrd"

theorem initrdSegment_valid : ValidSegment initrdSegment := by
  refine ⟨?_, ?_, ?_, ?_, ?_, ?_⟩ <;> decide

/-- The mount of the initrd. -/
def initrdMount : FsMount (BootState Other) Unit (BootNode Node) where
  mountpoint := render [initrdSegment]
  ops := initrdOps
  ctx := ()

/-- The VFS with both mounts. -/
def initrdVfs (rootOps : VfsFsOps (BootState Other) Unit (BootNode Node)) :
    FsVfs (BootState Other) Unit (BootNode Node) where
  mounts := [some { mountpoint := render [], ops := rootOps, ctx := () }, some initrdMount,
    none, none]
  fds := List.replicate vfsMaxFd none
  cwd := [slash]

variable (rootOps : VfsFsOps (BootState Other) Unit (BootNode Node))

theorem vfsMount_initrd :
    vfsMount (kernelVfs rootOps) initrdPath (some initrdOps) () = (0, initrdVfs rootOps) := rfl

/-- On a well-formed block the mount stores the first 32 modules. -/
theorem initrdMount_eq (s : BootState Other) {addr : Nat} {tags : List Tag}
    (h : InfoBlock s.mem addr tags) :
    ∃ fs, initrdMountFromMultiboot (ld32 s.mem addr) (kernelVfs rootOps) s multiboot2BootloaderMagic
        addr = some (initrdVfs rootOps, { s with initrd := fs }) ∧
      FilesAre fs (listedModules tags) := by
  obtain ⟨⟨fs, idx⟩, hloop, hholds⟩ := initrdLoop_holds h
  refine ⟨fs, ?_, ?_⟩
  · unfold initrdMountFromMultiboot
    rw [vfsMount_initrd]
    refine (if_neg (by decide)).trans ((if_neg (by simp [h.addr_ne_zero])).trans ?_)
    exact congrArg (Option.map _) hloop
  · refine ⟨?_, fun m hm => bootModules_ok h m (List.mem_of_mem_take hm), fun i m hm => ?_⟩
    · rw [listedModules, List.length_take, Nat.min_comm]
      exact hholds.count
    · rw [listedModules, List.getElem?_take] at hm
      split at hm
      · exact hholds.file i m hm (by assumption)
      · cases hm

theorem initrdMount_valid : ∀ c ∈ [initrdSegment], ValidSegment c := by
  intro c hc
  rw [List.mem_singleton.mp hc]
  exact initrdSegment_valid

/-- The components of a path below the initrd. -/
theorem initrdComponents_valid {rest : List (List UInt8)} (hrest : ∀ c ∈ rest, ValidSegment c) :
    ∀ c ∈ initrdSegment :: rest, ValidSegment c := by
  intro c hc
  rcases List.mem_cons.mp hc with rfl | hc
  · exact initrdSegment_valid
  · exact hrest c hc

/-- The initrd is the only mount that matches a path below it. -/
theorem onlyMatch_initrd {rest : List (List UInt8)} (hrest : ∀ c ∈ rest, ValidSegment c) :
    OnlyMatch (initrdVfs rootOps) 1 initrdMount [initrdSegment] (initrdSegment :: rest) := by
  have hcomps := initrdComponents_valid hrest
  refine ⟨⟨rfl, (startsWith_render_iff hcomps initrdMount_valid).mpr ⟨⟨rest, rfl⟩, fun h => by cases h⟩⟩, rfl, ?_⟩
  intro j m' hm' hne
  obtain ⟨hslot, hsw⟩ := hm'
  match j with
  | 0 =>
      obtain rfl := Option.some.inj (Option.some.inj hslot)
      have hroot := ((startsWith_render_iff hcomps (by simp)).mp hsw).2 rfl
      cases hroot
  | 1 => exact absurd rfl hne
  | 2 => cases hslot
  | 3 => cases hslot
  | j + 4 => cases hslot

/-- The root file system is the only mount that matches `"/"`. -/
theorem onlyMatch_root :
    OnlyMatch (initrdVfs rootOps) 0 { mountpoint := render [], ops := rootOps, ctx := () } [] [] := by
  refine ⟨⟨rfl, (startsWith_render_iff (by simp) (by simp)).mpr ⟨List.prefix_refl _, fun _ => rfl⟩⟩,
    rfl, ?_⟩
  intro j m' hm' hne
  obtain ⟨hslot, hsw⟩ := hm'
  match j with
  | 0 => exact absurd rfl hne
  | 1 =>
      obtain rfl := Option.some.inj (Option.some.inj hslot)
      have hpre := ((@startsWith_render_iff [] [initrdSegment] (by simp) initrdMount_valid).mp hsw).1
      exact absurd hpre.length_le (by decide)
  | 2 => cases hslot
  | 3 => cases hslot
  | j + 4 => cases hslot

/-! ## Opening -/

/-- Only a short list is a short list after the cut. -/
theorem take_eq_of_short {name dst : List UInt8} {k : Nat} (h : dst.length < k) :
    name.take k = dst ↔ name = dst := by
  constructor
  · intro htake
    have hlen := congrArg List.length htake
    rw [List.length_take] at hlen
    rw [← htake, List.take_of_length_le (by omega)]
  · rintro rfl
    exact List.take_of_length_le h.le

/-- `"/initrd/"` followed by a name. -/
def initrdFilePath (name : List UInt8) : List UInt8 := ascii "/initrd/" ++ name

/-- `normalize_path` of a name below `/initrd`: it keeps the bytes that fit a
segment, and `.` and `..` are no names. -/
theorem normalizePath_initrd {name : List UInt8} (h : InitrdName name) :
    normalizePath [slash] (initrdFilePath name) = some (render (
      if name = ascii "." then [initrdSegment]
      else if name = ascii ".." then []
      else [initrdSegment, name.take (vfsMaxName - 1)])) := by
  have hnul : 0 ∉ initrdFilePath name := fun h0 => by
    rcases List.mem_append.mp h0 with h0 | h0
    · exact absurd h0 (by decide)
    · exact h.no_nul h0
  have hlen : (initrdFilePath name).length < vfsMaxPath := by
    have hname := h.length_lt
    have hpre : (ascii "/initrd/").length = 8 := rfl
    simp only [initrdMaxName] at hname
    rw [initrdFilePath, List.length_append, vfsMaxPath]
    omega
  have hpath : initrdFilePath name = delimited slash [initrdSegment, name] := by
    rw [delimited_cons, delimited_cons, delimited_nil, List.append_nil]
    rfl
  have hcomps : components (initrdFilePath name) = [initrdSegment, name] := by
    rw [hpath]
    refine splitOn_delimited (fun c hc => ?_) fun c hc => ?_
    · rcases List.mem_cons.mp hc with rfl | hc
      · exact initrdSegment_valid.no_slash
      · rw [List.mem_singleton.mp hc]
        exact h.no_slash
    · rcases List.mem_cons.mp hc with rfl | hc
      · exact initrdSegment_valid.ne_nil
      · rw [List.mem_singleton.mp hc]
        exact h.ne_nil
  have hdot : name.take (vfsMaxName - 1) = ascii "." ↔ name = ascii "." :=
    take_eq_of_short (by decide)
  have hdots : name.take (vfsMaxName - 1) = ascii ".." ↔ name = ascii ".." :=
    take_eq_of_short (by decide)
  have hpush : [initrdSegment, name].foldlM pushPiece [] = some (
      if name = ascii "." then [initrdSegment]
      else if name = ascii ".." then []
      else [initrdSegment, name.take (vfsMaxName - 1)]) := by
    rw [List.foldlM_cons, pushPiece_valid initrdSegment_valid (by decide)]
    simp only [Option.bind_eq_bind, Option.bind_some, List.foldlM_cons, List.foldlM_nil,
      List.nil_append, pushPiece, hdot, hdots]
    split
    · rfl
    · split
      · rfl
      · rfl
  have hshort : (render (
      if name = ascii "." then [initrdSegment]
      else if name = ascii ".." then []
      else [initrdSegment, name.take (vfsMaxName - 1)])).length < vfsMaxPath := by
    split
    · decide
    · split
      · decide
      · have htake := List.length_take_le (vfsMaxName - 1) name
        rw [render_of_ne_nil (by simp)]
        simp only [delimited_cons, delimited_nil, List.length_cons, List.length_append,
          List.length_nil, vfsMaxPath, vfsMaxName] at htake ⊢
        have hseg : initrdSegment.length = 6 := rfl
        omega
  rw [normalizePath_eq (by decide) hnul, absolutePath_of_slash rfl hlen, Option.bind_some, hcomps,
    hpush, Option.bind_some, if_pos hshort]

/-- The walk below `/initrd`. -/
theorem resolvePath_initrd (s : BootState Other) {path : List UInt8} {rest : List (List UInt8)}
    (hnorm : normalizePath [slash] path = some (render (initrdSegment :: rest)))
    (hrest : ∀ c ∈ rest, ValidSegment c) :
    resolvePath (initrdVfs rootOps) s path
      = (descend (initrdLookup s) rest .root true).map fun (node, isDir) =>
          (initrdMount, node, isDir) := by
  exact resolvePath_eq s hnorm (onlyMatch_initrd rootOps hrest) initrdMount_valid
    (initrdComponents_valid hrest)

/-- `vfs_open` of a name below `/initrd` finds the first file with the bytes of
it that fit a segment. -/
theorem resolveFile_initrd (s : BootState Other) {name : List UInt8} (h : InitrdName name) :
    resolveFile (initrdVfs rootOps) s (initrdFilePath name)
      = if name = ascii "." ∨ name = ascii ".." then none
        else (initrdLookupLoop s.initrd (name.take (vfsMaxName - 1)) s.initrd.count 0).map
          fun j => (initrdMount, .file j) := by
  have hnorm := normalizePath_initrd h
  by_cases hdot : name = ascii "."
  · rw [if_pos hdot] at hnorm
    rw [if_pos (Or.inl hdot), resolveFile, resolvePath_initrd rootOps s hnorm (by simp)]
    rfl
  · by_cases hdots : name = ascii ".."
    · rw [if_neg hdot, if_pos hdots] at hnorm
      rw [if_pos (Or.inr hdots), resolveFile, resolvePath_eq s hnorm (onlyMatch_root rootOps)
        (by simp) (by simp)]
      unfold resolveComps
      cases rootOps.getRoot with
      | none => rfl
      | some getRoot => cases rootOps.lookup <;> rfl
    · have hvalid : ValidSegment (name.take (vfsMaxName - 1)) := by
        have hpos := List.length_pos_iff.mpr h.ne_nil
        refine ⟨fun hnil => ?_, fun hs => h.no_slash (List.mem_of_mem_take hs),
          fun h0 => h.no_nul (List.mem_of_mem_take h0), fun hd => hdot ((take_eq_of_short (by decide)).mp hd),
          fun hd => hdots ((take_eq_of_short (by decide)).mp hd), ?_⟩
        · have hlen := congrArg List.length hnil
          rw [List.length_take, List.length_nil, vfsMaxName] at hlen
          omega
        · have hlen := List.length_take_le (vfsMaxName - 1) name
          rw [vfsMaxName] at hlen ⊢
          omega
      rw [if_neg hdot, if_neg hdots] at hnorm
      rw [if_neg (by tauto), resolveFile, resolvePath_initrd rootOps s hnorm (by simpa using hvalid)]
      simp only [descend, initrdLookup]
      cases initrdLookupLoop s.initrd (name.take (vfsMaxName - 1)) s.initrd.count 0 with
      | none => rfl
      | some j => rfl

/-! ## Reading -/

/-- The VFS after `vfs_open` of file `j`, `pos` bytes into it. -/
def openedVfs (j pos : Nat) : FsVfs (BootState Other) Unit (BootNode Node) :=
  { initrdVfs rootOps with
    fds := (List.replicate vfsMaxFd none).set 0
      (some { flags := vfsORdonly, ops := initrdOps, ctx := (), node := .file j, pos }) }

theorem vfsRead_opened (s : BootState Other) (j pos n : Nat) :
    vfsRead (openedVfs rootOps j pos) s 0 n
      = ((initrdRead s (.file j : BootNode Node) pos n).1,
          (initrdRead s (.file j : BootNode Node) pos n).2,
          openedVfs rootOps j (pos + (initrdRead s (.file j : BootNode Node) pos n).1.toNat)) := by
  have hused : usedFd (openedVfs rootOps j pos) 0
      = some { flags := vfsORdonly, ops := initrdOps, ctx := (), node := .file j, pos } := rfl
  have hflag : ¬ vfsORdonly &&& vfsOWronly = vfsOWronly := by decide
  unfold vfsRead
  simp only [hused, initrdOps, if_neg hflag]
  generalize initrdRead s (.file j : BootNode Node) pos n = r
  obtain ⟨rc, bytes⟩ := r
  simp only
  unfold advanceFd
  by_cases hpos : rc > 0
  · rw [if_pos hpos]
    simp only [openedVfs, List.set_set, Int.toNat_zero]
    rfl
  · rw [if_neg hpos, Int.toNat_of_nonpos (by omega), Nat.add_zero]

/-- One round of reading. -/
theorem readToEnd_succ (h : FilesAre s.initrd mods) {j : Nat} {m : BootModule}
    (hm : mods[j]? = some m) {chunk : Nat → Nat} {rounds i pos : Nat}
    (hchunk : 0 < chunk i ∧ chunk i < 2 ^ 32) :
    readToEnd chunk s 0 (rounds + 1) i (openedVfs rootOps j pos)
      = (let can := min ((m.bytes s.mem).length - pos) (chunk i)
         if can = 0 then some []
         else if can < 2 ^ 31 then
           (readToEnd chunk s 0 rounds (i + 1) (openedVfs rootOps j (pos + can))).map
             (((m.bytes s.mem).drop pos).take can ++ ·)
         else none) := by
  rw [readToEnd, vfsRead_opened]
  by_cases hend : (m.bytes s.mem).length ≤ pos
  · have hzero : min ((m.bytes s.mem).length - pos) (chunk i) = 0 := by omega
    rw [h.read_end hm hend, hzero]
    rfl
  · have hcan : 0 < min ((m.bytes s.mem).length - pos) (chunk i) := by omega
    have hlt : min ((m.bytes s.mem).length - pos) (chunk i) < 2 ^ 32 := by omega
    rw [h.read_eq hm (by omega)]
    simp only
    generalize min ((m.bytes s.mem).length - pos) (chunk i) = can at hcan hlt
    rw [if_neg (show ¬ can = 0 by omega)]
    unfold intOfU32
    by_cases hsmall : can < 2 ^ 31
    · simp only [if_pos hsmall]
      rw [if_neg (by omega), if_neg (by omega), Int.toNat_natCast]
    · simp only [if_neg hsmall]
      rw [if_pos (by omega)]

/-- What is read to the end is the rest of the module. -/
theorem readToEnd_eq_some (h : FilesAre s.initrd mods) {j : Nat} {m : BootModule}
    (hm : mods[j]? = some m) {chunk : Nat → Nat} (hchunk : ∀ i, 0 < chunk i ∧ chunk i < 2 ^ 32) :
    ∀ {rounds i pos : Nat} {out : List UInt8},
    readToEnd chunk s 0 rounds i (openedVfs rootOps j pos) = some out →
    out = (m.bytes s.mem).drop pos
  | 0, _, _, _, hread => by cases hread
  | rounds + 1, i, pos, out, hread => by
      rw [readToEnd_succ rootOps h hm (hchunk i)] at hread
      have hpos := (hchunk i).1
      simp only at hread
      split at hread
      · rw [← Option.some.inj hread, List.drop_eq_nil_of_le (by omega)]
      · split at hread
        · obtain ⟨rest, hrest, rfl⟩ := Option.map_eq_some_iff.mp hread
          rw [readToEnd_eq_some h hm hchunk hrest, ← List.drop_drop, List.take_append_drop]
        · cases hread

/-- A module below 2^31 bytes is read to the end. -/
theorem readToEnd_eq (h : FilesAre s.initrd mods) {j : Nat} {m : BootModule}
    (hm : mods[j]? = some m) {chunk : Nat → Nat} (hchunk : ∀ i, 0 < chunk i ∧ chunk i < 2 ^ 32)
    (hsize : (m.bytes s.mem).length < 2 ^ 31) :
    ∀ {rounds i pos : Nat}, (m.bytes s.mem).length - pos < rounds →
    readToEnd chunk s 0 rounds i (openedVfs rootOps j pos) = some ((m.bytes s.mem).drop pos)
  | 0, _, _, hrounds => absurd hrounds (Nat.not_lt_zero _)
  | rounds + 1, i, pos, hrounds => by
      have hpos := (hchunk i).1
      rw [readToEnd_succ rootOps h hm (hchunk i)]
      simp only
      by_cases hend : min ((m.bytes s.mem).length - pos) (chunk i) = 0
      · rw [if_pos hend, List.drop_eq_nil_of_le (by omega)]
      · rw [if_neg hend, if_pos (by omega), readToEnd_eq h hm hchunk hsize (by omega),
          Option.map_some, ← List.drop_drop, List.take_append_drop]

theorem vfsOpen_rdonly_none {σ Ctx Node : Type} {v : FsVfs σ Ctx Node} {s : σ} {path : List UInt8}
    (h : resolveFile v s path = none) : vfsOpen v s path vfsORdonly = (-1, v, s) := by
  rw [vfsOpen, h]
  rfl

/-- What `vfs_open` and reading come to for a name below `/initrd`. -/
theorem readsAs_initrd_iff (h : FilesAre s.initrd mods) {name bytes : List UInt8}
    (hname : InitrdName name) :
    ReadsAs (initrdVfs rootOps) s (initrdFilePath name) bytes ↔
      bytes.length < 2 ^ 31 ∧ name ≠ ascii "." ∧ name ≠ ascii ".." ∧
      ∃ j m, FirstNamed mods (name.take (vfsMaxName - 1)) j m ∧ m.bytes s.mem = bytes := by
  have hnul : 0 ∉ name.take (vfsMaxName - 1) := fun h0 => hname.no_nul (List.mem_of_mem_take h0)
  have hresolve := resolveFile_initrd rootOps s hname
  have hopen : ∀ j, resolveFile (initrdVfs rootOps) s (initrdFilePath name)
      = some (initrdMount, .file j) →
      vfsOpen (initrdVfs rootOps) s (initrdFilePath name) vfsORdonly
        = (0, openedVfs rootOps j 0, s) := by
    intro j hj
    rw [vfsOpen, hj]
    rfl
  constructor
  · rintro ⟨hfd, hread⟩
    cases hfile : resolveFile (initrdVfs rootOps) s (initrdFilePath name) with
    | none =>
        rw [vfsOpen_rdonly_none hfile] at hfd
        exact absurd hfd (show ¬ (0 : Int) ≤ -1 by decide)
    | some r =>
        rw [hresolve] at hfile
        split at hfile
        · cases hfile
        · rename_i hdots
          obtain ⟨j, hj, rfl⟩ := Option.map_eq_some_iff.mp hfile
          obtain ⟨m, hm⟩ := (h.lookup_eq hnul j).mp hj
          rw [hj, if_neg hdots] at hresolve
          rw [hopen j hresolve] at hread
          have hbig := hread (fun _ => 2 ^ 32 - 1) fun i => by decide
          have hsame := readToEnd_eq_some rootOps h hm.get (fun i => by decide) hbig
          rw [List.drop_zero] at hsame
          refine ⟨?_, fun hd => hdots (Or.inl hd), fun hd => hdots (Or.inr hd), j, m, hm, hsame.symm⟩
          -- a first chunk as large as this is the whole module
          by_contra hlarge
          rw [readToEnd_succ rootOps h hm.get (by decide), ← hsame] at hbig
          simp only at hbig
          have hlt : bytes.length < 2 ^ 32 := by
            have hok := h.ok m (List.mem_of_getElem? hm.get)
            have hlen := m.length_bytes s.mem
            have hmlt := hok.lt
            rw [← hsame] at hlen
            omega
          rw [if_neg (by omega), if_neg (by omega)] at hbig
          cases hbig
  · rintro ⟨hsize, hdot, hdots, j, m, hm, rfl⟩
    rw [if_neg (by tauto), (h.lookup_eq hnul j).mpr ⟨m, hm⟩] at hresolve
    rw [ReadsAs, hopen j hresolve]
    refine ⟨le_rfl, fun chunk hchunk => ?_⟩
    exact readToEnd_eq rootOps h hm.get hchunk hsize (by omega)

/-! ## The modules of a block -/

theorem vfsListdir_initrd (h : FilesAre s.initrd mods) (hlen : mods.length ≤ initrdMaxFiles) :
    vfsListdir (initrdMaxFiles + 1) (initrdVfs rootOps) s initrdPath.bytes (fun _ => 0)
      = some (0, mods.mapIdx moduleDirent) := by
  have hresolve := @resolvePath_initrd _ _ rootOps s initrdPath.bytes [] rfl (by simp)
  unfold vfsListdir
  simp only [hresolve, descend, Option.map_some, initrdMount, initrdOps]
  rw [listdirLoop_all h.readdir_eq (Nat.zero_le _) (by rw [List.length_mapIdx]; omega)]
  rfl

/-- After `initrd_mount_from_multiboot` a listing of `/initrd` gives the first 32
modules in tag order. Each of them opens under its name there and reads back
exactly when all of them are smaller than 2^31 bytes, none is called `.` or
`..`, and the first one with the 23 bytes that a segment keeps of a name has
the same bytes. -/
theorem initrd_readable_iff (s : BootState Other) {addr : Nat} {tags : List Tag}
    (h : InfoBlock s.mem addr tags) :
    ∃ v s', initrdMountFromMultiboot (ld32 s.mem addr) (kernelVfs rootOps) s
        multiboot2BootloaderMagic addr = some (v, s') ∧
      vfsListdir (initrdMaxFiles + 1) v s' initrdPath.bytes (fun _ => 0)
        = some (0, (listedModules tags).mapIdx moduleDirent) ∧
      ((∀ (i : Nat) (m : BootModule), (listedModules tags)[i]? = some m →
          ReadsAs v s' (initrdFilePath (m.name i)) (m.bytes s.mem)) ↔
        ∀ (i : Nat) (m : BootModule), (listedModules tags)[i]? = some m →
          m.stop - m.start < 2 ^ 31 ∧ m.name i ≠ ascii "." ∧ m.name i ≠ ascii ".." ∧
          ∃ j m', FirstNamed (listedModules tags)
            ((m.name i).take (vfsMaxName - 1)) j m' ∧ m'.bytes s.mem = m.bytes s.mem) := by
  obtain ⟨fs, hmount, hfiles⟩ := initrdMount_eq rootOps s h
  have hlen : (listedModules tags).length ≤ initrdMaxFiles :=
    List.length_take_le _ _
  refine ⟨_, _, hmount, vfsListdir_initrd rootOps hfiles hlen, ?_⟩
  refine forall_congr' fun i => forall_congr' fun m => imp_congr_right fun hm => ?_
  have hname := baseName_spec (hfiles.ok m (List.mem_of_getElem? hm)).no_nul i
  rw [← m.length_bytes s.mem]
  exact readsAs_initrd_iff rootOps hfiles hname

end Files

/-! ## One module -/

/-- The info block of a module with a string of 24 bytes; the module is the
`total_size` field. -/
def oneModuleBytes (string : List UInt8) : List UInt8 :=
  [64, 0, 0, 0, 0, 0, 0, 0, 3, 0, 0, 0, 41, 0, 0, 0, 0x00, 0x80, 0, 0, 0x04, 0x80, 0, 0] ++ string ++
    [0, 0, 0, 0, 0, 0, 0, 0, 0, 0, 0, 0, 8, 0, 0, 0]

/-- A machine with that block at 0x8000 and RAMFS after `ramfs_init`. -/
def oneModuleState (string : List UInt8) : BootState RamfsTable where
  mem := memOfBytes 0x8000 (oneModuleBytes string)
  initrd := zeroCtx
  other := ramfsInit

/-- A path and an argument. -/
def readmeString : List UInt8 := ascii "/boot/readme.txt verbose"

theorem readme_infoBlock : InfoBlock (oneModuleState readmeString).mem 0x8000
    [.module 0x8000 0x8004 readmeString] where
  addr_ne_zero := by decide
  total_size := by decide
  fits := by decide
  fits_entry := by simp
  tags := ⟨⟨by decide, by decide, by decide, by decide, by decide, by decide, by decide⟩,
    show ld32 _ _ = tagTypeEnd by decide⟩

theorem initrd_readable_readme :
    ∃ v s', initrdMountFromMultiboot (ld32 (oneModuleState readmeString).mem 0x8000)
        (kernelVfs (bootOps ramfsOps)) (oneModuleState readmeString) multiboot2BootloaderMagic 0x8000
        = some (v, s') ∧
      vfsListdir (initrdMaxFiles + 1) v s' initrdPath.bytes (fun _ => 0)
        = some (0, [⟨ascii "readme.txt", false, 4⟩]) ∧
      ReadsAs v s' (ascii "/initrd/readme.txt") [64, 0, 0, 0] := by
  obtain ⟨v, s', hmount, hlist, hiff⟩ :=
    initrd_readable_iff (bootOps ramfsOps) (oneModuleState readmeString) readme_infoBlock
  have hname : BootModule.name ⟨0x8000, 0x8004, readmeString⟩ 0 = ascii "readme.txt" := by decide
  have hbytes : BootModule.bytes ⟨0x8000, 0x8004, readmeString⟩ (oneModuleState readmeString).mem
      = [64, 0, 0, 0] := by decide
  have hents : (listedModules [.module 0x8000 0x8004 readmeString]).mapIdx moduleDirent
      = [⟨ascii "readme.txt", false, 4⟩] := by decide
  have hread := hiff.mpr (fun i m hm => by
    match i with
    | 0 =>
        obtain rfl := Option.some.inj hm
        refine ⟨by decide, by decide, by decide, 0, _, ⟨rfl, by decide, ?_⟩, rfl⟩
        intro k m' _ hk
        omega
    | i + 1 => cases hm) 0 ⟨0x8000, 0x8004, readmeString⟩ rfl
  rw [hname, hbytes] at hread
  rw [hents] at hlist
  exact ⟨v, s', hmount, hlist, hread⟩

/-- A name of 24 bytes. -/
def backupString : List UInt8 := ascii "initrd-readme-backup.txt"

theorem backup_infoBlock : InfoBlock (oneModuleState backupString).mem 0x8000
    [.module 0x8000 0x8004 backupString] where
  addr_ne_zero := by decide
  total_size := by decide
  fits := by decide
  fits_entry := by simp
  tags := ⟨⟨by decide, by decide, by decide, by decide, by decide, by decide, by decide⟩,
    show ld32 _ _ = tagTypeEnd by decide⟩

/-- A file with that name is listed, and no path opens it by it. -/
theorem initrd_hides_long_name :
    ∃ v s', initrdMountFromMultiboot (ld32 (oneModuleState backupString).mem 0x8000)
        (kernelVfs (bootOps ramfsOps)) (oneModuleState backupString) multiboot2BootloaderMagic 0x8000
        = some (v, s') ∧
      vfsListdir (initrdMaxFiles + 1) v s' initrdPath.bytes (fun _ => 0)
        = some (0, [⟨backupString, false, 4⟩]) ∧
      (vfsOpen v s' (initrdFilePath backupString) vfsORdonly).1 = -1 := by
  obtain ⟨fs, hmount, hfiles⟩ :=
    initrdMount_eq (bootOps ramfsOps) (oneModuleState backupString) backup_infoBlock
  have hlist := vfsListdir_initrd (bootOps ramfsOps)
    (s := { oneModuleState backupString with initrd := fs }) hfiles (List.length_take_le _ _)
  have hname : InitrdName backupString := @baseName_spec backupString (by decide) 0
  refine ⟨_, _, hmount, hlist, ?_⟩
  -- what is looked up has 23 bytes
  have hlookup : initrdLookupLoop fs (backupString.take (vfsMaxName - 1)) fs.count 0 = none := by
    rw [Option.eq_none_iff_forall_ne_some]
    intro j hj
    obtain ⟨m, hm, hmname, -⟩ := (FilesAre.lookup_eq
      (s := { oneModuleState backupString with initrd := fs }) hfiles (by decide) j).mp hj
    match j with
    | 0 =>
        obtain rfl := Option.some.inj hm
        exact absurd hmname (by decide)
    | j + 1 => cases hm
  rw [vfsOpen_rdonly_none]
  rw [resolveFile_initrd (bootOps ramfsOps) _ hname, if_neg (by decide), hlookup]
  rfl

end RoninOS.Fs
