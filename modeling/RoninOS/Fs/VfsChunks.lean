/-
RoninOS.Fs.VfsChunks — a new file written and read back in pieces.

A file that `vfs_open` has just created is empty, and the descriptor stands at
its start. Each `vfs_write` then appends what still fits (`WriterAt.write`), so
after any chunks the file holds the first 512 bytes of all of them. The path
still leads to that file, and each `vfs_read` of a descriptor opened on it
returns the next bytes until none are left (`readLoop_eq`). `chunked_roundtrip`
puts the two together.
-/
import RoninOS.Fs.VfsOpen

namespace RoninOS.Fs

open RoninOS.Lib RoninOS.Mem

/-! ## Calls in sequence -/

section Loops

variable {σ Ctx Node : Type}

/-- `vfs_write` of each chunk in turn: the return values and the state. -/
def writeChunks (fd : Int) : List (List UInt8) → FsVfs σ Ctx Node → σ →
    List Int × FsVfs σ Ctx Node × σ
  | [], v, s => ([], v, s)
  | chunk :: chunks, v, s =>
      let (rc, v, s) := vfsWrite v s fd chunk
      let (rcs, v, s) := writeChunks fd chunks v s
      (rc :: rcs, v, s)

/-- The loop of `app_cat_main` from round `i` on, with a buffer of `sizes i`
bytes in round `i`: the bytes read and the return value that ends the loop.
`none` where the rounds run out first. -/
def readLoop (fd : Int) (s : σ) (sizes : Nat → Nat) : Nat → Nat → FsVfs σ Ctx Node →
    Option (List UInt8 × Int)
  | 0, _, _ => none
  | rounds + 1, i, v =>
      let (rc, bytes, v) := vfsRead v s fd (sizes i)
      if rc > 0 then
        (readLoop fd s sizes rounds (i + 1) v).map fun (rest, last) => (bytes ++ rest, last)
      else some ([], rc)

end Loops

/-! ## Descriptors -/

section Descriptors

variable {σ Ctx Node : Type} {v : FsVfs σ Ctx Node} {m : FsMount σ Ctx Node}

theorem length_fds_allocFd (v : FsVfs σ Ctx Node) (m : FsMount σ Ctx Node) (node : Node)
    (flags : Nat) : (allocFd v m node flags).2.fds.length = v.fds.length := by
  unfold allocFd
  cases v.fds.findIdx? Option.isNone with
  | none => rfl
  | some i => exact List.length_set

theorem length_fds_advanceFd (v : FsVfs σ Ctx Node) (fd : Int)
    (f : VfsFd (VfsFsOps σ Ctx Node) Ctx Node) (rc : Int) :
    (advanceFd v fd f rc).fds.length = v.fds.length := by
  unfold advanceFd
  split
  · exact List.length_set
  · rfl

theorem allocFd_frame (v : FsVfs σ Ctx Node) (m : FsMount σ Ctx Node) (node : Node) (flags : Nat) :
    (allocFd v m node flags).2.mounts = v.mounts ∧ (allocFd v m node flags).2.cwd = v.cwd := by
  unfold allocFd
  cases v.fds.findIdx? Option.isNone with
  | none => exact ⟨rfl, rfl⟩
  | some i => exact ⟨rfl, rfl⟩

theorem vfsClose_frame (v : FsVfs σ Ctx Node) (fd : Int) :
    (vfsClose v fd).2.mounts = v.mounts ∧ (vfsClose v fd).2.cwd = v.cwd := by
  unfold vfsClose
  cases usedFd v fd with
  | none => exact ⟨rfl, rfl⟩
  | some f => exact ⟨rfl, rfl⟩

theorem advanceFd_frame (v : FsVfs σ Ctx Node) (fd : Int)
    (f : VfsFd (VfsFsOps σ Ctx Node) Ctx Node) (rc : Int) :
    (advanceFd v fd f rc).mounts = v.mounts ∧ (advanceFd v fd f rc).cwd = v.cwd := by
  unfold advanceFd
  split <;> exact ⟨rfl, rfl⟩

theorem length_fds_vfsMount (v : FsVfs σ Ctx Node) (mountpoint : CString)
    (ops : Option (VfsFsOps σ Ctx Node)) (ctx : Ctx) :
    (vfsMount v mountpoint ops ctx).2.fds.length = v.fds.length := by
  unfold vfsMount
  cases ops with
  | none => rfl
  | some ops =>
      cases normalizePath v.cwd mountpoint.bytes with
      | none => rfl
      | some norm => cases v.mounts.findIdx? Option.isNone <;> rfl

theorem length_fds_vfsOpen (v : FsVfs σ Ctx Node) (s : σ) (path : List UInt8) (flags : Nat) :
    (vfsOpen v s path flags).2.1.fds.length = v.fds.length := by
  unfold vfsOpen
  cases resolveFile v s path with
  | some found => exact length_fds_allocFd v found.1 found.2 flags
  | none =>
      simp only
      split
      · rfl
      · split
        · rfl
        · cases resolveFile v (vfsCreate v s path).2 path with
          | none => rfl
          | some found => exact length_fds_allocFd v found.1 found.2 flags

theorem length_fds_vfsRead (v : FsVfs σ Ctx Node) (s : σ) (fd : Int) (n : Nat) :
    (vfsRead v s fd n).2.2.fds.length = v.fds.length := by
  unfold vfsRead
  cases usedFd v fd with
  | none => rfl
  | some f =>
      cases hread : f.ops.read with
      | none => simp only [hread]
      | some read =>
          simp only [hread]
          split
          · rfl
          · exact length_fds_advanceFd v fd f _

theorem length_fds_vfsWrite (v : FsVfs σ Ctx Node) (s : σ) (fd : Int) (buf : List UInt8) :
    (vfsWrite v s fd buf).2.1.fds.length = v.fds.length := by
  unfold vfsWrite
  cases usedFd v fd with
  | none => rfl
  | some f =>
      cases hwrite : f.ops.write with
      | none => simp only [hwrite]
      | some write =>
          simp only [hwrite]
          split
          · rfl
          · exact length_fds_advanceFd v fd f _

theorem length_fds_vfsClose (v : FsVfs σ Ctx Node) (fd : Int) :
    (vfsClose v fd).2.fds.length = v.fds.length := by
  unfold vfsClose
  cases usedFd v fd with
  | none => rfl
  | some f => exact List.length_set

/-- The number of a used descriptor is the place of a slot. -/
theorem usedFd_slot {fd : Int} {f : VfsFd (VfsFsOps σ Ctx Node) Ctx Node}
    (hused : usedFd v fd = some f) :
    0 ≤ fd ∧ fd < vfsMaxFd ∧ v.fds[fd.toNat]? = some (some f) := by
  unfold usedFd at hused
  split at hused
  · cases hused
  · rename_i hrange
    exact ⟨by omega, by omega, Option.join_eq_some_iff.mp hused⟩

/-- A used slot that is set is the used descriptor of that number. -/
theorem usedFd_set {fd : Int} {f : VfsFd (VfsFsOps σ Ctx Node) Ctx Node}
    (hused : usedFd v fd = some f) (g : VfsFd (VfsFsOps σ Ctx Node) Ctx Node) :
    usedFd { v with fds := v.fds.set fd.toNat (some g) } fd = some g := by
  obtain ⟨hpos, hlt, hslot⟩ := usedFd_slot hused
  have hin : fd.toNat < v.fds.length := (List.getElem?_eq_some_iff.mp hslot).1
  unfold usedFd
  rw [if_neg (by omega), List.getElem?_set_self hin]
  rfl

/-- `rc > 0` moves a descriptor, and nothing else does. -/
theorem usedFd_advanceFd {fd : Int} {f : VfsFd (VfsFsOps σ Ctx Node) Ctx Node}
    (hused : usedFd v fd = some f) (k : Nat) :
    usedFd (advanceFd v fd f k) fd = some { f with pos := f.pos + k } := by
  unfold advanceFd
  by_cases hpos : (k : Int) > 0
  · rw [if_pos hpos, Int.toNat_natCast]
    exact usedFd_set hused _
  · obtain rfl : k = 0 := by omega
    rw [if_neg hpos]
    exact hused

/-- A descriptor that `vfs_open` takes is used from then on. -/
theorem usedFd_allocFd (hlen : v.fds.length ≤ vfsMaxFd) (node : Node) (flags : Nat)
    (h : 0 ≤ (allocFd v m node flags).1) :
    usedFd (allocFd v m node flags).2 (allocFd v m node flags).1
      = some { flags, ops := m.ops, ctx := m.ctx, node, pos := 0 } := by
  unfold allocFd at h ⊢
  cases hfree : v.fds.findIdx? Option.isNone with
  | none =>
      simp only [hfree] at h
      omega
  | some i =>
      have hin : i < v.fds.length := (List.findIdx?_eq_some_iff_getElem.mp hfree).1
      unfold usedFd
      simp only [Int.toNat_natCast]
      rw [if_neg (by omega), List.getElem?_set_self hin]
      rfl

/-- Where a slot is free, a descriptor is taken. -/
theorem allocFd_nonneg (h : none ∈ v.fds) (node : Node) (flags : Nat) :
    0 ≤ (allocFd v m node flags).1 := by
  unfold allocFd
  cases hfree : v.fds.findIdx? Option.isNone with
  | none => exact absurd (List.findIdx?_eq_none_iff.mp hfree none h) (by simp)
  | some i => simp

/-- `vfs_close` frees the slot of a used descriptor. -/
theorem none_mem_vfsClose {fd : Int} {f : VfsFd (VfsFsOps σ Ctx Node) Ctx Node}
    (hused : usedFd v fd = some f) : none ∈ (vfsClose v fd).2.fds := by
  obtain ⟨-, -, hslot⟩ := usedFd_slot hused
  unfold vfsClose
  rw [hused]
  exact List.mem_set (List.getElem?_eq_some_iff.mp hslot).1 none

end Descriptors

/-! ## Looking a path up again -/

theorem findChildLoop_congr {t t' : RamfsTable} (hlinks : ∀ i, SameLinks (t' i) (t i))
    (name : List UInt8) (rounds : Nat) (child : Int) :
    findChildLoop t' name rounds child = findChildLoop t name rounds child := by
  induction rounds generalizing child with
  | zero => rfl
  | succ rounds ih =>
      rw [findChildLoop, findChildLoop, (hlinks _).nameStr, (hlinks _).nextSibling]
      simp only [ih]

/-- `fs_lookup` reads links and names only. -/
theorem fsLookup_congr {t t' : RamfsTable} (hlinks : ∀ i, SameLinks (t' i) (t i)) (dir : Nat)
    (name : List UInt8) : fsLookup t' dir name = fsLookup t dir name := by
  have hfind : nodeFindChild t' dir name = nodeFindChild t dir name := by
    rw [nodeFindChild, nodeFindChild, (hlinks dir).firstChild, findChildLoop_congr hlinks]
  have hdir : notDir t' dir ↔ notDir t dir := by rw [notDir, notDir, (hlinks dir).isDir]
  unfold fsLookup
  by_cases hno : notDir t dir
  · rw [if_pos hno, if_pos (hdir.mpr hno)]
  · rw [if_neg hno, if_neg (mt hdir.mp hno), hfind]
    simp only [(hlinks _).isDir]

section Boot

variable {v v' : BootVfs} {s s' : BootState RamfsTable} {kids : Nat → List Nat}
  {m : FsMount (BootState RamfsTable) Unit (BootNode Nat)}

/-- A path leads to the same file as long as mounts, working directory, links
and names stay. -/
theorem VfsOk.resolveFile_congr (hv : VfsOk v) (hmounts : v'.mounts = v.mounts)
    (hcwd : v'.cwd = v.cwd) (hinitrd : s'.initrd = s.initrd)
    (hlinks : ∀ i, SameLinks (s'.other i) (s.other i)) (path : List UInt8) :
    resolveFile v' s' path = resolveFile v s path := by
  have hmount : ∀ m, some m ∈ v.mounts → ∀ subpath,
      resolveOnMount s' m subpath = resolveOnMount s m subpath := by
    intro m hm subpath
    unfold resolveOnMount
    have hlookup : (initrdLookup s' : BootNode Nat → List UInt8 → Option (BootNode Nat × Bool)) =
        initrdLookup s := by
      funext dir name
      unfold initrdLookup
      rw [hinitrd]
    rcases hv.mounts m hm with hops | hops
    · simp only [hops, initrdOps, hlookup]
    · simp only [hops, bootOps, ramfsOps, Option.map_some, fsLookup_congr hlinks]
  have hpath : resolvePath v' s' path = resolvePath v s path := by
    unfold resolvePath
    rw [hmounts, hcwd]
    cases normalizePath v.cwd path with
    | none => rfl
    | some norm =>
        cases hfind : findMount v.mounts norm with
        | none => simp only [hfind]
        | some r =>
            obtain ⟨m, hm, -⟩ := @findMount_eq_some _ _ _ _ r.2 r.1 hfind
            simp only [hfind, hm.1, hmount m (List.mem_of_getElem? hm.1)]
  unfold resolveFile
  rw [hpath]

/-- No call gives `g_fds` another length. -/
theorem BootReach.length_fds (h : BootReach v s) : v.fds.length = vfsMaxFd := by
  induction h with
  | init mem => exact List.length_replicate
  | @mount v s mountpoint ops _ _ ih =>
      rw [length_fds_vfsMount]
      exact ih
  | initrd _ hinitrd ih =>
      obtain ⟨rfl, -⟩ := initrdMount_cases hinitrd
      rw [length_fds_vfsMount]
      exact ih
  | create path isDir _ ih => exact ih
  | «open» path flags _ ih => rw [length_fds_vfsOpen, ih]
  | read fd n _ ih => rw [length_fds_vfsRead, ih]
  | write fd buf _ ih => rw [length_fds_vfsWrite, ih]
  | close fd _ ih => rw [length_fds_vfsClose, ih]
  | chdir path _ ih =>
      rw [vfsChdir_fds]
      exact ih
  | legacy _ _ ih => exact ih

/-! ## The new file -/

/-- `vfs_open` of a path that leads to no file opens one that it has created. -/
theorem VfsOk.vfsOpen_new (hv : VfsOk v) (h : NodesOk s.other kids) (path : CString) {flags : Nat}
    {fd : Int} {v₁ : BootVfs} {s₁ : BootState RamfsTable}
    (hnew : resolveFile v s path.bytes = none)
    (hopen : Fs.vfsOpen v s path.bytes flags = (fd, v₁, s₁)) (hfd : 0 ≤ fd) :
    ∃ m idx, m.ops = bootOps ramfsOps ∧ resolveFile v s₁ path.bytes = some (m, .other idx) ∧
      Fs.allocFd v m (.other idx) flags = (fd, v₁) ∧ (s₁.other idx).isDir = false ∧
      (s₁.other idx).size = 0 := by
  have houtcome : VfsCreateOutcome v s kids path.bytes false (vfsCreate v s path.bytes) :=
    hv.create_outcome h path false
  unfold Fs.vfsOpen at hopen
  rw [hnew] at hopen
  simp only at hopen
  by_cases hcreate : flags &&& vfsOCreate = 0
  · rw [if_pos hcreate] at hopen
    obtain rfl := (Prod.mk.inj hopen).1
    exact absurd hfd (by decide)
  · rw [if_neg hcreate] at hopen
    generalize vfsCreate v s path.bytes = r at houtcome hopen
    cases houtcome with
    | refused _ hrc =>
        rw [if_pos hrc] at hopen
        obtain rfl := (Prod.mk.inj hopen).1
        exact absurd hfd (by decide)
    | @made m ps dir idx leaf copied _ hwalk hdir hall hstr hfree hnode =>
        have hne : idx ≠ dir := (ne_of_free hdir.1 hfree).symm
        simp only at hopen
        rw [if_neg (by decide)] at hopen
        by_cases hhidden : HiddenPath v (render (ps ++ [leaf]))
        · rw [resolveFile_hidden hv.table hwalk.valid hwalk.norm hhidden] at hopen
          obtain rfl := (Prod.mk.inj hopen).1
          exact absurd hfd (by decide)
        · have hres := hwalk.resolveFile_created hv h hdir hstr hfree hnode hhidden
          simp only [hres, Prod.mk.injEq] at hopen
          obtain ⟨rfl, rfl, rfl⟩ := hopen
          refine ⟨m, idx, hwalk.ops, hres, rfl, ?_, ?_⟩
          · simp only [linkNew_self hne]
            rfl
          · simp only [linkNew_self hne]
            rfl

/-- `fd` has written `bytes` to the file `idx`, which was empty, and nothing
else has happened since `v₁` and `s₁`. -/
structure WriterAt (v₁ : BootVfs) (s₁ : BootState RamfsTable) (fd : Int) (flags idx : Nat)
    (bytes : List UInt8) (v : BootVfs) (s : BootState RamfsTable) : Prop where
  mounts : v.mounts = v₁.mounts
  cwd : v.cwd = v₁.cwd
  initrd : s.initrd = s₁.initrd
  links : ∀ i, SameLinks (s.other i) (s₁.other i)
  length : v.fds.length = v₁.fds.length
  used : usedFd v fd = some
    { flags, ops := bootOps ramfsOps, ctx := (), node := .other idx, pos := bytes.length }
  file : (s.other idx).isDir = false
  size : (s.other idx).size = bytes.length
  contents : Fs.contents (s.other idx) = bytes
  length_le : bytes.length ≤ ramfsMaxContent

section Writing

variable {v₁ : BootVfs} {s₁ : BootState RamfsTable} {fd : Int} {flags idx : Nat}
  {bytes : List UInt8}

/-- `vfs_write` appends the bytes that fit. -/
theorem WriterAt.write (h : WriterAt v₁ s₁ fd flags idx bytes v s)
    (hflags : flags &&& vfsOWronly ≠ 0) (chunk : List UInt8) :
    (vfsWrite v s fd chunk).1 = ((chunk.take (ramfsMaxContent - bytes.length)).length : Int) ∧
    WriterAt v₁ s₁ fd flags idx (bytes ++ chunk.take (ramfsMaxContent - bytes.length))
      (vfsWrite v s fd chunk).2.1 (vfsWrite v s fd chunk).2.2 := by
  have hfit : bytes.length + (chunk.take (ramfsMaxContent - bytes.length)).length
      ≤ ramfsMaxContent := by
    have hle := h.length_le
    rw [List.length_take]
    omega
  have hwrite : vfsWrite v s fd chunk
      = (((chunk.take (ramfsMaxContent - bytes.length)).length : Int),
        advanceFd v fd
          { flags, ops := bootOps ramfsOps, ctx := (), node := .other idx, pos := bytes.length }
          ((chunk.take (ramfsMaxContent - bytes.length)).length : Int),
        { s with other := Function.update s.other idx (writeBytes (s.other idx) bytes.length
          (chunk.take (ramfsMaxContent - bytes.length))) }) := by
    unfold vfsWrite
    rw [h.used]
    simp only [bootOps, ramfsOps, Option.map_some]
    rw [if_neg fun hno => hflags hno.1, fsWrite_eq_update h.file, h.size, Nat.min_self]
  rw [hwrite]
  generalize chunk.take (ramfsMaxContent - bytes.length) = put at hfit
  have hnode := writeBytes_links (s.other idx) bytes.length put
  have hlast : (writeBytes (s.other idx) bytes.length put).size = (bytes ++ put).length := by
    rw [List.length_append]
    exact Nat.max_eq_right (by rw [h.size]; omega)
  refine ⟨rfl, ⟨?_, ?_, h.initrd, fun i => ?_, ?_, ?_, ?_, ?_, ?_, ?_⟩⟩
  · rw [(advanceFd_frame ..).1]
    exact h.mounts
  · rw [(advanceFd_frame ..).2]
    exact h.cwd
  · by_cases hi : i = idx
    · simp only [hi, Function.update_self]
      exact hnode.trans (h.links idx)
    · simp only [Function.update_of_ne hi]
      exact h.links i
  · rw [length_fds_advanceFd]
    exact h.length
  · rw [usedFd_advanceFd h.used, List.length_append]
  · simp only [Function.update_self]
    rw [hnode.isDir]
    exact h.file
  · simp only [Function.update_self]
    exact hlast
  · simp only [Function.update_self]
    rw [contents_writeBytes (by rw [h.size]) hfit, h.contents, List.take_length,
      List.drop_of_length_le (by omega), List.append_nil]
  · rw [List.length_append]
    exact hfit

/-- Chunks written in turn: the file holds what fits of them all. -/
theorem WriterAt.writeChunks (hflags : flags &&& vfsOWronly ≠ 0) (chunks : List (List UInt8)) :
    ∀ {bytes : List UInt8} {v : BootVfs} {s : BootState RamfsTable},
    WriterAt v₁ s₁ fd flags idx bytes v s →
    (writeChunks fd chunks v s).1.sum
      = (((bytes ++ chunks.flatten).take ramfsMaxContent).length : Int) - bytes.length ∧
    WriterAt v₁ s₁ fd flags idx ((bytes ++ chunks.flatten).take ramfsMaxContent)
      (writeChunks fd chunks v s).2.1 (writeChunks fd chunks v s).2.2 := by
  induction chunks with
  | nil =>
      intro bytes v s h
      rw [List.flatten_nil, List.append_nil, List.take_of_length_le h.length_le]
      exact ⟨by simp [Fs.writeChunks], h⟩
  | cons chunk chunks ih =>
      intro bytes v s h
      obtain ⟨hrc, hnext⟩ := h.write hflags chunk
      obtain ⟨hsum, hlast⟩ := ih hnext
      -- what the first chunk leaves out, the others do not get in either
      have htake : (bytes ++ chunk.take (ramfsMaxContent - bytes.length) ++ chunks.flatten).take
          ramfsMaxContent = (bytes ++ (chunk :: chunks).flatten).take ramfsMaxContent := by
        have hle := h.length_le
        rw [List.flatten_cons, ← List.append_assoc bytes]
        by_cases hfits : chunk.length ≤ ramfsMaxContent - bytes.length
        · rw [List.take_of_length_le hfits]
        · rw [List.take_left' (by rw [List.length_append, List.length_take]; omega),
            List.take_append_of_le_length (by rw [List.length_append]; omega), List.take_append,
            List.take_of_length_le hle]
      rw [htake] at hsum hlast
      refine ⟨?_, hlast⟩
      simp only [Fs.writeChunks, List.sum_cons, hrc, hsum, List.length_append]
      omega

end Writing

/-! ## Reading back -/

/-- `vfs_read` of a file opened `VFS_O_RDONLY` returns the next bytes. -/
theorem vfsRead_next {rd : Int} {idx pos : Nat} (hfile : (s.other idx).isDir = false)
    (hsize : (s.other idx).size ≤ ramfsMaxContent) (hused : usedFd v rd = some
      { flags := vfsORdonly, ops := bootOps ramfsOps, ctx := (), node := .other idx, pos })
    (n : Nat) :
    let bytes := ((contents (s.other idx)).drop pos).take n
    vfsRead v s rd n = ((bytes.length : Int), bytes, advanceFd v rd
      { flags := vfsORdonly, ops := bootOps ramfsOps, ctx := (), node := .other idx, pos }
      (bytes.length : Int)) := by
  intro bytes
  unfold Fs.vfsRead
  rw [hused]
  simp only [bootOps, ramfsOps, Option.map_some]
  rw [if_neg (by decide), fsRead_eq hfile hsize]

/-- The loop of `app_cat_main` on a file gets the bytes from the position on,
whatever the sizes of its reads. -/
theorem readLoop_eq {rd : Int} {idx : Nat} (hfile : (s.other idx).isDir = false)
    (hsize : (s.other idx).size ≤ ramfsMaxContent) {sizes : Nat → Nat} (hpos : ∀ i, 0 < sizes i)
    (rounds : Nat) : ∀ {i pos : Nat} {v : BootVfs}, usedFd v rd = some
      { flags := vfsORdonly, ops := bootOps ramfsOps, ctx := (), node := .other idx, pos } →
    pos ≤ (s.other idx).size → (s.other idx).size < pos + rounds →
    readLoop rd s sizes rounds i v = some ((contents (s.other idx)).drop pos, 0) := by
  have hlen := length_contents hsize
  induction rounds with
  | zero => exact fun _ hle hlt => absurd hlt (by omega)
  | succ rounds ih =>
      intro i pos v hused hle hlt
      have hread := vfsRead_next hfile hsize hused (sizes i)
      simp only at hread
      have hcount : (((contents (s.other idx)).drop pos).take (sizes i)).length
          = min (sizes i) ((s.other idx).size - pos) := by
        rw [List.length_take, List.length_drop, hlen]
      have hsplit := List.prefix_append_drop
        (List.take_prefix (sizes i) ((contents (s.other idx)).drop pos))
      rw [List.drop_drop] at hsplit
      rw [readLoop, hread]
      simp only
      by_cases hend : pos = (s.other idx).size
      · rw [if_neg (by omega), List.drop_of_length_le (by omega)]
        simp
      · have hsome := hpos i
        have hnext : usedFd (advanceFd v rd _ _) rd = some { pos := pos + _, .. } :=
          usedFd_advanceFd hused (((contents (s.other idx)).drop pos).take (sizes i)).length
        rw [if_pos (by omega), ih hnext (by omega) (by omega), Option.map_some, ← hsplit]

/-- **Chunking does not matter**: a file that `vfs_open` creates and that is
written in any chunks holds the first 512 bytes of them all, the return values
of the writes say how many, and a descriptor opened on the file afterwards reads
just these, with reads of any positive sizes, until `vfs_read` returns 0. -/
theorem chunked_roundtrip (h : BootReach v s) (path : CString) {fd : Int} {v₁ : BootVfs}
    {s₁ : BootState RamfsTable} (hnew : resolveFile v s path.bytes = none)
    (hopen : Fs.vfsOpen v s path.bytes (vfsOWronly ||| vfsOCreate) = (fd, v₁, s₁)) (hfd : 0 ≤ fd)
    (chunks : List (List UInt8)) (closed : Bool) :
    let bytes := chunks.flatten.take ramfsMaxContent
    let written := writeChunks fd chunks v₁ s₁
    let v₂ := if closed then (Fs.vfsClose written.2.1 fd).2 else written.2.1
    let reader := Fs.vfsOpen v₂ written.2.2 path.bytes vfsORdonly
    written.1.sum = bytes.length ∧ (closed = true → 0 ≤ reader.1) ∧
    (0 ≤ reader.1 → ∀ sizes : Nat → Nat, (∀ i, 0 < sizes i) → ∀ rounds, bytes.length < rounds →
      readLoop reader.1 reader.2.2 sizes rounds 0 reader.2.1 = some (bytes, 0)) := by
  intro bytes written v₂ reader
  obtain ⟨hv, kids, hok⟩ := h.ok
  obtain ⟨m, idx, hops, hres, halloc, hfile, hsize⟩ := hv.vfsOpen_new hok path hnew hopen hfd
  obtain ⟨hmounts, hcwd⟩ := allocFd_frame v m (.other idx) (vfsOWronly ||| vfsOCreate)
  have hlen := length_fds_allocFd v m (.other idx) (vfsOWronly ||| vfsOCreate)
  have hused := usedFd_allocFd (m := m) h.length_fds.le (.other idx) (vfsOWronly ||| vfsOCreate)
    (by rw [halloc]; exact hfd)
  rw [halloc] at hmounts hcwd hlen hused
  simp only [hops] at hused hmounts hcwd hlen
  have hstart : WriterAt v₁ s₁ fd (vfsOWronly ||| vfsOCreate) idx [] v₁ s₁ :=
    ⟨rfl, rfl, rfl, fun i => .refl _, rfl, hused, hfile, hsize, by rw [contents, hsize]; rfl,
      Nat.zero_le _⟩
  obtain ⟨hsum, hlast⟩ := hstart.writeChunks (by decide) chunks
  rw [List.nil_append] at hsum hlast
  -- closing the writer or not, the path leads to the file and the slots are as many
  have hmounts₂ : v₂.mounts = v.mounts ∧ v₂.cwd = v.cwd ∧ v₂.fds.length = vfsMaxFd := by
    have hcount : v₁.fds.length = vfsMaxFd := hlen.trans h.length_fds
    cases closed with
    | false => exact ⟨hlast.mounts.trans hmounts, hlast.cwd.trans hcwd, hlast.length.trans hcount⟩
    | true =>
        obtain ⟨hm, hc⟩ := vfsClose_frame written.2.1 fd
        exact ⟨hm.trans (hlast.mounts.trans hmounts), hc.trans (hlast.cwd.trans hcwd),
          (length_fds_vfsClose ..).trans (hlast.length.trans hcount)⟩
  have hagain : resolveFile v₂ written.2.2 path.bytes = some (m, .other idx) := by
    rw [hv.resolveFile_congr hmounts₂.1 hmounts₂.2.1 hlast.initrd hlast.links]
    exact hres
  have hreader : reader = ((Fs.allocFd v₂ m (.other idx) vfsORdonly).1,
      (Fs.allocFd v₂ m (.other idx) vfsORdonly).2, written.2.2) := by
    simp only [reader, Fs.vfsOpen, hagain]
  refine ⟨by rw [hsum]; simp [bytes], fun hclosed => ?_, fun hrd sizes hpos rounds hrounds => ?_⟩
  · rw [hreader]
    refine allocFd_nonneg ?_ _ _
    simp only [v₂, hclosed, if_true]
    exact none_mem_vfsClose hlast.used
  · rw [hreader] at hrd ⊢
    have hopened := usedFd_allocFd hmounts₂.2.2.le _ _ hrd
    rw [hops] at hopened
    have hread := readLoop_eq hlast.file (hlast.size ▸ hlast.length_le) hpos rounds (i := 0)
      hopened (Nat.zero_le _) (by rw [hlast.size, Nat.zero_add]; exact hrounds)
    rw [hread, hlast.contents]
    rfl

end Boot

/-- RAMFS on `/r`. -/
def vfsAtR : BootVfs := (vfsMount vfsInit mountR (some (bootOps ramfsOps)) ()).2

theorem vfsAtR_reach : BootReach vfsAtR bootState :=
  .mount mountR (.init _) fun _ hfs => Or.inr (Option.some.inj hfs).symm

/-- `/r/f` written in three chunks and read with a buffer of two bytes. -/
theorem chunked_roundtrip_abc :
    let start := vfsOpen vfsAtR bootState fileF.bytes (vfsOWronly ||| vfsOCreate)
    let written := writeChunks start.1 [ascii "ab", [], ascii "c"] start.2.1 start.2.2
    let reader := vfsOpen (vfsClose written.2.1 start.1).2 written.2.2 fileF.bytes vfsORdonly
    written.1.sum = 3 ∧
      readLoop reader.1 reader.2.2 (fun _ => 2) 4 0 reader.2.1 = some (ascii "abc", 0) := by
  intro start written reader
  have hnew : resolveFile vfsAtR bootState fileF.bytes = none := rfl
  have hbytes : [ascii "ab", [], ascii "c"].flatten.take ramfsMaxContent = ascii "abc" := by decide
  have hopen : vfsOpen vfsAtR bootState fileF.bytes (vfsOWronly ||| vfsOCreate)
      = (start.1, start.2.1, start.2.2) := rfl
  have hall := chunked_roundtrip vfsAtR_reach fileF hnew hopen (by decide +kernel)
    [ascii "ab", [], ascii "c"] true
  simp only [hbytes, if_true] at hall
  obtain ⟨hsum, hopened, hread⟩ := hall
  exact ⟨hsum, hread (hopened trivial) (fun _ => 2) (fun _ => Nat.two_pos) 4 (by decide)⟩

end RoninOS.Fs
