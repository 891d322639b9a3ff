/-
RoninOS.Fs.RamfsStrings — `ramfs_read` and `vfs_read` on one file.

`ramfs_read` hands out `data` as a C string and `vfs_read` returns the first
`size` bytes of it. The two agree as long as a NUL follows the contents, which
`ramfs_write` sees to and `vfs_write` does not. `sameReads_iff`: over runs with
no NUL written, they agree exactly where each `vfs_write` on a file of the root
directory stays within the file or ends right before a NUL of `data`.
-/
import RoninOS.Fs.RamfsShared
import RoninOS.Lib.Runs

namespace RoninOS.Fs

open RoninOS.Lib

/-! ## What agrees -/

/-- The bytes a call writes have no NUL; the text of `ramfs_write` is a string. -/
def WritesNoNul : SharedOp → Prop
  | .vfs (.write _ buf) => 0 ∉ buf
  | _ => True

/-- A file of the root directory. -/
def InRootDir (t : RamfsTable) (i : Nat) : Prop := Lists t 0 i ∧ (t i).isDir = false

/-- The string at `data` is the first `size` bytes of it, for every file that
`ramfs_read` finds, and `vfs_read` returns bytes of that string. -/
structure SameReads (s : RamfsVfs × RamfsTable) : Prop where
  string : ∀ (name : CString) (data : Buffer ramfsMaxContent) (size : Nat),
    ramfsRead s.2 name.bytes = some (data, size) →
    size ≤ ramfsMaxContent - 1 ∧ data.bytes.getD size 0 = 0 ∧ data.str = data.bytes.take size
  reads : ∀ (name : CString) (data : Buffer ramfsMaxContent) (size : Nat),
    ramfsRead s.2 name.bytes = some (data, size) →
    ∀ fd f n, usedFd s.1 fd = some f → nodeFindChild s.2 0 name.bytes = (f.node : Int) →
      f.flags &&& vfsOWronly ≠ vfsOWronly →
      (vfsRead s.1 s.2 fd n).2.1 = (data.str.drop f.pos).take n

/-- A `vfs_write` on a file of the root directory is refused, stays within the
file, or ends right before a NUL. -/
def TextSafe (s : RamfsVfs × RamfsTable) : SharedOp → Prop
  | .vfs (.write fd buf) => ∀ f, usedFd s.1 fd = some f → InRootDir s.2 f.node →
      (f.flags &&& vfsOWronly = 0 ∧ f.flags &&& vfsORdwr ≠ vfsORdwr) ∨
      let node := s.2 f.node
      let off := min f.pos node.size
      let last := off + min (ramfsMaxContent - off) buf.length
      last ≤ node.size ∨ (last ≤ ramfsMaxContent - 1 ∧ node.data.bytes.getD last 0 = 0)
  | _ => True

/-- Every call of a run is defined, and the reads agree in every state. -/
def AllSameReads : List SharedOp → RamfsVfs × RamfsTable → Prop
  | [], s => SameReads s
  | op :: ops, s => SameReads s ∧ ∃ s', sharedNext s op = some s' ∧ AllSameReads ops s'

/-- Every `vfs_write` of a run keeps the texts. -/
def AllTextSafe : List SharedOp → RamfsVfs × RamfsTable → Prop
  | [], _ => True
  | op :: ops, s => TextSafe s op ∧ ∀ s', sharedNext s op = some s' → AllTextSafe ops s'

/-! ## Texts -/

section Texts

variable {t t' : RamfsTable} {kids kids' : Nat → List Nat}

/-- Bytes put into a text leave a text exactly where they stay within it or end
right before a NUL. -/
theorem writeBytes_isText_iff {node : RamfsNode} (h : IsText node) {off : Nat}
    {bytes : List UInt8} (hoff : off ≤ node.size) (hfit : off + bytes.length ≤ ramfsMaxContent)
    (hnul : 0 ∉ bytes) :
    IsText (writeBytes node off bytes) ↔
      off + bytes.length ≤ node.size ∨
      (off + bytes.length ≤ ramfsMaxContent - 1 ∧
        node.data.bytes.getD (off + bytes.length) 0 = 0) := by
  have hcap : ramfsMaxContent - 1 < ramfsMaxContent := by decide
  have hsize := h.size_lt
  have hstay : 0 ∉ contents (writeBytes node off bytes) := by
    rw [contents_writeBytes hoff hfit, List.mem_append, List.mem_append, not_or, not_or]
    exact ⟨⟨fun h0 => h.no_nul (List.mem_of_mem_take h0), hnul⟩,
      fun h0 => h.no_nul (List.mem_of_mem_drop h0)⟩
  have hafter : ∀ k, off + bytes.length ≤ k →
      (node.data.write off bytes).bytes.getD k 0 = node.data.bytes.getD k 0 :=
    fun k hk => node.data.getD_write_of_le hfit hk
  by_cases hin : off + bytes.length ≤ node.size
  · have hmax : (writeBytes node off bytes).size = node.size := Nat.max_eq_left hin
    refine iff_of_true ⟨by rw [hmax]; exact hsize, hstay, ?_⟩ (Or.inl hin)
    rw [hmax]
    exact (hafter _ hin).trans h.ends
  · have hmax : (writeBytes node off bytes).size = off + bytes.length :=
      Nat.max_eq_right (by omega)
    constructor
    · intro htext
      have hlt := htext.size_lt
      have hends := htext.ends
      rw [hmax] at hlt hends
      exact Or.inr ⟨by omega, (hafter _ le_rfl).symm.trans hends⟩
    · intro hor
      obtain ⟨hle, hzero⟩ := hor.resolve_left hin
      refine ⟨by rw [hmax]; omega, hstay, ?_⟩
      rw [hmax]
      exact (hafter _ le_rfl).trans hzero

/-- What `ramfs_write` puts into a text is a text. -/
theorem IsText.writeText {node node' : RamfsNode} (h : IsText node) {text : List UInt8}
    (hnul : 0 ∉ text) {append : Bool}
    (hwrite : Fs.writeText node text (if append then node.size else 0) = some node') :
    IsText node' := by
  have hoff : (if append = true then node.size else 0) ≤ node.size := by
    split <;> omega
  obtain ⟨node₁, heq, htext, -⟩ := writeText_spec h hoff hnul
  rw [hwrite] at heq
  rw [Option.some.inj heq]
  exact htext

theorem newNode_isText (name : Buffer ramfsMaxName) (isDir : Bool) (dir : Nat) (next : Int) :
    IsText (newNode name isDir dir next) := .empty rfl rfl

/-- A node made in a good table is empty. -/
theorem MakesNode.size_lt {mayName : List UInt8 → Bool → Prop} (h : NodesOk t kids)
    (hmakes : MakesNode t kids mayName t' kids')
    (hroom : ∀ c ∈ kids 0, (t c).size < ramfsMaxContent) :
    ∀ c ∈ kids' 0, (t' c).size < ramfsMaxContent := by
  intro c hc
  rcases hmakes.node_cases ((hmakes.nodesOk h).child 0 c hc).1 with
    ⟨hused, heq⟩ | ⟨-, name, isDir, dir, next, -, heq⟩
  · rw [heq]
    exact hroom c (hmakes.mem_kids hc hused)
  · rw [heq]
    exact show 0 < ramfsMaxContent by decide

/-- A node made in a good table leaves the root directory with texts. -/
theorem MakesNode.texts {mayName : List UInt8 → Bool → Prop} (h : NodesOk t kids)
    (hmakes : MakesNode t kids mayName t' kids') (htexts : ∀ c ∈ kids 0, IsText (t c)) :
    ∀ c ∈ kids' 0, IsText (t' c) := by
  intro c hc
  rcases hmakes.node_cases ((hmakes.nodesOk h).child 0 c hc).1 with
    ⟨hused, heq⟩ | ⟨-, name, isDir, dir, next, -, heq⟩
  · have htext := htexts c (hmakes.mem_kids hc hused)
    rw [heq]
    exact ⟨htext.size_lt, htext.no_nul, htext.ends⟩
  · rw [heq]
    exact newNode_isText name isDir dir next

end Texts

section Reads

variable {ms : List (List UInt8)} {v v' : RamfsVfs} {t t' : RamfsTable} {kids kids' : Nat → List Nat}
  {op : SharedOp}

theorem NodesOk.inRootDir_iff (h : NodesOk t kids) {i : Nat} :
    InRootDir t i ↔ i ∈ kids 0 ∧ (t i).isDir = false := by
  rw [InRootDir, h.lists_iff h.root]

/-- `ramfs_read` finds the files of the root directory. -/
theorem NodesOk.ramfsRead_cases (h : NodesOk t kids) (name : CString) :
    (ramfsRead t name.bytes = none) ∨
    ∃ c ∈ kids 0, (t c).isDir = false ∧ nodeFindChild t 0 name.bytes = (c : Int) ∧
      ramfsRead t name.bytes = some ((t c).data, (t c).size) := by
  unfold ramfsRead
  rcases h.find_cases h.root name.noNul with ⟨hfind, -⟩ | ⟨c, hc, -, hfind⟩
  · rw [hfind]
    exact Or.inl rfl
  · rw [hfind]
    simp only [Int.toNat_natCast, if_neg (show ¬ (c : Int) < 0 by omega)]
    cases hdir : (t c).isDir with
    | true => exact Or.inl rfl
    | false => exact Or.inr ⟨c, hc, hdir, rfl, rfl⟩

/-- The reads agree exactly where the files of the root directory are texts. -/
theorem SharedOk.readsAgree_iff (h : SharedOk ms (v, t) kids) :
    SameReads (v, t) ↔ ∀ c ∈ kids 0, (t c).isDir = false → IsText (t c) := by
  have hnodes : NodesOk t kids := h.nodes
  constructor
  · intro hsame c hc hfile
    have hread : ramfsRead t (t c).nameStr = some ((t c).data, (t c).size) := by
      unfold ramfsRead
      rw [hnodes.find_eq hc]
      simp only [Int.toNat_natCast, if_neg (show ¬ (c : Int) < 0 by omega), hfile]
      rfl
    obtain ⟨hle, hends, hstr⟩ := hsame.string ⟨(t c).nameStr, (t c).no_nul_nameStr⟩ _ _ hread
    have hcap : ramfsMaxContent - 1 < ramfsMaxContent := by decide
    refine ⟨by omega, ?_, hends⟩
    rw [contents, ← hstr]
    exact (t c).data.no_nul_str
  · intro htexts
    refine ⟨fun name data size hread => ?_, fun name data size hread fd f n hused hfind hserve => ?_⟩
    · rcases hnodes.ramfsRead_cases name with hnone | ⟨c, hc, hfile, -, hsome⟩
      · rw [hnone] at hread
        cases hread
      · rw [hsome, Option.some.injEq, Prod.mk.injEq] at hread
        obtain ⟨rfl, rfl⟩ := hread
        have htext := htexts c hc hfile
        exact ⟨Nat.le_sub_one_of_lt htext.size_lt, htext.ends, htext.str_data⟩
    · rcases hnodes.ramfsRead_cases name with hnone | ⟨c, hc, hfile, hfind', hsome⟩
      · rw [hnone] at hread
        cases hread
      · rw [hsome, Option.some.injEq, Prod.mk.injEq] at hread
        obtain ⟨rfl, rfl⟩ := hread
        obtain rfl : c = f.node := by
          rw [hfind'] at hfind
          exact Int.ofNat.inj hfind
        have htext := htexts _ hc hfile
        rw [vfsRead_bytes hused (h.fds f (usedFd_mem hused)) (Nat.le_of_lt htext.size_lt),
          if_neg (not_or.mpr ⟨by rw [hfile]; decide, hserve⟩), htext.str_data]

/-- A safe call keeps the texts of the root directory. -/
theorem TableChange.texts (h : NodesOk t kids) (hchange : TableChange v t kids op t' kids')
    (hnul : WritesNoNul op) (hsafe : TextSafe (v, t) op)
    (htexts : ∀ c ∈ kids 0, IsText (t c)) : ∀ c ∈ kids' 0, IsText (t' c) := by
  cases hchange with
  | makes hmakes => exact hmakes.texts h htexts
  | @wrote name text append t₁ _ c node hmakes hc _ hwrite =>
      have htexts₁ := hmakes.texts h htexts
      intro i hi
      by_cases hic : i = c
      · rw [hic, Function.update_self]
        refine (htexts₁ c hc).writeText ?_ hwrite
        cases text with
        | none => exact List.not_mem_nil
        | some text => exact text.noNul
      · rw [Function.update_of_ne hic]
        exact htexts₁ i hi
  | @removed _ x _ hx _ _ hkeep _ =>
      intro i hi
      obtain ⟨hi, hix, -⟩ := (mem_removeKids h hx).mp hi
      have htext := htexts i hi
      rw [hkeep i hix]
      exact ⟨htext.size_lt, htext.no_nul, htext.ends⟩
  | @put fd buf bytes f off hused hallow hfile hoff hbytes =>
      intro i hi
      by_cases hif : i = f.node
      · subst hif
        have htext := htexts _ hi
        have hsize := htext.size_lt
        have hlen : bytes.length = min (ramfsMaxContent - off) buf.length := by
          rw [hbytes, List.length_take]
        have hmode := (hsafe f hused (h.inRootDir_iff.mpr ⟨hi, hfile⟩)).resolve_left hallow
        simp only [← hoff, ← hlen] at hmode
        rw [Function.update_self]
        refine (writeBytes_isText_iff htext (by omega) (by omega) fun h0 => ?_).mpr hmode
        rw [hbytes] at h0
        exact hnul (List.mem_of_mem_take h0)
      · rw [Function.update_of_ne hif]
        exact htexts i hi

/-- `vfs_write` on a file of the root directory, through a descriptor that may write. -/
theorem SharedOk.put_root (h : SharedOk ms (v, t) kids) {fd : Int} {buf : List UInt8} {f : RamfsFd}
    (hused : usedFd v fd = some f) (hroot : InRootDir t f.node)
    (hallow : ¬ (f.flags &&& vfsOWronly = 0 ∧ f.flags &&& vfsORdwr ≠ vfsORdwr))
    (hnext : sharedNext (v, t) (.vfs (.write fd buf)) = some (v', t')) :
    let off := min f.pos (t f.node).size
    t' = Function.update t f.node
      (writeBytes (t f.node) off (buf.take (ramfsMaxContent - off))) ∧
    SharedOk ms (v', t') kids ∧ InRootDir t' f.node := by
  intro off
  have hnodes : NodesOk t kids := h.nodes
  obtain ⟨hmem, hfile⟩ := hnodes.inRootDir_iff.mp hroot
  have htable := vfsWrite_table (t := t) hused (h.fds f (usedFd_mem hused)) buf
  simp only at htable
  rw [if_neg (not_or.mpr ⟨by rw [hfile]; decide, hallow⟩)] at htable
  have ht' := (Prod.mk.inj (Option.some.inj hnext)).2.symm.trans htable
  have hput : TableChange v t kids (.vfs (.write fd buf)) t' kids := by
    rw [ht']
    exact .put hused hallow hfile rfl rfl
  have hok := h.next hnext hput
  have hnodes' : NodesOk t' kids := hok.nodes
  refine ⟨ht', hok, hnodes'.inRootDir_iff.mpr ⟨hmem, ?_⟩⟩
  rw [ht', Function.update_self, (writeBytes_links ..).isDir]
  exact hfile

/-- After a call that is not safe the reads differ. -/
theorem SharedOk.not_sameReads (h : SharedOk ms (v, t) kids) (hnul : WritesNoNul op)
    (hbreaks : ¬ TextSafe (v, t) op) (hnext : sharedNext (v, t) op = some (v', t'))
    (htexts : ∀ c ∈ kids 0, IsText (t c)) : ¬ SameReads (v', t') := by
  have hnodes : NodesOk t kids := h.nodes
  cases op with
  | legacy op => exact absurd trivial hbreaks
  | vfs op =>
      cases op with
      | tree op => exact absurd trivial hbreaks
      | «open» p flags => exact absurd trivial hbreaks
      | read fd n => exact absurd trivial hbreaks
      | close fd => exact absurd trivial hbreaks
      | write fd buf =>
          intro hsame
          refine hbreaks fun f hused hroot => ?_
          by_contra hbad
          rw [not_or] at hbad
          obtain ⟨ht', hok, hroot'⟩ := h.put_root hused hroot hbad.1 hnext
          have hnodes' : NodesOk t' kids := hok.nodes
          obtain ⟨hmem, hfile'⟩ := hnodes'.inRootDir_iff.mp hroot'
          have htext := hok.readsAgree_iff.mp hsame f.node hmem hfile'
          have hsize := (htexts _ hmem).size_lt
          rw [ht', Function.update_self, writeBytes_isText_iff (htexts _ hmem)
            (Nat.min_le_right ..) (by rw [List.length_take]; omega)
            (fun h0 => hnul (List.mem_of_mem_take h0)), List.length_take] at htext
          exact hbad.2 htext

/-- A call on a name of the root directory is defined where its nodes have room for a NUL. -/
theorem NodesOk.legacyStep_defined (h : NodesOk t kids)
    (hroom : ∀ c ∈ kids 0, (t c).size < ramfsMaxContent) (op : LegacyOp) :
    ∃ r, legacyStep t op = some r := by
  cases op with
  | touch name => exact ⟨_, rfl⟩
  | remove name => exact ⟨_, rfl⟩
  | write name text append =>
      obtain ⟨kids', hmakes, hret | ⟨hret, c, hc, hname⟩⟩ := @NodesOk.touch_makes _ _
        (fun _ _ => True) h _ name.noNul trivial
      · simp only [legacyStep, ramfsWrite_refused _ append hret]
        exact ⟨_, rfl⟩
      · have hfind := (hmakes.nodesOk h).find_eq hc
        rw [hname] at hfind
        have hsize := hmakes.size_lt h hroom c hc
        obtain ⟨node, hwrite⟩ := writeText_defined ((ramfsTouch t name.bytes).2 c)
          ((text.map (·.bytes)).getD [])
          (if append = true then ((ramfsTouch t name.bytes).2 c).size else 0)
          (by split <;> omega)
        simp only [legacyStep, ramfsWrite_found _ append (Prod.ext hret rfl) hfind, hwrite]
        exact ⟨_, rfl⟩

/-- So is every call. -/
theorem SharedOk.defined (h : SharedOk ms (v, t) kids)
    (hroom : ∀ c ∈ kids 0, (t c).size < ramfsMaxContent) (op : SharedOp) :
    ∃ s', sharedNext (v, t) op = some s' := by
  cases op with
  | vfs op => exact ⟨_, rfl⟩
  | legacy op =>
      obtain ⟨r, hstep⟩ := h.nodes.legacyStep_defined hroom op
      exact ⟨(v, r.2), by rw [sharedNext, hstep]; rfl⟩

end Reads

/-! ## Runs -/

section Runs

variable {ms : List (List UInt8)}

theorem allSameReads_iff (ops : List SharedOp) (s : RamfsVfs × RamfsTable) :
    AllSameReads ops s ↔ AllStates sharedNext SameReads ops s :=
  allStates_unique (fun _ => Iff.rfl) (fun _ _ _ => Iff.rfl) ops s

theorem SharedOk.sameReads_run {s : RamfsVfs × RamfsTable} {kids : Nat → List Nat}
    (h : SharedOk ms s kids) (htexts : ∀ c ∈ kids 0, IsText (s.2 c)) {ops : List SharedOp}
    (hnul : ∀ op ∈ ops, WritesNoNul op) : AllSameReads ops s ↔ AllTextSafe ops s := by
  have hsafe : AllTextSafe ops s ↔ AllCalls sharedNext TextSafe ops s :=
    allCalls_unique (fun _ => trivial) (fun _ _ _ => Iff.rfl) ops s
  rw [allSameReads_iff, hsafe]
  refine allStates_iff (fun s => ∃ kids, SharedOk ms s kids ∧ ∀ c ∈ kids 0, IsText (s.2 c))
    ?_ ?_ ?_ ?_ ⟨kids, h, htexts⟩ hnul
  · rintro ⟨v, t⟩ ⟨kids, h, htexts⟩
    exact h.readsAgree_iff.mpr fun c hc _ => htexts c hc
  · rintro ⟨v, t⟩ op ⟨kids, h, htexts⟩ -
    exact h.defined (fun c hc => (htexts c hc).size_lt) op
  · rintro ⟨v, t⟩ op ⟨v', t'⟩ ⟨kids, h, htexts⟩ hnul hsafe hnext
    obtain ⟨⟨kids', hchange⟩, -, -⟩ := h.change hnext
    exact ⟨kids', h.next hnext hchange, hchange.texts h.nodes hnul hsafe htexts⟩
  · rintro ⟨v, t⟩ op ⟨v', t'⟩ ⟨kids, h, htexts⟩ hnul hsafe hnext
    exact h.not_sameReads hnul hsafe hnext htexts

end Runs

/-- With RAMFS as only mount, at a canonical path other than `/`, and no NUL
written, both read paths show the same bytes of every file of the root
directory throughout a run exactly where each of its `vfs_write` calls on such
a file keeps the text. -/
theorem sameReads_iff {mp : CString} (hcanon : CanonicalPath mp.bytes)
    (hroot : mp.bytes ≠ [slash]) (ops : List SharedOp) (hnul : ∀ op ∈ ops, WritesNoNul op) :
    AllSameReads ops (ramfsMounted mp, ramfsInit) ↔ AllTextSafe ops (ramfsMounted mp, ramfsInit) :=
  (ramfsMounted_sharedOk hcanon hroot).sameReads_run (fun _ hc => absurd hc List.not_mem_nil) hnul

/-- `/r/f` gets eight bytes, then two, then a third one through the VFS. -/
def stalePartOps : List SharedOp :=
  [.legacy (.write nameF (some ⟨ascii "abcdefgh", by decide⟩) false),
    .legacy (.write nameF (some ⟨ascii "xy", by decide⟩) false),
    .vfs (.open fileF vfsOWronly), .vfs (.write 0 (ascii "123"))]

theorem sameReads_stalePart :
    AllSameReads stalePartOps (ramfsMounted mountR, ramfsInit) ↔
      AllTextSafe stalePartOps (ramfsMounted mountR, ramfsInit) := by
  refine sameReads_iff mountR_canonical (by decide) stalePartOps fun op hop => ?_
  simp only [stalePartOps, List.mem_cons, List.not_mem_nil, or_false] at hop
  rcases hop with rfl | rfl | rfl | rfl
  · trivial
  · trivial
  · trivial
  · show (0 : UInt8) ∉ ascii "123"
    decide

/-- A `vfs_write` past the end of a shortened file brings its old bytes back
into the string. -/
theorem vfsWrite_uncovers_bytes :
    ¬ AllSameReads stalePartOps (ramfsMounted mountR, ramfsInit) := by
  intro hall
  -- the byte after the three that the file has
  have hbyte : ((stalePartOps.foldlM sharedNext (ramfsMounted mountR, ramfsInit)).bind fun s =>
      (ramfsRead s.2 (ascii "f")).map fun (data, size) => data.bytes.getD size 0)
        = some 100 := by decide +kernel
  obtain ⟨s, hrun, hbyte⟩ := Option.bind_eq_some_iff.mp hbyte
  obtain ⟨⟨data, size⟩, hread, hbyte⟩ := Option.map_eq_some_iff.mp hbyte
  obtain ⟨-, hends, -⟩ := (((allSameReads_iff _ _).mp hall).last hrun).string nameF data size hread
  exact absurd (hends.symm.trans hbyte) (by decide)

end RoninOS.Fs
