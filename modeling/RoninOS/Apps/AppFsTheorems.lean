/-
RoninOS.Apps.AppFsTheorems — what `fs cp` and `fs mv` do to the files.

A copy is `ramfs_read`, `ramfs_write` and, for `mv`, `ramfs_remove`. It gives
`dst` the contents of `src` where these are a whole string; a directory takes
them and stays one, and `mv` of a file to its own name removes it
(`copy_keeps_iff`).
-/
import RoninOS.Apps.AppFs
import RoninOS.Fs.RamfsEntries

namespace RoninOS.Apps

open RoninOS.Lib RoninOS.Fs

/-! ## Copies -/

/-- `fs cp src dst` or `fs mv src dst`. -/
def copyArgs (move : Bool) (src dst : CString) : List (List UInt8) :=
  [ascii "fs", if move then ascii "mv" else ascii "cp", src.bytes, dst.bytes]

/-- What a copy is for. -/
structure FileCopied (t t' : RamfsTable) (src dst : List UInt8) (move : Bool) : Prop where
  copied : ∃ bytes, ramfsContents t src = some bytes ∧ ramfsContents t' dst = some bytes
  kept : move = false → entryAt t' 0 src = entryAt t 0 src
  gone : move = true → src ≠ dst → entryAt t' 0 src = none
  others : SameEntries t t' fun name => name = src ∨ name = dst

/-- The command returns, and where it returns 0 the file was copied. -/
def CopyKeeps (t : RamfsTable) (src dst : CString) (move : Bool) : Prop :=
  ∃ rc t' out, appFsMain t (copyArgs move src dst) = some (rc, t', out) ∧
    (rc = 0 → FileCopied t t' src.bytes dst.bytes move)

/-- The contents are a string of at most 511 bytes, with its NUL unless it has as many. -/
structure WholeText (node : RamfsNode) : Prop where
  size_lt : node.size < ramfsMaxContent
  no_nul : 0 ∉ contents node
  ends : node.size < ramfsMaxContent - 1 → node.data.bytes.getD node.size 0 = 0

/-- There is no file `src`; or `ramfs_write` refuses `dst`; or `src` is a text,
`dst` no directory, and no file is moved to itself. -/
def CopySafe (t : RamfsTable) (src dst : List UInt8) (move : Bool) : Prop :=
  ∀ c, Lists t 0 c → (t c).nameStr = src → (t c).isDir = false →
    (NameAbsent t dst ∧ (¬ RamfsName dst ∨ TableFull t)) ∨
    (WholeText (t c) ∧ ¬ NamesDir t dst ∧ (move = true → src ≠ dst))

/-- A copy takes whole texts. -/
theorem take_dataString_iff {node : RamfsNode} (hsize : node.size ≤ ramfsMaxContent) :
    (dataString node.data node.size).take (ramfsMaxContent - 1) = contents node ↔
      WholeText node := by
  have hmax : ramfsMaxContent = 512 := rfl
  have hlen := node.data.length_eq
  unfold dataString
  generalize [byteOf node.size 0, byteOf node.size 1, byteOf node.size 2, byteOf node.size 3] = rest
  have hcontents : contents node = (node.data.bytes ++ rest).take node.size := by
    rw [contents, List.take_append_of_le_length (by omega)]
  rw [hcontents, take_str_eq_iff (by rw [List.length_append]; omega)
    (by rw [List.length_append]; omega), ← hcontents]
  have hend : node.size < ramfsMaxContent - 1 →
      (node.data.bytes ++ rest).getD node.size 0 = node.data.bytes.getD node.size 0 :=
    fun hlt => List.getD_append _ _ _ _ (by omega)
  constructor
  · rintro ⟨hle, hnul, hends⟩
    exact ⟨by omega, hnul, fun hlt => (hend hlt).symm.trans (hends hlt)⟩
  · intro h
    have hlt := h.size_lt
    exact ⟨by omega, h.no_nul, fun hlt => (hend hlt).trans (h.ends hlt)⟩

section Copies

variable {t t₁ : RamfsTable} {kids kids₁ : Nat → List Nat} {src dst : List UInt8} {move : Bool}

/-- The table after `ramfs_write`, or after `ramfs_remove` for `mv`. -/
def afterCopy (t₁ : RamfsTable) (src : List UInt8) (move : Bool) : RamfsTable :=
  if move then (ramfsRemove t₁ src).2 else t₁

/-- A copy that `ramfs_write` makes, from a file whose first bytes are `text`. -/
theorem fileCopied_iff (h₁ : NodesOk t₁ kids₁) (hsrc : 0 ∉ src) (hdst : 0 ∉ dst)
    {c c' : Nat} {isDir : Bool} {bytes text : List UInt8}
    (hfrom : entryAt t 0 src = some (c, false, bytes)) (hsame : SameEntries t t₁ (· = dst))
    (hroot : IsDir t 0) (hto : entryAt t₁ 0 dst = some (c', isDir, text))
    (hself : src = dst → c' = c ∧ isDir = false) :
    FileCopied t (afterCopy t₁ src move) src dst move ↔
      text = bytes ∧ isDir = false ∧ (move = true → src ≠ dst) := by
  -- what `ramfs_read` gives, as long as the entry of `dst` is the one written
  have hcopied : ∀ t₂, entryAt t₂ 0 dst = some (c', isDir, text) →
      ((∃ b, ramfsContents t src = some b ∧ ramfsContents t₂ dst = some b) ↔
        text = bytes ∧ isDir = false) := by
    intro t₂ hentry
    rw [ramfsContents_eq_entryAt, ramfsContents_eq_entryAt, hfrom, hentry]
    cases isDir with
    | true => simp
    | false => simp
  cases move with
  | false =>
      constructor
      · intro h
        obtain ⟨htext, hfile⟩ := (hcopied t₁ hto).mp h.copied
        exact ⟨htext, hfile, fun hmove => absurd hmove (by decide)⟩
      · rintro ⟨rfl, rfl, -⟩
        refine ⟨(hcopied t₁ hto).mpr ⟨rfl, rfl⟩, fun _ => ?_, fun hmove => absurd hmove (by decide),
          hsame.trans (.refl t₁ (· = dst)) (fun _ => Or.inr) fun _ => Or.inr⟩
        by_cases hne : src = dst
        · obtain ⟨rfl, -⟩ := hself hne
          rw [hfrom, hne]
          exact hto
        · exact hsame.entries 0 hroot ⟨src, hsrc⟩ fun _ => hne
  | true =>
      by_cases hne : src = dst
      · refine iff_of_false (fun h => ?_) fun h => h.2.2 rfl hne
        obtain ⟨b, -, hb⟩ := h.copied
        rw [ramfsContents_eq_entryAt, ← hne] at hb
        simp [afterCopy, h₁.remove_gone hsrc] at hb
      · have hroot₁ := hsame.dirs 0 hroot
        have hthere := (hsame.entries 0 hroot ⟨src, hsrc⟩ fun _ => hne).trans hfrom
        have hnodir : ¬ NamesDir t₁ src := by
          rw [h₁.namesDir_iff hsrc, hthere]
          rintro ⟨_, _, hentry⟩
          simp at hentry
        have hremove := h₁.remove_sameEntries hsrc hnodir
        have hto₂ := (hremove.entries 0 hroot₁ ⟨dst, hdst⟩ fun _ => Ne.symm hne).trans hto
        constructor
        · intro h
          obtain ⟨htext, hfile⟩ := (hcopied _ hto₂).mp h.copied
          exact ⟨htext, hfile, fun _ => hne⟩
        · rintro ⟨rfl, rfl, -⟩
          exact ⟨(hcopied _ hto₂).mpr ⟨rfl, rfl⟩, fun hmove => absurd hmove (by decide),
            fun _ _ => h₁.remove_gone hsrc,
            hsame.trans hremove (fun _ => Or.inr) fun _ => Or.inl⟩

/-- The command without a source file. -/
theorem copyCommand_noSource (dst : List UInt8) (move : Bool) (hread : ramfsRead t src = none) :
    ∃ out, copyCommand t src dst move = some (1, t, out) := by
  rw [copyCommand, hread]
  exact ⟨_, rfl⟩

/-- The command where `ramfs_write` refuses. -/
theorem copyCommand_refused (move : Bool) {data : Buffer ramfsMaxContent} {size : Nat}
    (hread : ramfsRead t src = some (data, size))
    (hwrite : ramfsWrite t dst (some (dataString data size)) false = some (-1, t₁)) :
    ∃ out, copyCommand t src dst move = some (1, t₁, out) := by
  rw [copyCommand, hread]
  simp only [hwrite]
  exact ⟨_, rfl⟩

/-- The command where `ramfs_write` writes. -/
theorem copyCommand_wrote (move : Bool) {data : Buffer ramfsMaxContent} {size : Nat}
    (hread : ramfsRead t src = some (data, size))
    (hwrite : ramfsWrite t dst (some (dataString data size)) false = some (0, t₁)) :
    ∃ out, copyCommand t src dst move = some (0, afterCopy t₁ src move, out) := by
  rw [copyCommand, hread]
  simp only [hwrite, Option.map_some]
  cases move with
  | true => exact ⟨_, rfl⟩
  | false => exact ⟨_, rfl⟩

/-- The copy of a file is what it is for exactly where `ramfs_write` refuses
`dst`, or where it is safe. -/
theorem copyCommand_iff (h : NodesOk t kids) (hsrc : 0 ∉ src) (hdst : 0 ∉ dst) {c : Nat}
    (hc : c ∈ kids 0) (hname : (t c).nameStr = src) (hfile : (t c).isDir = false)
    (hsize : (t c).size ≤ ramfsMaxContent)
    (hread : ramfsRead t src = some ((t c).data, (t c).size)) :
    (∃ rc t' out, copyCommand t src dst move = some (rc, t', out) ∧
      (rc = 0 → FileCopied t t' src dst move)) ↔
    (NameAbsent t dst ∧ (¬ RamfsName dst ∨ TableFull t)) ∨
      (WholeText (t c) ∧ ¬ NamesDir t dst ∧ (move = true → src ≠ dst)) := by
  have hfrom := h.entryAt_some hc
  rw [hname, hfile] at hfrom
  -- where `ramfs_write` writes, the result is the copy
  have hwrote : ∀ {t₁}, ramfsWrite t dst (some (dataString (t c).data (t c).size)) false
      = some (0, t₁) → ((∃ rc t' out, copyCommand t src dst move = some (rc, t', out) ∧
        (rc = 0 → FileCopied t t' src dst move)) ↔
          FileCopied t (afterCopy t₁ src move) src dst move) := by
    intro t₁ hwrite
    obtain ⟨out, hcopy⟩ := copyCommand_wrote move hread hwrite
    constructor
    · rintro ⟨rc, t', out', hcopy', hkeeps⟩
      obtain ⟨rfl, heq⟩ := Prod.mk.inj (Option.some.inj (hcopy.symm.trans hcopy'))
      obtain ⟨rfl, -⟩ := Prod.mk.inj heq
      exact hkeeps rfl
    · exact fun hcopied => ⟨0, _, out, hcopy, fun _ => hcopied⟩
  have houtcome := h.overwrite_outcome hdst (dataString (t c).data (t c).size)
  generalize hwrite : ramfsWrite t dst _ false = r at houtcome
  cases houtcome with
  | refused habsent hwhy =>
      obtain ⟨out, hcopy⟩ := copyCommand_refused move hread hwrite
      exact iff_of_true ⟨1, _, out, hcopy, fun hrc => absurd hrc (by decide)⟩
        (Or.inl ⟨habsent, hwhy⟩)
  | @replaced t₁ _ c' isDir _ hentry hthere hok₁ hsame hto =>
      have hdirs : NamesDir t dst ↔ isDir = true := by
        rw [h.namesDir_iff hdst, hentry]
        simp
      rw [hwrote hwrite, fileCopied_iff hok₁ hsrc hdst hfrom hsame h.root hto ?_,
        take_dataString_iff hsize, hdirs, Bool.not_eq_true,
        or_iff_right fun hrefused => hthere hrefused.1]
      rintro rfl
      obtain ⟨rfl, heq⟩ := Prod.mk.inj (Option.some.inj (hfrom.symm.trans hentry))
      exact ⟨rfl, (Prod.mk.inj heq).1.symm⟩
  | @created t₁ _ c' hentry hgood hroom hok₁ hsame hto =>
      have hnodir : ¬ NamesDir t dst := by
        rw [h.namesDir_iff hdst, hentry]
        simp
      rw [hwrote hwrite, fileCopied_iff hok₁ hsrc hdst hfrom hsame h.root hto ?_,
        take_dataString_iff hsize,
        or_iff_right fun hrefused => hrefused.2.elim (fun hbad => hbad hgood) hroom]
      · simp [hnodir]
      · rintro rfl
        cases hfrom.symm.trans hentry

end Copies

/-- `fs cp` and `fs mv` keep the files exactly where the copy is safe. -/
theorem copy_keeps_iff {t : RamfsTable} (h : RamfsState t) (src dst : CString) (move : Bool) :
    CopyKeeps t src dst move ↔ CopySafe t src.bytes dst.bytes move := by
  have hcommand : appFsMain t (copyArgs move src dst) = copyCommand t src.bytes dst.bytes move := by
    cases move <;> rfl
  obtain ⟨kids, hok⟩ := h.callsOk
  have hnodes := hok.nodes
  rw [CopyKeeps, hcommand]
  -- without a source file the command returns 1
  have hnone : ramfsRead t src.bytes = none →
      ∃ rc t' out, copyCommand t src.bytes dst.bytes move = some (rc, t', out) ∧
        (rc = 0 → FileCopied t t' src.bytes dst.bytes move) := by
    intro hread
    obtain ⟨out, hcopy⟩ := copyCommand_noSource dst.bytes move hread
    exact ⟨1, t, out, hcopy, fun hrc => absurd hrc (by decide)⟩
  rcases hnodes.find_cases hnodes.root src.noNul with ⟨hfind, hall⟩ | ⟨c, hc, hname, hfind⟩
  · refine iff_of_true (hnone (by rw [ramfsRead, hfind]; rfl)) fun c hc hname => ?_
    exact absurd hname (hall c ((hnodes.lists_iff hnodes.root).mp hc))
  · have honly : ∀ c', Lists t 0 c' → (t c').nameStr = src.bytes → c' = c := fun c' hc' hn =>
      hnodes.names 0 c' ((hnodes.lists_iff hnodes.root).mp hc') c hc (hn.trans hname.symm)
    have hread : ramfsRead t src.bytes
        = if (t c).isDir then none else some ((t c).data, (t c).size) := by
      rw [ramfsRead, hfind]
      simp only [Int.toNat_natCast, if_neg (show ¬ (c : Int) < 0 by omega)]
    cases hdir : (t c).isDir with
    | true =>
        refine iff_of_true (hnone (by rw [hread, hdir]; rfl)) fun c' hc' hn hfile => ?_
        rw [honly c' hc' hn, hdir] at hfile
        cases hfile
    | false =>
        rw [hdir] at hread
        rw [copyCommand_iff hnodes src.noNul dst.noNul hc hname hdir
          (hok.size_le c (hnodes.child 0 c hc).1) hread]
        constructor
        · intro hsafe c' hc' hn _
          rw [honly c' hc' hn]
          exact hsafe
        · exact fun hsafe => hsafe c ((hnodes.lists_iff hnodes.root).mpr hc) hname hdir

/-- A file `f` with a text in an otherwise empty root directory. -/
def oneFile : RamfsTable :=
  ((ramfsWrite ramfsInit nameF.bytes (some (ascii "text")) false).map (·.2)).getD ramfsInit

theorem oneFile_state : RamfsState oneFile := by
  refine RamfsState.init.next (.legacy (.write nameF (some ⟨ascii "text", by decide⟩) false)) ?_
  rfl

theorem copy_keeps_oneFile :
    CopyKeeps oneFile nameF nameF false ↔ CopySafe oneFile nameF.bytes nameF.bytes false :=
  copy_keeps_iff oneFile_state nameF nameF false

/-- `fs mv f f` returns 0 and removes the file. -/
theorem moveToSelf_loses : RamfsState oneFile ∧ ¬ CopyKeeps oneFile nameF nameF true := by
  refine ⟨oneFile_state, ?_⟩
  rintro ⟨rc, t', out, hsome, hkeeps⟩
  have heval : (appFsMain oneFile (copyArgs true nameF nameF)).map (fun r =>
      (r.1, ramfsContents r.2.1 nameF.bytes)) = some (0, none) := by decide +kernel
  rw [hsome, Option.map_some] at heval
  obtain ⟨hrc, hnone⟩ := Prod.mk.inj (Option.some.inj heval)
  obtain ⟨bytes, -, hread⟩ := (hkeeps hrc).copied
  cases hnone.symm.trans hread

/-! ## Every command -/

section Commands

variable {t t' : RamfsTable} {name src dst text : List UInt8} {r : FsResult}

theorem ramfsTouch_state (h : RamfsState t) (hname : 0 ∉ name) : RamfsState (ramfsTouch t name).2 :=
  h.next (.legacy (.touch ⟨name, hname⟩)) rfl

theorem ramfsRemove_state (h : RamfsState t) (hname : 0 ∉ name) :
    RamfsState (ramfsRemove t name).2 :=
  h.next (.legacy (.remove ⟨name, hname⟩)) rfl

theorem ramfsWrite_state (h : RamfsState t) (hname : 0 ∉ name) (htext : 0 ∉ text) {append : Bool}
    {rc : Int} (hwrite : ramfsWrite t name (some text) append = some (rc, t')) : RamfsState t' := by
  refine h.next (.legacy (.write ⟨name, hname⟩ (some ⟨text, htext⟩) append)) ?_
  simp only [ramfsNext, legacyStep, Option.map_some, hwrite]

theorem touchCommand_state (h : RamfsState t) (hname : 0 ∉ name) :
    RamfsState (touchCommand t name).2.1 := by
  have htouch := ramfsTouch_state h hname
  rw [touchCommand]
  simp only
  split
  · exact htouch
  · exact htouch

theorem writeCommand_state (h : RamfsState t) (hname : 0 ∉ name) (htext : 0 ∉ text)
    {append : Bool} (hrun : writeCommand t name text append = some r) : RamfsState r.2.1 := by
  obtain ⟨⟨rc, t₁⟩, hwrite, rfl⟩ := Option.map_eq_some_iff.mp hrun
  have hstate := ramfsWrite_state h hname htext hwrite
  simp only
  split
  · exact hstate
  · exact hstate

theorem catCommand_state (h : RamfsState t) (name : List UInt8) :
    RamfsState (catCommand t name).2.1 := by
  rw [catCommand]
  split
  · exact h
  · exact h

theorem rmCommand_state (h : RamfsState t) (hname : 0 ∉ name) :
    RamfsState (rmCommand t name).2.1 := by
  have hremove := ramfsRemove_state h hname
  rw [rmCommand]
  simp only
  split
  · exact hremove
  · exact hremove

/-- `fs cp` and `fs mv` write the destination and may remove the source. -/
theorem copyCommand_state (h : RamfsState t) (hsrc : 0 ∉ src) (hdst : 0 ∉ dst) {move : Bool}
    (hrun : copyCommand t src dst move = some r) : RamfsState r.2.1 := by
  rw [copyCommand] at hrun
  split at hrun
  · obtain rfl := Option.some.inj hrun
    exact h
  · rename_i data size hread
    have htext : 0 ∉ dataString data size := fun h0 => by simpa using List.mem_takeWhile_imp h0
    obtain ⟨⟨rc, t₁⟩, hwrite, rfl⟩ := Option.map_eq_some_iff.mp hrun
    have hstate := ramfsWrite_state h hdst htext hwrite
    have hremove := ramfsRemove_state hstate hsrc
    simp only
    split
    · exact hstate
    · split
      · exact hremove
      · exact hstate

/-- Every `fs` command leaves the table of a run. -/
theorem appFsMain_state {argv : List (List UInt8)} (h : RamfsState t)
    (hargv : ∀ arg ∈ argv, 0 ∉ arg) (hrun : appFsMain t argv = some r) : RamfsState r.2.1 := by
  have harg : ∀ i, 0 ∉ argv.getD i [] := by
    intro i
    rw [List.getD_eq_getElem?_getD]
    cases hget : argv[i]? with
    | none => exact List.not_mem_nil
    | some arg => exact hargv arg (List.mem_of_getElem? hget)
  have hsame : ∀ {rc : Int} {out : List UInt8}, some (rc, t, out) = some r → RamfsState r.2.1 :=
    fun heq => Option.some.inj heq ▸ h
  simp only [appFsMain] at hrun
  split at hrun
  · exact hsame hrun
  · split at hrun
    · exact hsame hrun
    · split at hrun
      · split at hrun
        · exact hsame hrun
        · exact Option.some.inj hrun ▸ touchCommand_state h (harg 2)
      · split at hrun
        · split at hrun
          · exact hsame hrun
          · exact writeCommand_state h (harg 2) (harg 3) hrun
        · split at hrun
          · split at hrun
            · exact hsame hrun
            · exact Option.some.inj hrun ▸ catCommand_state h _
          · split at hrun
            · split at hrun
              · exact hsame hrun
              · exact Option.some.inj hrun ▸ rmCommand_state h (harg 2)
            · split at hrun
              · split at hrun
                · exact hsame hrun
                · exact copyCommand_state h (harg 2) (harg 3) hrun
              · exact hsame hrun

end Commands

end RoninOS.Apps
