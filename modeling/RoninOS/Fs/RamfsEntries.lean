/-
RoninOS.Fs.RamfsEntries — which directory entries the calls on names of the
root directory leave alone.

`entryAt` is what a name of a directory stands for. `ramfs_write` changes the
entry of its name in the root directory and no other (`write_sameEntries`), and
so does `ramfs_remove` where the name is not one of a directory.
-/
import RoninOS.Fs.RamfsReport

namespace RoninOS.Fs

open RoninOS.Lib

/-- The node of a name in a directory, its `is_dir` and its contents. -/
def entryAt (t : RamfsTable) (dir : Nat) (name : List UInt8) : Option (Nat × Bool × List UInt8) :=
  let idx := nodeFindChild t dir name
  if idx < 0 then none else some (idx.toNat, (t idx.toNat).isDir, contents (t idx.toNat))

/-- Every directory is one still, and no entry differs but some of the root directory. -/
structure SameEntries (t t' : RamfsTable) (changed : List UInt8 → Prop) : Prop where
  dirs : ∀ d, IsDir t d → IsDir t' d
  entries : ∀ d, IsDir t d → ∀ name : CString, (d = 0 → ¬ changed name.bytes) →
    entryAt t' d name.bytes = entryAt t d name.bytes

theorem SameEntries.refl (t : RamfsTable) (changed : List UInt8 → Prop) :
    SameEntries t t changed := ⟨fun _ hd => hd, fun _ _ _ _ => rfl⟩

theorem SameEntries.trans {t t' t'' : RamfsTable} {p q r : List UInt8 → Prop}
    (h : SameEntries t t' p) (h' : SameEntries t' t'' q) (hp : ∀ name, p name → r name)
    (hq : ∀ name, q name → r name) : SameEntries t t'' r where
  dirs := fun d hd => h'.dirs d (h.dirs d hd)
  entries := by
    intro d hd name hname
    rw [h'.entries d (h.dirs d hd) name fun h0 hchanged => hname h0 (hq _ hchanged)]
    exact h.entries d hd name fun h0 hchanged => hname h0 (hp _ hchanged)

section Entries

variable {t t' : RamfsTable} {kids kids' : Nat → List Nat} {name text : List UInt8}

theorem NodesOk.entryAt_some (h : NodesOk t kids) {d c : Nat} (hc : c ∈ kids d) :
    entryAt t d (t c).nameStr = some (c, (t c).isDir, contents (t c)) := by
  rw [entryAt, h.find_eq hc]
  simp only [Int.toNat_natCast, if_neg (show ¬ (c : Int) < 0 by omega)]

theorem NodesOk.entryAt_none (h : NodesOk t kids) {d : Nat} (hd : IsDir t d) (hnul : 0 ∉ name)
    (hall : ∀ c ∈ kids d, (t c).nameStr ≠ name) : entryAt t d name = none := by
  rw [entryAt]
  rcases h.find_cases hd hnul with ⟨hfind, -⟩ | ⟨c, hc, hname, -⟩
  · rw [hfind]
    rfl
  · exact absurd hname (hall c hc)

/-- Entries stay where their nodes stay in their lists with the name, the kind
and the contents, and no node is new under another name. -/
theorem NodesOk.sameEntries (h : NodesOk t kids) (h' : NodesOk t' kids')
    {changed : List UInt8 → Prop} (hdirs : ∀ d, IsDir t d → IsDir t' d)
    (hkeep : ∀ d, ∀ c ∈ kids d, (d = 0 → ¬ changed (t c).nameStr) → c ∈ kids' d ∧
      (t' c).nameStr = (t c).nameStr ∧ (t' c).isDir = (t c).isDir ∧
      contents (t' c) = contents (t c))
    (hold : ∀ d, IsDir t d → ∀ c ∈ kids' d, (d = 0 ∧ changed (t' c).nameStr) ∨
      (c ∈ kids d ∧ (t c).nameStr = (t' c).nameStr)) : SameEntries t t' changed where
  dirs := hdirs
  entries := by
    intro d hd name hname
    rcases h.find_cases hd name.noNul with ⟨-, hall⟩ | ⟨c, hc, hcname, -⟩
    · rw [h.entryAt_none hd name.noNul hall]
      refine h'.entryAt_none (hdirs d hd) name.noNul fun c hc hcname => ?_
      rcases hold d hd c hc with ⟨h0, hchanged⟩ | ⟨hc', hsame⟩
      · rw [hcname] at hchanged
        exact hname h0 hchanged
      · exact hall c hc' (hsame.trans hcname)
    · rw [← hcname] at hname ⊢
      obtain ⟨hc', hsame, hdir, hcontents⟩ := hkeep d c hc hname
      rw [h.entryAt_some hc, ← hsame, h'.entryAt_some hc', hdir, hcontents]

theorem Unchanged.sameEntries (hsame : Unchanged t t') (h : NodesOk t kids)
    (changed : List UInt8 → Prop) : SameEntries t t' changed := by
  have hused : ∀ d, ∀ c ∈ kids d, t' c = t c := fun d c hc => hsame.eq_of_used (h.child d c hc).1
  refine h.sameEntries (h.unchanged hsame) (fun d hd => ?_) (fun d c hc _ => ?_) fun d _ c hc => ?_
  · rw [IsDir, hsame.eq_of_used hd.1]
    exact hd
  · rw [hused d c hc]
    exact ⟨hc, rfl, rfl, rfl⟩
  · rw [hused d c hc]
    exact Or.inr ⟨hc, rfl⟩

/-- `ramfs_touch` changes the entry of its name at most. -/
theorem NodesOk.touch_sameEntries (h : NodesOk t kids) (hnul : 0 ∉ name) :
    SameEntries t (ramfsTouch t name).2 (· = name) := by
  have houtcome := h.touch_outcome hnul
  generalize ramfsTouch t name = r at houtcome
  cases houtcome with
  | present _ _ => exact .refl t _
  | refused _ _ _ hsame => exact hsame.sameEntries h _
  | @created idx copied hall hgood hidx hfree hstr hmem =>
      have hne : idx ≠ 0 := (ne_of_free h.root.1 hfree).symm
      have hok : NodesOk (linkNew t idx copied false 0) (Function.update kids 0 (idx :: kids 0)) :=
        h.created h.root hidx hfree (hstr ▸ hgood.1) hmem (by rw [hstr]; exact hall)
      have hkeep : ∀ i, (t i).used = true → i ≠ idx ∧
          linkNew t idx copied false 0 i
            = { t i with firstChild := (linkNew t idx copied false 0 i).firstChild } := by
        intro i hi
        have hii := ne_of_free hi hfree
        refine ⟨hii, ?_⟩
        rcases @linkNew_keeps t _ 0 copied false _ hii with heq | heq <;> rw [heq]
      refine h.sameEntries hok (fun d hd => ?_) (fun d c hc _ => ?_) fun d _ c hc => ?_
      · rw [IsDir, (hkeep d hd.1).2]
        exact hd
      · have hused := (h.child d c hc).1
        refine ⟨mem_linkedKids.mpr (Or.inr hc), ?_⟩
        rw [(hkeep c hused).2]
        exact ⟨rfl, rfl, rfl⟩
      · rcases mem_linkedKids.mp hc with ⟨rfl, rfl⟩ | hc
        · exact Or.inl ⟨rfl, (linkNew_nameStr hne).trans hstr⟩
        · have hused := (h.child d c hc).1
          refine Or.inr ⟨hc, ?_⟩
          rw [(hkeep c hused).2]
          rfl

/-- A node of the root directory with other contents is another entry of its name. -/
theorem NodesOk.update_sameEntries (h : NodesOk t kids) {x : Nat} (hx : x ∈ kids 0)
    {node : RamfsNode} (hlinks : SameLinks node (t x)) :
    SameEntries t (Function.update t x node) (· = (t x).nameStr) := by
  have hsame : ∀ i, SameLinks (Function.update t x node i) (t i) := by
    intro i
    by_cases hix : i = x
    · rw [hix, Function.update_self]
      exact hlinks
    · rw [Function.update_of_ne hix]
      exact .refl _
  refine h.sameEntries (h.update hlinks) (fun d hd => ?_) (fun d c hc hother => ?_)
    fun d _ c hc => ?_
  · rw [IsDir, (hsame d).used, (hsame d).isDir]
    exact hd
  · have hcx : c ≠ x := by
      rintro rfl
      exact hother (h.dir_unique hc hx) rfl
    rw [Function.update_of_ne hcx]
    exact ⟨hc, rfl, rfl, rfl⟩
  · exact Or.inr ⟨hc, (hsame c).nameStr.symm⟩

/-- `ramfs_write` changes the entry of its name at most. -/
theorem NodesOk.write_sameEntries (h : NodesOk t kids) (hnul : 0 ∉ name)
    {text : Option (List UInt8)} {append : Bool} {ret : Int}
    (hwrite : ramfsWrite t name text append = some (ret, t')) :
    SameEntries t t' (· = name) := by
  have htouch := h.touch_sameEntries hnul
  obtain ⟨kids', hmakes, hret | ⟨hret, c, hc, hcname⟩⟩ :=
    @NodesOk.touch_makes _ _ (fun _ _ => True) h _ hnul trivial
  · rw [ramfsWrite_refused text append hret] at hwrite
    obtain ⟨-, rfl⟩ := Prod.mk.inj (Option.some.inj hwrite)
    exact htouch
  · have hok := hmakes.nodesOk h
    have hfind := hok.find_eq hc
    rw [hcname] at hfind
    rw [ramfsWrite_found text append (Prod.ext hret rfl) hfind] at hwrite
    obtain ⟨node, hnode, heq⟩ := Option.map_eq_some_iff.mp hwrite
    obtain ⟨-, rfl⟩ := Prod.mk.inj heq
    have hput := hok.update_sameEntries hc (writeText_links hnode)
    rw [hcname] at hput
    exact htouch.trans hput (fun _ hn => hn) fun _ hn => hn

/-- `ramfs_remove` changes the entry of its name at most, if that is a file. -/
theorem NodesOk.remove_sameEntries (h : NodesOk t kids) (hnul : 0 ∉ name)
    (hfile : ¬ NamesDir t name) : SameEntries t (ramfsRemove t name).2 (· = name) := by
  have houtcome := h.remove_outcome hnul
  generalize ramfsRemove t name = r at houtcome
  cases houtcome with
  | absent _ => exact .refl t _
  | @removed x t' hx hname hzero hkeep hok =>
      have hnodir : ∀ d, IsDir t d → d ≠ x := by
        rintro d hd rfl
        exact hfile ⟨d, (h.lists_iff h.root).mpr hx, hname, hd.2⟩
      have hsame : ∀ i, i ≠ x → (t' i).used = (t i).used ∧ (t' i).isDir = (t i).isDir ∧
          (t' i).nameStr = (t i).nameStr ∧ contents (t' i) = contents (t i) := by
        intro i hi
        rw [hkeep i hi]
        exact ⟨rfl, rfl, rfl, rfl⟩
      refine h.sameEntries hok (fun d hd => ?_) (fun d c hc hother => ?_) fun d _ c hc => ?_
      · obtain ⟨hused, hdir, -⟩ := hsame d (hnodir d hd)
        exact ⟨hused.trans hd.1, hdir.trans hd.2⟩
      · have hcx : c ≠ x := by
          rintro rfl
          exact hother (h.dir_unique hc hx) hname
        obtain ⟨-, hdir, hcname, hcontents⟩ := hsame c hcx
        have hdx := hnodir d (h.isDir_of_mem hc)
        exact ⟨(mem_removeKids h hx).mpr ⟨hc, hcx, hdx⟩, hcname, hdir, hcontents⟩
      · obtain ⟨hc, hcx, -⟩ := (mem_removeKids h hx).mp hc
        exact Or.inr ⟨hc, (hsame c hcx).2.2.1.symm⟩

/-- After `ramfs_remove` the root directory does not list the name. -/
theorem NodesOk.remove_gone (h : NodesOk t kids) (hnul : 0 ∉ name) :
    entryAt (ramfsRemove t name).2 0 name = none := by
  have houtcome := h.remove_outcome hnul
  generalize ramfsRemove t name = r at houtcome
  cases houtcome with
  | absent hall => exact h.entryAt_none h.root hnul hall
  | @removed x t' hx hname _ hkeep hok =>
      refine hok.entryAt_none hok.root hnul fun c hc hcname => ?_
      obtain ⟨hc, hcx, -⟩ := (mem_removeKids h hx).mp hc
      rw [RamfsNode.nameStr, hkeep c hcx] at hcname
      exact hcx (h.names 0 c hc x hx (hcname.trans hname.symm))

/-- `ramfs_read` gives the contents of a file's entry. -/
theorem ramfsContents_eq_entryAt (t : RamfsTable) (name : List UInt8) :
    ramfsContents t name
      = (entryAt t 0 name).bind fun (_, isDir, bytes) => if isDir then none else some bytes := by
  rw [ramfsContents, ramfsRead, entryAt]
  by_cases hfind : nodeFindChild t 0 name < 0
  · simp only [if_pos hfind]
    rfl
  · simp only [if_neg hfind, Option.bind_some]
    cases (t (nodeFindChild t 0 name).toNat).isDir with
    | true => rfl
    | false => rfl

theorem NodesOk.namesDir_iff (h : NodesOk t kids) (hnul : 0 ∉ name) :
    NamesDir t name ↔ ∃ c bytes, entryAt t 0 name = some (c, true, bytes) := by
  constructor
  · rintro ⟨c, hc, rfl, hdir⟩
    refine ⟨c, contents (t c), ?_⟩
    rw [h.entryAt_some ((h.lists_iff h.root).mp hc), hdir]
  · rintro ⟨c, bytes, hentry⟩
    rcases h.find_cases h.root hnul with ⟨hfind, -⟩ | ⟨c', hc', hname, -⟩
    · rw [entryAt, hfind] at hentry
      cases hentry
    · rw [← hname, h.entryAt_some hc', Option.some.injEq, Prod.mk.injEq, Prod.mk.injEq] at hentry
      exact ⟨c', (h.lists_iff h.root).mpr hc', hname, hentry.2.1⟩

/-! ## Overwriting -/

/-- What `ramfs_write` can do when it does not append. -/
inductive OverwriteOutcome (t : RamfsTable) (name text : List UInt8) :
    Option (Int × RamfsTable) → Prop
  | refused {t' : RamfsTable} : NameAbsent t name → ¬ RamfsName name ∨ TableFull t →
      OverwriteOutcome t name text (some (-1, t'))
  | replaced {t' : RamfsTable} {kids' : Nat → List Nat} {c : Nat} {isDir : Bool}
      {bytes : List UInt8} : entryAt t 0 name = some (c, isDir, bytes) → ¬ NameAbsent t name →
      NodesOk t' kids' → SameEntries t t' (· = name) →
      entryAt t' 0 name = some (c, isDir, text.take (ramfsMaxContent - 1)) →
      OverwriteOutcome t name text (some (0, t'))
  | created {t' : RamfsTable} {kids' : Nat → List Nat} {c : Nat} :
      entryAt t 0 name = none → RamfsName name → ¬ TableFull t → NodesOk t' kids' →
      SameEntries t t' (· = name) →
      entryAt t' 0 name = some (c, false, text.take (ramfsMaxContent - 1)) →
      OverwriteOutcome t name text (some (0, t'))

/-- A node with a new text is an entry with these contents. -/
theorem entryAt_overwritten (h : NodesOk t kids) {c : Nat} (hc : c ∈ kids 0) {node : RamfsNode}
    (hwrite : writeText (t c) text 0 = some node) :
    entryAt (Function.update t c node) 0 (t c).nameStr
      = some (c, (t c).isDir, text.take (ramfsMaxContent - 1)) := by
  have hlinks := writeText_links hwrite
  have hentry := (h.update hlinks).entryAt_some hc
  rw [Function.update_self, hlinks.nameStr, hlinks.isDir,
    contents_writeText (Nat.zero_le _) hwrite] at hentry
  exact hentry

theorem NodesOk.overwrite_outcome (h : NodesOk t kids) (hnul : 0 ∉ name) (text : List UInt8) :
    OverwriteOutcome t name text (ramfsWrite t name (some text) false) := by
  have houtcome := h.touch_outcome hnul
  generalize htouch : ramfsTouch t name = r at houtcome
  have hlist : ∀ c, Lists t 0 c ↔ c ∈ kids 0 := fun c => h.lists_iff h.root
  cases houtcome with
  | @present c hc hname =>
      have hfind := h.find_eq hc
      rw [hname] at hfind
      obtain ⟨node, hnode⟩ := writeText_defined (t c) text 0 (by decide)
      have hwrite := ramfsWrite_found (some text) false htouch hfind
      simp only [Option.getD_some, Bool.false_eq_true, if_false, hnode, Option.map_some] at hwrite
      rw [hwrite]
      refine .replaced (hname ▸ h.entryAt_some hc) (fun habsent => ?_)
        (h.update (writeText_links hnode)) (h.write_sameEntries hnul hwrite)
        (hname ▸ entryAt_overwritten h hc hnode)
      exact habsent c ((hlist c).mpr hc) hname
  | refused hall hret hwhy _ =>
      rw [ramfsWrite_refused (some text) false (by rw [htouch]; exact hret)]
      exact .refused (fun c hc => hall c ((hlist c).mp hc)) hwhy
  | @created idx copied hall hgood hidx hfree hstr hmem =>
      have hne : idx ≠ 0 := (ne_of_free h.root.1 hfree).symm
      have hok : NodesOk (linkNew t idx copied false 0) (Function.update kids 0 (idx :: kids 0)) :=
        h.created h.root hidx hfree (hstr ▸ hgood.1) hmem (by rw [hstr]; exact hall)
      have hc : idx ∈ Function.update kids 0 (idx :: kids 0) 0 :=
        mem_linkedKids.mpr (Or.inl ⟨rfl, rfl⟩)
      have hname : (linkNew t idx copied false 0 idx).nameStr = name :=
        (linkNew_nameStr hne).trans hstr
      have hfind := hok.find_eq hc
      rw [hname] at hfind
      obtain ⟨node, hnode⟩ := writeText_defined (linkNew t idx copied false 0 idx) text 0
        (by decide)
      have hwrite := ramfsWrite_found (some text) false htouch hfind
      simp only [Option.getD_some, Bool.false_eq_true, if_false, hnode, Option.map_some] at hwrite
      have hentry := entryAt_overwritten hok hc hnode
      rw [hname, linkNew_self hne] at hentry
      rw [hwrite]
      refine .created (h.entryAt_none h.root hnul hall) hgood (fun hfull => ?_)
        (hok.update (writeText_links hnode)) (h.write_sameEntries hnul hwrite) hentry
      rw [hfull idx hidx] at hfree
      cases hfree

end Entries

end RoninOS.Fs
