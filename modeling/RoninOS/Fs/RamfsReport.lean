/-
RoninOS.Fs.RamfsReport — what the result of `ramfs_write` says.

`app_fs.c` expects four results: 0 for a stored text, 1 for a cut one, -2 for a
full table and -1 for a bad name. `ramfs_write` returns 0 or -1 alone, and puts
texts into directories too. Its result is right exactly where none of the other
two is due and the name is not one of a directory (`ramfsWrite_reports_iff`).
-/
import RoninOS.Fs.RamfsCalls
import RoninOS.Fs.RamfsStrings

namespace RoninOS.Fs

open RoninOS.Lib

/-! ## Results -/

/-- The bytes that `ramfs_read` gives for a name. -/
def ramfsContents (t : RamfsTable) (name : List UInt8) : Option (List UInt8) :=
  (ramfsRead t name).map fun (data, size) => data.bytes.take size

/-- What `ramfs_write` has to keep. -/
def keptContents (t : RamfsTable) (name : List UInt8) (append : Bool) : List UInt8 :=
  if append then (ramfsContents t name).getD [] else []

/-- The root directory does not list the name. -/
def NameAbsent (t : RamfsTable) (name : List UInt8) : Prop :=
  ∀ c, Lists t 0 c → (t c).nameStr ≠ name

/-- No node is free. -/
def TableFull (t : RamfsTable) : Prop := ∀ i < ramfsMaxNodes, (t i).used = true

/-- The name is one of a directory. -/
def NamesDir (t : RamfsTable) (name : List UInt8) : Prop :=
  ∃ c, Lists t 0 c ∧ (t c).nameStr = name ∧ (t c).isDir = true

/-- A result of `ramfs_write` as `app_fs_main` reads it; the table was `t`. -/
structure TellsTruth (t : RamfsTable) (name text : List UInt8) (append : Bool) (ret : Int)
    (t' : RamfsTable) : Prop where
  stored : ret = 0 → ramfsContents t' name = some (keptContents t name append ++ text)
  cut : ret = 1 ↔ ∃ k < text.length,
    ramfsContents t' name = some (keptContents t name append ++ text.take k)
  full : ret = -2 ↔ RamfsName name ∧ NameAbsent t name ∧ TableFull t
  refused : ret = -1 ↔ ¬ RamfsName name ∨ NamesDir t name
  unchanged : ret = -1 → Unchanged t t'

/-- `ramfs_write` is defined and its result is right. -/
def ReportsRight (t : RamfsTable) (name text : List UInt8) (append : Bool) : Prop :=
  ∃ ret t', ramfsWrite t name (some text) append = some (ret, t') ∧
    TellsTruth t name text append ret t'

/-- A good name is one of a file that has room for the text, or is not there
and a node is free for it. -/
def HasRoom (t : RamfsTable) (name text : List UInt8) (append : Bool) : Prop :=
  RamfsName name →
    (∀ c, Lists t 0 c → (t c).nameStr = name → (t c).isDir = false ∧
      (if append then (t c).size else 0) + text.length < ramfsMaxContent) ∧
    (NameAbsent t name → text.length < ramfsMaxContent ∧ ¬ TableFull t)

/-! ## Contents -/

section Contents

variable {t t' : RamfsTable} {kids : Nat → List Nat} {name : List UInt8}

theorem NodesOk.ramfsContents_file (h : NodesOk t kids) {c : Nat} (hc : c ∈ kids 0)
    (hfile : (t c).isDir = false) : ramfsContents t (t c).nameStr = some (contents (t c)) := by
  rw [ramfsContents, ramfsRead, h.find_eq hc]
  simp only [Int.toNat_natCast, if_neg (show ¬ (c : Int) < 0 by omega), hfile]
  rfl

theorem NodesOk.ramfsContents_absent (h : NodesOk t kids) (hnul : 0 ∉ name)
    (hall : ∀ c ∈ kids 0, (t c).nameStr ≠ name) : ramfsContents t name = none := by
  rw [ramfsContents, ramfsRead]
  rcases h.find_cases h.root hnul with ⟨hfind, -⟩ | ⟨c, hc, hname, -⟩
  · rw [hfind]
    rfl
  · exact absurd hname (hall c hc)

/-- The bytes before `off` are the ones to keep. -/
theorem NodesOk.keptContents_file (h : NodesOk t kids) {c : Nat} (hc : c ∈ kids 0)
    (hfile : (t c).isDir = false) (hsize : (t c).size ≤ ramfsMaxContent) (append : Bool) :
    keptContents t (t c).nameStr append
      = (contents (t c)).take (if append then (t c).size else 0) := by
  cases append with
  | true =>
      rw [keptContents, if_pos rfl, if_pos rfl, h.ramfsContents_file hc hfile, Option.getD_some,
        List.take_of_length_le (length_contents hsize).le]
  | false => rfl

/-- What `ramfs_read` gives after a copy into a file. -/
theorem NodesOk.ramfsContents_copied (h : NodesOk t kids) {c off : Nat} (hc : c ∈ kids 0)
    (hfile : (t c).isDir = false) (hoff : off ≤ (t c).size) {text : List UInt8} {node : RamfsNode}
    (hwrite : writeText (t c) text off = some node) :
    ramfsContents (Function.update t c node) (t c).nameStr
      = some ((contents (t c)).take off ++ text.take (ramfsMaxContent - 1 - off)) := by
  have hlinks := writeText_links hwrite
  have hself := Function.update_self c node t
  have hfound := (h.update hlinks).ramfsContents_file hc (by rw [hself, hlinks.isDir, hfile])
  rw [hself, hlinks.nameStr] at hfound
  rw [hfound, contents_writeText hoff hwrite]

end Contents

/-! ## Reports -/

section Reports

variable {t t' t₁ : RamfsTable} {kids kids₁ : Nat → List Nat} {name text : List UInt8}
  {append : Bool}

/-- Where `ramfs_write` copies into a file, its result is right exactly where the text fits. -/
theorem reportsRight_copied (h₁ : NodesOk t₁ kids₁) {c off : Nat} (hc : c ∈ kids₁ 0)
    (hname : (t₁ c).nameStr = name) (hfile : (t₁ c).isDir = false)
    (hsize : (t₁ c).size ≤ ramfsMaxContent) (hoff : off ≤ (t₁ c).size)
    (hkept : keptContents t name append = (contents (t₁ c)).take off)
    (hwrite : ramfsWrite t name (some text) append
      = (writeText (t₁ c) text off).map fun node => (0, Function.update t₁ c node))
    (hgood : RamfsName name) (hnodir : ¬ NamesDir t name)
    (hfree : NameAbsent t name → ¬ TableFull t) :
    ReportsRight t name text append ↔ off + text.length < ramfsMaxContent := by
  have hlen := length_contents hsize
  have hread : ∀ {node}, writeText (t₁ c) text off = some node →
      ramfsContents (Function.update t₁ c node) name
        = some (keptContents t name append ++ text.take (ramfsMaxContent - 1 - off)) := by
    intro node hnode
    rw [hkept, ← hname]
    exact h₁.ramfsContents_copied hc hfile hoff hnode
  constructor
  · rintro ⟨ret, t', hsome, htruth⟩
    rw [hwrite] at hsome
    obtain ⟨node, hnode, heq⟩ := Option.map_eq_some_iff.mp hsome
    obtain ⟨rfl, rfl⟩ := Prod.mk.inj heq
    have hall := htruth.stored rfl
    rw [hread hnode] at hall
    have hlength := congrArg List.length (List.append_cancel_left (Option.some.inj hall))
    have hoff' : ¬ (off + text.length ≥ ramfsMaxContent ∧ off > ramfsMaxContent - 1) := by
      intro hover
      rw [writeText, if_pos hover] at hnode
      cases hnode
    have hmax : ramfsMaxContent = 512 := rfl
    rw [List.length_take] at hlength
    omega
  · intro hfits
    obtain ⟨node, hnode⟩ := writeText_defined (t₁ c) text off (by omega)
    have hfound := hread hnode
    rw [List.take_of_length_le (by omega)] at hfound
    refine ⟨0, _, by rw [hwrite, hnode]; rfl, fun _ => hfound, ?_, ?_, ?_,
      fun hret => absurd hret (by decide)⟩
    · refine iff_of_false (by decide) ?_
      rintro ⟨k, hk, hcut⟩
      rw [hfound] at hcut
      have hlength := congrArg List.length (List.append_cancel_left (Option.some.inj hcut))
      rw [List.length_take] at hlength
      omega
    · exact iff_of_false (by decide) fun hfull => hfree hfull.2.1 hfull.2.2
    · exact iff_of_false (by decide) fun hbad => hbad.elim (fun hn => hn hgood) hnodir

/-- A text put into a directory is reported as stored. -/
theorem NodesOk.not_reportsRight_dir (h : NodesOk t kids) {c : Nat} (hc : c ∈ kids 0)
    (hname : (t c).nameStr = name) (hdir : (t c).isDir = true)
    (htouch : ramfsTouch t name = (0, t)) : ¬ ReportsRight t name text append := by
  rintro ⟨ret, t', hsome, htruth⟩
  have hfind := h.find_eq hc
  rw [hname] at hfind
  rw [ramfsWrite_found (some text) append htouch hfind] at hsome
  obtain ⟨node, -, heq⟩ := Option.map_eq_some_iff.mp hsome
  obtain ⟨rfl, rfl⟩ := Prod.mk.inj heq
  have hlist := (h.lists_iff h.root).mpr hc
  exact absurd (htruth.refused.mpr (Or.inr ⟨c, hlist, hname, hdir⟩)) (by decide)

/-- A name that is there. -/
theorem CallsOk.reports_present (h : CallsOk t kids) {c : Nat} (hc : c ∈ kids 0)
    (hname : (t c).nameStr = name) (htouch : ramfsTouch t name = (0, t)) :
    ReportsRight t name text append ↔ HasRoom t name text append := by
  have hlist : ∀ c, Lists t 0 c ↔ c ∈ kids 0 := fun c => h.nodes.lists_iff h.nodes.root
  have hthere := (hlist c).mpr hc
  have hgood : RamfsName name := hname ▸ h.nodes.ramfsName hc
  cases hdir : (t c).isDir with
  | true =>
      refine iff_of_false (h.nodes.not_reportsRight_dir hc hname hdir htouch) fun hroom => ?_
      have hfile := ((hroom hgood).1 c hthere hname).1
      rw [hdir] at hfile
      cases hfile
  | false =>
      have hsize := h.size_le c (h.nodes.child 0 c hc).1
      have hfind := h.nodes.find_eq hc
      rw [hname] at hfind
      have honly : ∀ c', Lists t 0 c' → (t c').nameStr = name → c' = c := fun c' hc' hn =>
        h.nodes.names 0 c' ((hlist c').mp hc') c hc (hn.trans hname.symm)
      rw [reportsRight_copied h.nodes hc hname hdir hsize (by split <;> omega)
        (hname ▸ h.nodes.keptContents_file hc hdir hsize append)
        (ramfsWrite_found (some text) append htouch hfind) hgood ?_
        fun habsent => absurd hname (habsent c hthere)]
      · constructor
        · intro hfits _
          refine ⟨fun c' hc' hn => ?_, fun habsent => absurd hname (habsent c hthere)⟩
          rw [honly c' hc' hn]
          exact ⟨hdir, hfits⟩
        · exact fun hroom => ((hroom hgood).1 c hthere hname).2
      · rintro ⟨c', hc', hn, hdir'⟩
        rw [honly c' hc' hn, hdir] at hdir'
        cases hdir'

/-- A name that `ramfs_touch` refuses: -1 is right for a bad name alone. -/
theorem NodesOk.reports_refused (h : NodesOk t kids) (hnul : 0 ∉ name)
    (hall : ∀ c ∈ kids 0, (t c).nameStr ≠ name) {ret : Int} (hret : ret < 0)
    (hwhy : ¬ RamfsName name ∨ TableFull t) (hsame : Unchanged t t')
    (htouch : ramfsTouch t name = (ret, t')) :
    ReportsRight t name text append ↔ HasRoom t name text append := by
  have hwrite : ramfsWrite t name (some text) append = some (-1, (ramfsTouch t name).2) :=
    ramfsWrite_refused _ append (by rw [htouch]; exact hret)
  rw [htouch] at hwrite
  have habsent : NameAbsent t name := fun c hc => hall c ((h.lists_iff h.root).mp hc)
  by_cases hgood : RamfsName name
  · have hfull := hwhy.resolve_left fun hbad => hbad hgood
    refine iff_of_false ?_ fun hroom => ((hroom hgood).2 habsent).2 hfull
    rintro ⟨ret', t₁, hsome, htruth⟩
    obtain ⟨rfl, -⟩ := Prod.mk.inj (Option.some.inj (hwrite.symm.trans hsome))
    exact absurd (htruth.full.mpr ⟨hgood, habsent, hfull⟩) (by decide)
  · have hnone : ramfsContents t' name = none := by
      refine (h.unchanged hsame).ramfsContents_absent hnul fun c hc => ?_
      rw [hsame.eq_of_used (h.child 0 c hc).1]
      exact hall c hc
    refine iff_of_true ⟨-1, t', hwrite, fun hret => absurd hret (by decide), ?_, ?_, ?_,
      fun _ => hsame⟩ fun hgood' => absurd hgood' hgood
    · refine iff_of_false (by decide) ?_
      rintro ⟨k, -, hcut⟩
      rw [hnone] at hcut
      cases hcut
    · exact iff_of_false (by decide) fun hfull => hgood hfull.1
    · exact iff_of_true rfl (Or.inl hgood)

/-- A name that gets a new node. -/
theorem NodesOk.reports_created (h : NodesOk t kids) (hnul : 0 ∉ name)
    (hall : ∀ c ∈ kids 0, (t c).nameStr ≠ name) (hgood : RamfsName name) {idx : Nat}
    {copied : Buffer ramfsMaxName} (hidx : idx < ramfsMaxNodes) (hfree : (t idx).used = false)
    (hstr : copied.str = name) (hmem : 0 ∈ copied.bytes)
    (htouch : ramfsTouch t name = (0, linkNew t idx copied false 0)) :
    ReportsRight t name text append ↔ HasRoom t name text append := by
  have hne : idx ≠ 0 := (ne_of_free h.root.1 hfree).symm
  have hself := @linkNew_self t _ _ copied false hne
  have hok₁ : NodesOk (linkNew t idx copied false 0) (Function.update kids 0 (idx :: kids 0)) :=
    h.created h.root hidx hfree (hstr ▸ hgood.1) hmem (by rw [hstr]; exact hall)
  have hc : idx ∈ Function.update kids 0 (idx :: kids 0) 0 := mem_linkedKids.mpr (Or.inl ⟨rfl, rfl⟩)
  have hname : (linkNew t idx copied false 0 idx).nameStr = name := (linkNew_nameStr hne).trans hstr
  have hfind := hok₁.find_eq hc
  rw [hname] at hfind
  have habsent : NameAbsent t name := fun c hc => hall c ((h.lists_iff h.root).mp hc)
  have hsize : (linkNew t idx copied false 0 idx).size = 0 := by rw [hself]; rfl
  have hfile : (linkNew t idx copied false 0 idx).isDir = false := by rw [hself]; rfl
  have hkept : keptContents t name append = [] := by
    rw [keptContents, h.ramfsContents_absent hnul hall]
    split <;> rfl
  have hroom : ¬ TableFull t := by
    intro hfull
    rw [hfull idx hidx] at hfree
    cases hfree
  have hwrite := ramfsWrite_found (some text) append htouch hfind
  rw [hsize, ite_self] at hwrite
  rw [reportsRight_copied hok₁ hc hname hfile (by omega) (Nat.zero_le _) hkept hwrite hgood
    (fun ⟨c, hc, hn, _⟩ => habsent c hc hn) fun _ => hroom, Nat.zero_add]
  constructor
  · exact fun hfits _ => ⟨fun c hc hn => absurd hn (habsent c hc), fun _ => ⟨hfits, hroom⟩⟩
  · exact fun hhas => ((hhas hgood).2 habsent).1

end Reports

/-- The result of `ramfs_write` is right exactly where the name is bad, or a file
or a free node has room for the text. -/
theorem ramfsWrite_reports_iff {t : RamfsTable} (h : RamfsState t) (name text : CString)
    (append : Bool) :
    ReportsRight t name.bytes text.bytes append ↔ HasRoom t name.bytes text.bytes append := by
  obtain ⟨kids, hok⟩ := h.callsOk
  have houtcome := hok.nodes.touch_outcome name.noNul
  generalize htouch : ramfsTouch t name.bytes = r at houtcome
  cases houtcome with
  | present hc hname => exact hok.reports_present hc hname htouch
  | refused hall hret hwhy hsame =>
      exact hok.nodes.reports_refused name.noNul hall hret hwhy hsame htouch
  | created hall hgood hidx hfree hstr hmem =>
      exact hok.nodes.reports_created name.noNul hall hgood hidx hfree hstr hmem htouch

/-- A text of 512 bytes. -/
def longText : CString :=
  ⟨List.replicate 512 97, fun h => absurd (List.eq_of_mem_replicate h) (by decide)⟩

theorem ramfsWrite_reports_long :
    ReportsRight ramfsInit nameF.bytes longText.bytes false ↔
      HasRoom ramfsInit nameF.bytes longText.bytes false :=
  ramfsWrite_reports_iff .init nameF longText false

/-- It is cut by a byte, with result 0. -/
theorem ramfsWrite_hides_cut :
    RamfsState ramfsInit ∧ ¬ ReportsRight ramfsInit nameF.bytes longText.bytes false := by
  refine ⟨.init, ?_⟩
  rintro ⟨ret, t', hsome, htruth⟩
  have heval : (ramfsWrite ramfsInit nameF.bytes (some longText.bytes) false).map (fun r =>
      (r.1, (ramfsContents r.2 nameF.bytes).map List.length)) = some (0, some 511) := by
    decide +kernel
  rw [hsome, Option.map_some] at heval
  obtain ⟨rfl, hlength⟩ := Prod.mk.inj (Option.some.inj heval)
  have hlong : longText.bytes.length = 512 := List.length_replicate
  rw [htruth.stored rfl, Option.map_some, List.length_append, hlong] at hlength
  exact absurd hlength (by decide)

end RoninOS.Fs
