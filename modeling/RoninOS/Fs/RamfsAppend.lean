/-
RoninOS.Fs.RamfsAppend — where `ramfs_write` stops copying.

`ramfs_write` cuts the text to `RAMFS_MAX_CONTENT - 1 - off` bytes, an unsigned
difference that is right as long as `off` leaves a byte for the NUL. It always
leaves one itself; `fs_write` fills files to the last byte. So over a run the
copies stay within `data` exactly where no `fs_write` fills a file of the root
directory (`append_fits_iff`).
-/
import RoninOS.Fs.RamfsCalls
import RoninOS.Fs.RamfsStrings
import RoninOS.Lib.Word32

namespace RoninOS.Fs

open RoninOS.Lib

/-! ## The copy -/

/-- The `len` bytes that `ramfs_write` copies to `off`, of a text of `len`;
the difference wraps as `size_t` does. -/
def copyLength (off len : Nat) : Nat :=
  if off + len ≥ ramfsMaxContent then sub32 (ramfsMaxContent - 1) off else len

/-- The copy to `off` and the NUL after it stay within `data`, and the
difference does not underflow. -/
structure CopyFits (off len : Nat) : Prop where
  no_underflow : off ≤ ramfsMaxContent - 1
  copy : off + copyLength off len ≤ ramfsMaxContent - 1
  terminator : off + copyLength off len < ramfsMaxContent

/-- `off` of `ramfs_write`. -/
def writeOffset (node : RamfsNode) (append : Bool) : Nat := if append then node.size else 0

theorem copyFits_iff {off len : Nat} : CopyFits off len ↔ off < ramfsMaxContent := by
  have hmax : ramfsMaxContent = 512 := rfl
  refine ⟨fun h => by have := h.no_underflow; omega, fun h => ?_⟩
  have hcopy : off + copyLength off len ≤ ramfsMaxContent - 1 := by
    unfold copyLength
    split
    · rw [sub32_of_le (by omega) (by omega)]
      omega
    · omega
  exact ⟨by omega, hcopy, by omega⟩

/-- What `ramfs_write` leaves of a node, in terms of `copyLength`. -/
theorem writeText_eq (node : RamfsNode) (text : List UInt8) {off : Nat}
    (h : CopyFits off text.length) :
    writeText node text off = some { node with
      data := (node.data.write off (text.take (copyLength off text.length))).write
        (off + copyLength off text.length) [0]
      size := off + copyLength off text.length } := by
  have hmax : ramfsMaxContent = 512 := rfl
  have hoff := h.no_underflow
  unfold writeText copyLength
  rw [if_neg (by omega), sub32_of_le hoff (by omega)]

/-! ## Runs -/

/-- `ramfs_write` stays within the files of the root directory, whatever the text. -/
def AppendFits (t : RamfsTable) : Prop :=
  ∀ c, InRootDir t c → ∀ (text : CString) (append : Bool),
    CopyFits (writeOffset (t c) append) (strlen text.bytes)

/-- An `fs_write` on a file of the root directory ends before the last byte of `data`. -/
def LeavesRoom (t : RamfsTable) : RamfsCall → Prop
  | .put node offset buf =>
      InRootDir t node → min offset (t node).size + buf.length < ramfsMaxContent
  | _ => True

section Runs

variable {t t' : RamfsTable} {kids kids' : Nat → List Nat}

/-- The copies fit exactly where the files of the root directory have room for a NUL. -/
theorem NodesOk.appendFits_iff (h : NodesOk t kids) :
    AppendFits t ↔ ∀ c ∈ kids 0, (t c).isDir = false → (t c).size < ramfsMaxContent := by
  constructor
  · intro hfits c hc hfile
    exact copyFits_iff.mp (hfits c (h.inRootDir_iff.mpr ⟨hc, hfile⟩) ⟨[], List.not_mem_nil⟩ true)
  · intro hroom c hc text append
    obtain ⟨hmem, hfile⟩ := h.inRootDir_iff.mp hc
    refine copyFits_iff.mpr ?_
    cases append with
    | true => exact hroom c hmem hfile
    | false => exact show 0 < ramfsMaxContent by decide

/-- A call that leaves room keeps the room in the root directory. -/
theorem CallChange.size_lt {call : RamfsCall} (h : NodesOk t kids)
    (hchange : CallChange t kids call t' kids') (hroom : LeavesRoom t call)
    (hsize : ∀ c ∈ kids 0, (t c).size < ramfsMaxContent) :
    ∀ c ∈ kids' 0, (t' c).size < ramfsMaxContent := by
  cases hchange with
  | create hmakes => exact hmakes.size_lt h hsize
  | @put node offset buf =>
      cases hdir : (t node).isDir with
      | true =>
          rw [fsWrite, if_pos hdir]
          exact hsize
      | false =>
          rw [congrArg Prod.snd (fsWrite_eq_update hdir offset buf)]
          intro i hi
          have hold := hsize i hi
          by_cases hin : i = node
          · subst hin
            have hlen := hroom (h.inRootDir_iff.mpr ⟨hi, hdir⟩)
            simp only [Function.update_self, writeBytes, List.length_take]
            omega
          · simp only [Function.update_of_ne hin]
            exact hold
  | legacy hchange =>
      cases hchange with
      | makes hmakes => exact hmakes.size_lt h hsize
      | @wrote name text append t₁ _ c node hmakes _ _ hwrite =>
          intro i hi
          by_cases hic : i = c
          · rw [hic, Function.update_self]
            exact writeText_size_lt hwrite
          · rw [Function.update_of_ne hic]
            exact hmakes.size_lt h hsize i hi
      | @removed _ x _ hx _ _ hkeep _ =>
          intro i hi
          obtain ⟨hi, hix, -⟩ := (mem_removeKids h hx).mp hi
          rw [hkeep i hix]
          exact hsize i hi

/-- An `fs_write` that leaves no room fills a file. -/
theorem not_appendFits (h : NodesOk t kids) {node offset : Nat} {buf : List UInt8}
    (hfills : ¬ LeavesRoom t (.put node offset buf)) :
    ¬ AppendFits (fsWrite t node offset buf).2 := by
  intro hfits
  refine hfills fun hroot => ?_
  by_contra hfull
  obtain ⟨hmem, hfile⟩ := h.inRootDir_iff.mp hroot
  have hsize := (h.fsWrite node offset buf).appendFits_iff.mp hfits node hmem
  rw [congrArg Prod.snd (fsWrite_eq_update hfile offset buf)] at hsize
  simp only [Function.update_self, writeBytes, List.length_take] at hsize
  have hlt := hsize hfile
  omega

end Runs

/-- The copies of `ramfs_write` stay within the files of the root directory
throughout a run exactly where no `fs_write` of it fills such a file. -/
theorem append_fits_iff (calls : List RamfsCall) :
    AllStates ramfsNext AppendFits calls ramfsInit ↔
      AllCalls ramfsNext LeavesRoom calls ramfsInit := by
  refine allStates_iff (R := fun _ => True)
    (fun t => ∃ kids, CallsOk t kids ∧ ∀ c ∈ kids 0, (t c).size < ramfsMaxContent)
    ?_ ?_ ?_ ?_ ⟨_, ramfsInit_callsOk, fun c hc => absurd hc List.not_mem_nil⟩ fun _ _ => trivial
  · rintro t ⟨kids, h, hsize⟩
    exact h.nodes.appendFits_iff.mpr fun c hc _ => hsize c hc
  · rintro t call ⟨kids, h, hsize⟩ -
    cases call with
    | create dir name isDir => exact ⟨_, rfl⟩
    | put node offset buf => exact ⟨_, rfl⟩
    | legacy op =>
        obtain ⟨r, hstep⟩ := h.nodes.legacyStep_defined hsize op
        exact ⟨r.2, by rw [ramfsNext, hstep]; rfl⟩
  · rintro t call t' ⟨kids, h, hsize⟩ - hroom hnext
    obtain ⟨kids', hok, hchange⟩ := h.next hnext
    exact ⟨kids', hok, hchange.size_lt h.nodes hroom hsize⟩
  · rintro t call t' ⟨kids, h, hsize⟩ - hfills hnext
    cases call with
    | create dir name isDir => exact absurd trivial hfills
    | put node offset buf =>
        obtain rfl := Option.some.inj hnext
        exact not_appendFits h.nodes hfills
    | legacy op => exact absurd trivial hfills

/-- `f` is made in the root directory and filled. -/
def fillCalls : List RamfsCall :=
  [.create 0 nameF false, .put 1 0 (List.replicate 512 65)]

/-- After that an append of the empty text starts at `off` 512. -/
theorem ramfsWrite_underflows : ¬ AllStates ramfsNext AppendFits fillCalls ramfsInit := by
  intro hall
  have hnode : (fillCalls.foldlM ramfsNext ramfsInit).map (fun t =>
      ((t 0).firstChild, (t 1).nextSibling, (t 1).isDir, (t 1).size))
        = some (((1 : Nat) : Int), -1, false, 512) := by decide +kernel
  obtain ⟨t, hrun, hnode⟩ := Option.map_eq_some_iff.mp hnode
  simp only [Prod.mk.injEq] at hnode
  obtain ⟨hfirst, hnext, hfile, hsize⟩ := hnode
  have hlist : Lists t 0 1 := by
    refine ⟨[1], ?_, List.mem_singleton_self 1⟩
    rw [hfirst]
    refine .cons ?_
    rw [hnext]
    exact .nil
  have hfits := copyFits_iff.mp (hall.last hrun 1 ⟨hlist, hfile⟩ ⟨[], List.not_mem_nil⟩ true)
  rw [writeOffset, if_pos rfl, hsize] at hfits
  exact absurd hfits (by decide)

end RoninOS.Fs
