/-
RoninOS.Mem.PagingRuns — sequences of `map_page` and `unmap_page` against an
abstract address space.

An `AddressSpace` is a partial map from page numbers to frame numbers. Each
call is one update of it: an aligned `map_page` sets one page, an aligned
`unmap_page` clears one, and a call with an unaligned argument leaves it as it
is. The page tables represent an address space (`Represents`), every call that
does not exhaust the table pool keeps them at the updated one
(`pagingStep_represents`), and `translate` is its lookup, so any run from a
cleared directory refines the run on address spaces (`paging_refines_map`).
-/
import RoninOS.Mem.PagingTheorems

namespace RoninOS.Mem

open RoninOS.Lib

/-! ## The calls -/

/-- A call of `map_page` or `unmap_page` with its 32-bit arguments. -/
inductive PagingOp
  | map (virt phys flags : UInt32)
  | unmap (virt : UInt32)

/-- One call: its return value (0 for `unmap_page`, which returns nothing) and
the page tables after it. -/
def pagingStep (pool : TablePool) (p : Paging) : PagingOp → Option (Int × Paging)
  | .map virt phys flags => mapPage pool p virt.toNat phys.toNat flags.toNat
  | .unmap virt => some (0, unmapPage p virt.toNat)

/-- A sequence of calls; `none` where `alloc_table` panics. -/
def pagingRun (pool : TablePool) : List PagingOp → Paging → Option (List Int × Paging)
  | [], p => some ([], p)
  | op :: ops, p =>
      (pagingStep pool p op).bind fun (ret, p) =>
        (pagingRun pool ops p).map fun (rets, p) => (ret :: rets, p)

/-! ## Address spaces -/

/-- A partial map from page numbers to frame numbers. -/
abbrev AddressSpace := Nat → Option Nat

/-- What a call means for an address space. -/
def spaceStep (m : AddressSpace) : PagingOp → Int × AddressSpace
  | .map virt phys _ =>
      if virt.toNat % 4096 = 0 ∧ phys.toNat % 4096 = 0 then
        (0, Function.update m (virt.toNat / 4096) (some (phys.toNat / 4096)))
      else (-1, m)
  | .unmap virt =>
      (0, if virt.toNat % 4096 = 0 then Function.update m (virt.toNat / 4096) none else m)

/-- What a sequence of calls means for an address space. -/
def spaceRun : List PagingOp → AddressSpace → List Int × AddressSpace
  | [], m => ([], m)
  | op :: ops, m =>
      let (ret, m) := spaceStep m op
      let (rets, m) := spaceRun ops m
      (ret :: rets, m)

/-- The address that `a` translates to; 0 where its page is not mapped. -/
def spaceTranslate (m : AddressSpace) (a : UInt32) : Nat :=
  match m (a.toNat / 4096) with
  | none => 0
  | some frame => frame * 4096 + a.toNat % 4096

/-! ## Simulation -/

/-- Good page tables whose page map is the address space. -/
structure Represents (pool : TablePool) (p : Paging) (m : AddressSpace) : Prop where
  ok : PagingOk pool p
  pages : ∀ page, pageMap p page = (m page).map (· * 4096)

section Simulation

variable {pool : TablePool} {p : Paging} {m : AddressSpace}

/-- A cleared directory is the empty address space, whatever the tables of the
pool hold and however many of them are in use. -/
theorem Represents.cleared (hdir : p.directory = fun _ => 0)
    (hused : p.tablesUsed ≤ maxBootstrapTables) : Represents pool p fun _ => none := by
  have habsent : ∀ d, p.directory d &&& pagePresent = 0 := fun d => by simp [hdir]
  have hentry : ∀ page, pageEntry p page = 0 := fun page => if_pos (habsent _)
  refine ⟨⟨hused, fun d hd => absurd (habsent d) hd, fun d d' hd => absurd (habsent d) hd,
    fun page => ?_⟩, fun page => ?_⟩
  · rw [hentry]
    decide
  · rw [pageMap, hentry]
    rfl

/-- `translate` looks the address up in the address space. -/
theorem Represents.translate_eq (h : Represents pool p m) (a : UInt32) :
    translate p a.toNat = spaceTranslate m a := by
  rw [RoninOS.Mem.translate_eq h.ok a.toNat_lt, h.pages, spaceTranslate]
  cases m (a.toNat / 4096) with
  | none => rfl
  | some frame => rfl

/-- `unmap_page` clears an aligned page and ignores an unaligned address. -/
theorem unmapPage_spec (h : PagingOk pool p) {virt : Nat} (hv : virt < 2 ^ 32) :
    PagingOk pool (unmapPage p virt) ∧ pageMap (unmapPage p virt)
      = if virt % 4096 = 0 then Function.update (pageMap p) (virt / 4096) none
        else pageMap p := by
  unfold unmapPage
  rw [and_offset_mask]
  by_cases halign : virt % 4096 = 0
  · rw [if_neg (by omega), if_pos halign]
    rcases findTable_eq h hv with ⟨h0, hd⟩ | ⟨h0, hd, heq⟩
    · -- the page had no table, so it was not mapped
      simp only [h0, if_true]
      refine ⟨h, (Function.update_eq_self_iff.mpr ?_).symm⟩
      rw [pageMap, pageEntry, if_pos hd]
      rfl
    · simp only [if_neg h0]
      have hindex : ptIndex virt < 1024 := by
        rw [ptIndex_eq]
        omega
      have hentry : ∀ page, pageEntry (p.setEntry (findTable p virt) (ptIndex virt) 0) page
          = if page = virt / 4096 then 0 else pageEntry p page := by
        intro page
        rw [heq, pageEntry_setEntry h hindex hd, ptIndex_eq,
          show virt / 4096 / 1024 * 1024 + virt / 4096 % 1024 = virt / 4096 by omega]
      refine ⟨⟨h.used_le, h.table_of, h.inj, fun page => ?_⟩, ?_⟩
      · rw [hentry]
        split
        · decide
        · exact h.entry_lt page
      · funext page
        unfold pageMap
        rw [hentry]
        by_cases hpage : page = virt / 4096
        · rw [if_pos hpage, hpage, Function.update_self]
          rfl
        · rw [if_neg hpage, Function.update_of_ne hpage]
  · rw [if_pos halign, if_neg halign]
    exact ⟨h, rfl⟩

/-- One call takes tables of an address space to tables of the updated one. -/
theorem pagingStep_represents (h : Represents pool p m) {op : PagingOp} {ret : Int}
    {p' : Paging} (hstep : pagingStep pool p op = some (ret, p')) :
    ret = (spaceStep m op).1 ∧ Represents pool p' (spaceStep m op).2 := by
  cases op with
  | map virt phys flags =>
      rcases mapPage_spec h.ok virt.toNat_lt phys.toNat_lt hstep with
        ⟨rfl, rfl, hbad⟩ | ⟨rfl, hvirt, hphys, hok, hpages⟩
      · rw [spaceStep, if_neg (by omega)]
        exact ⟨rfl, h⟩
      · rw [spaceStep, if_pos ⟨hvirt, hphys⟩]
        refine ⟨rfl, hok, fun page => ?_⟩
        simp only [hpages]
        by_cases hpage : page = virt.toNat / 4096
        · rw [hpage, Function.update_self, Function.update_self, Option.map_some]
          exact congrArg some (by omega)
        · rw [Function.update_of_ne hpage, Function.update_of_ne hpage, h.pages]
  | unmap virt =>
      obtain ⟨hok, hpages⟩ := unmapPage_spec h.ok virt.toNat_lt
      obtain ⟨rfl, rfl⟩ := Prod.mk.inj (Option.some.inj hstep)
      refine ⟨rfl, hok, fun page => ?_⟩
      rw [hpages, spaceStep]
      by_cases halign : virt.toNat % 4096 = 0
      · simp only [if_pos halign]
        by_cases hpage : page = virt.toNat / 4096
        · rw [hpage, Function.update_self, Function.update_self, Option.map_none]
        · rw [Function.update_of_ne hpage, Function.update_of_ne hpage, h.pages]
      · simp only [if_neg halign]
        exact h.pages page

/-- A run of calls follows the run on address spaces. -/
theorem pagingRun_represents : ∀ {ops : List PagingOp} {p : Paging} {m : AddressSpace}
    {rets : List Int} {p' : Paging}, Represents pool p m →
    pagingRun pool ops p = some (rets, p') →
    rets = (spaceRun ops m).1 ∧ Represents pool p' (spaceRun ops m).2
  | [], p, m, rets, p', h, hrun => by
      obtain ⟨rfl, rfl⟩ := Prod.mk.inj (Option.some.inj hrun)
      exact ⟨rfl, h⟩
  | op :: ops, p, m, rets, p', h, hrun => by
      rw [pagingRun, Option.bind_eq_some_iff] at hrun
      obtain ⟨⟨ret, q⟩, hstep, hrest⟩ := hrun
      rw [Option.map_eq_some_iff] at hrest
      obtain ⟨⟨rest, q'⟩, hrest, heq⟩ := hrest
      obtain ⟨rfl, rfl⟩ := Prod.mk.inj heq
      obtain ⟨hret, hq⟩ := pagingStep_represents h hstep
      obtain ⟨hrets, hq'⟩ := pagingRun_represents hq hrest
      exact ⟨by rw [hret, hrets]; rfl, hq'⟩

end Simulation

/-- Any sequence of calls from a cleared directory that does not exhaust the
table pool returns what the address space says, and `translate` then is its
lookup at every address. -/
theorem paging_refines_map {pool : TablePool} {p p' : Paging} {ops : List PagingOp}
    {rets : List Int} (hdir : p.directory = fun _ => 0)
    (hused : p.tablesUsed ≤ maxBootstrapTables)
    (hrun : pagingRun pool ops p = some (rets, p')) :
    rets = (spaceRun ops fun _ => none).1 ∧
    ∀ a : UInt32, translate p' a.toNat = spaceTranslate (spaceRun ops fun _ => none).2 a := by
  obtain ⟨hrets, hend⟩ := pagingRun_represents (Represents.cleared hdir hused) hrun
  exact ⟨hrets, fun a => hend.translate_eq a⟩

/-- The page tables before the first call, with the pool's tables not cleared. -/
def clearedPaging : Paging :=
  { directory := fun _ => 0, tables := fun _ _ => 0xFFFFFFFF, tablesUsed := 0, enabled := true }

/-- A table pool at 2 MiB. -/
def lowPool : TablePool where
  base := 0x200000
  aligned := by decide
  pos := by decide
  fits := by decide

theorem paging_refines_map_remap : ∃ rets p',
    pagingRun lowPool [.map 0x400000 0x7000 3, .map 0x401000 0x8000 3, .unmap 0x400000]
      clearedPaging = some (rets, p') ∧ rets = [0, 0, 0] ∧ translate p' 0x401234 = 0x8234 ∧
      translate p' 0x400234 = 0 := by
  refine ⟨_, _, rfl, ?_⟩
  obtain ⟨hrets, htrans⟩ := @paging_refines_map lowPool clearedPaging _
    [.map 0x400000 0x7000 3, .map 0x401000 0x8000 3, .unmap 0x400000] _ rfl (by decide) rfl
  exact ⟨hrets, (htrans 0x401234).trans (by decide), (htrans 0x400234).trans (by decide)⟩

/-- An `unmap_page` of an unaligned address does not unmap its page. -/
theorem unmapPage_unaligned_keeps : ∃ rets p',
    pagingRun lowPool [.map 0x400000 0x7000 3, .unmap 0x400004] clearedPaging = some (rets, p') ∧
      rets = [0, 0] ∧ translate p' 0x400004 = 0x7004 :=
  ⟨_, _, rfl, rfl, by decide⟩

end RoninOS.Mem
