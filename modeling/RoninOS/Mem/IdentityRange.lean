/-
RoninOS.Mem.IdentityRange — which ranges `map_range_identity` maps.

The end of the range is rounded up in 32 bits. A range that meets the last page of
the address space wraps the end to 0, and one of nearly 4 GiB wraps it to its start;
the other ranges are mapped, or refused where they leave the address space.
-/
import RoninOS.Mem.PagingRuns
import Mathlib.Combinatorics.Pigeonhole

namespace RoninOS.Mem

open RoninOS.Lib

/-- The page tables that boot and the calls of `paging.c` reach. -/
inductive TablesReach (pool : TablePool) : Paging → Prop
  | boot (tables : Nat → Nat → Nat) :
      TablesReach pool { directory := fun _ => 0, tables, tablesUsed := 0, enabled := false }
  | mapRange {p p' : Paging} {physStart bytes flags : UInt32} {ret : Int} : TablesReach pool p →
      mapRangeIdentity pool p physStart.toNat bytes.toNat flags.toNat = some (ret, p') →
      TablesReach pool p'
  | enable {p : Paging} : TablesReach pool p → TablesReach pool { p with enabled := true }
  | call {p p' : Paging} {op : PagingOp} {ret : Int} : TablesReach pool p →
      pagingStep pool p op = some (ret, p') → TablesReach pool p'

/-- What `map_range_identity` should do with the range: when it returns 0 every page
that meets the range is mapped to itself, and it refuses no range of the address
space. The addresses are numbers, so the range does not wrap. -/
structure RangeMapped (physStart bytes : Nat) (ret : Int) (p' : Paging) : Prop where
  mapped : ret = 0 → ∀ a, physStart ≤ a → a < physStart + bytes →
    a < 2 ^ 32 ∧ pageMap p' (a / 4096) = some (4096 * (a / 4096))
  served : physStart + bytes ≤ 2 ^ 32 → ret ≠ -1

/-- The ranges whose rounded end is where it should be: the empty ones, those below
the last page, and those past 4 GiB whose end does not wrap to their start or
behind it. -/
def EndSound (physStart bytes : Nat) : Prop :=
  bytes = 0 ∨ physStart + bytes + 0xFFF < 2 ^ 32 ∨
  (2 ^ 32 < physStart + bytes ∧
    (physStart % 4096 + bytes + 0xFFF < 2 ^ 32 ∨ 2 ^ 33 ≤ physStart + bytes + 0xFFF))

section Tables

variable {pool : TablePool} {p p' : Paging}

theorem TablesReach.ok (hreach : TablesReach pool p) : PagingOk pool p := by
  induction hreach with
  | boot tables => exact PagingOk.empty pool tables
  | @mapRange p p' physStart bytes flags ret _ hmap ih =>
      exact (mapRangeIdentity_spec ih physStart.toNat_lt hmap).1
  | enable _ ih => exact ⟨ih.used_le, ih.table_of, ih.inj, ih.entry_lt⟩
  | @call p p' op ret _ hstep ih =>
      cases op with
      | map virt phys flags =>
          rcases mapPage_spec ih virt.toNat_lt phys.toNat_lt hstep with
            ⟨-, rfl, -⟩ | ⟨-, -, -, hok, -⟩
          · exact ih
          · exact hok
      | unmap virt =>
          obtain ⟨-, rfl⟩ := Prod.mk.inj (Option.some.inj hstep)
          exact (unmapPage_spec ih virt.toNat_lt).1

/-- The pool has 256 tables, so some entry of the directory has none. -/
theorem PagingOk.exists_absent (h : PagingOk pool p) :
    ∃ d < 1024, p.directory d &&& pagePresent = 0 := by
  by_contra hall
  have hpresent : ∀ d ∈ Finset.range 1024, p.directory d &&& pagePresent ≠ 0 := by
    intro d hd habsent
    exact hall ⟨d, Finset.mem_range.mp hd, habsent⟩
  -- each entry is the word of one of the tables in use
  have hmaps : ∀ d ∈ Finset.range 1024, p.directory d ∈
      (Finset.range maxBootstrapTables).image fun j => pool.base + 4096 * j ||| 3 := by
    intro d hd
    obtain ⟨j, hj, heq⟩ := h.table_of d (hpresent d hd)
    rw [heq]
    exact Finset.mem_image_of_mem _ (Finset.mem_range.mpr (Nat.lt_of_lt_of_le hj h.used_le))
  have hcard : ((Finset.range maxBootstrapTables).image
      fun j => pool.base + 4096 * j ||| 3).card < (Finset.range 1024).card := by
    refine Nat.lt_of_le_of_lt Finset.card_image_le ?_
    rw [Finset.card_range, Finset.card_range]
    decide
  obtain ⟨d, hd, d', -, hne, heq⟩ := Finset.exists_ne_map_eq_of_card_lt_of_maps_to hcard hmaps
  exact hne (h.inj d d' (hpresent d hd) heq)

/-- So no state maps the pages of every directory entry. -/
theorem PagingOk.exists_unmapped (h : PagingOk pool p) :
    ∃ d < 1024, pageMap p (d * 1024 + 1) = none := by
  obtain ⟨d, hd, habsent⟩ := h.exists_absent
  refine ⟨d, hd, ?_⟩
  rw [pageMap, pageEntry, show (d * 1024 + 1) / 1024 = d by omega, if_pos habsent]
  rfl

/-- A range is mapped as it should be exactly where its rounded end is sound. -/
theorem rangeMapped_iff (h : PagingOk pool p) {physStart bytes flags : Nat} {ret : Int}
    (hstart : physStart < 2 ^ 32) (hbytes : bytes < 2 ^ 32)
    (hmap : mapRangeIdentity pool p physStart bytes flags = some (ret, p')) :
    RangeMapped physStart bytes ret p' ↔ EndSound physStart bytes := by
  rcases mapRangeIdentity_cases h hstart hmap with
    ⟨rfl, rfl, -⟩ | ⟨hne, hend, rfl, -⟩ | ⟨hne, hend, rfl, -, hpages⟩
  · exact iff_of_true ⟨fun _ a h1 h2 => absurd h2 (by omega), fun _ => by decide⟩ (Or.inl rfl)
  · -- refused: right for the ranges past 4 GiB
    constructor
    · intro hspec
      have hpast : ¬ physStart + bytes ≤ 2 ^ 32 := fun hle => hspec.served hle rfl
      refine Or.inr (Or.inr ⟨by omega, ?_⟩)
      omega
    · intro hsound
      refine ⟨fun h0 => absurd h0 (by decide), fun hle => ?_⟩
      rcases hsound with h0 | hfit | ⟨hpast, -⟩
      · exact absurd h0 hne
      · omega
      · omega
  · constructor
    · intro hspec
      by_contra hunsound
      simp only [EndSound, not_or, not_and, not_lt, not_le] at hunsound
      obtain ⟨-, hwrap, hpast⟩ := hunsound
      by_cases hover : 2 ^ 32 < physStart + bytes
      · exact absurd (hspec.mapped rfl (2 ^ 32) (by omega) hover).1 (by decide)
      · -- the end wraps to 0, so nothing was mapped
        obtain ⟨d, hd, hnone⟩ := h.exists_unmapped
        have hpage := (hspec.mapped rfl (4096 * (d * 1024 + 1)) (by omega) (by omega)).2
        rw [Nat.mul_div_cancel_left _ (by decide), hpages, if_neg (by omega), hnone] at hpage
        exact absurd hpage (by simp)
    · intro hsound
      refine ⟨fun _ a h1 h2 => ?_, fun _ => by decide⟩
      have hfit : physStart + bytes + 0xFFF < 2 ^ 32 := by
        rcases hsound with h0 | hfit | ⟨hpast, hin⟩
        · exact absurd h0 hne
        · exact hfit
        · omega
      exact ⟨by omega, by rw [hpages, if_pos (by omega)]⟩

end Tables

/-- In every state of the page tables, `map_range_identity` maps a range as it should
if its rounded end is sound, and no other, as long as the table pool lasts. -/
theorem mapRangeIdentity_iff {pool : TablePool} {p p' : Paging} {ret : Int}
    {physStart bytes flags : UInt32} (hreach : TablesReach pool p)
    (hmap : mapRangeIdentity pool p physStart.toNat bytes.toNat flags.toNat = some (ret, p')) :
    RangeMapped physStart.toNat bytes.toNat ret p' ↔ EndSound physStart.toNat bytes.toNat :=
  rangeMapped_iff hreach.ok physStart.toNat_lt bytes.toNat_lt hmap

/-- The page tables as `paging_init` clears them. -/
def bootPaging : Paging :=
  { directory := fun _ => 0, tables := fun _ _ => 0, tablesUsed := 0, enabled := false }

/-- Three pages at 0xFD000000. -/
theorem mapRangeIdentity_iff_example : ∃ p',
    mapRangeIdentity lowPool bootPaging 0xFD000000 0x3000 3 = some (0, p') ∧
      RangeMapped 0xFD000000 0x3000 0 p' := by
  have hstart : UInt32.toNat 0xFD000000 = 0xFD000000 := by decide
  have hbytes : UInt32.toNat 0x3000 = 0x3000 := by decide
  have hflags : UInt32.toNat 3 = 3 := by decide
  have hiff := fun p' => @mapRangeIdentity_iff lowPool bootPaging p' 0 0xFD000000 0x3000 3 (.boot _)
  rw [hstart, hbytes, hflags] at hiff
  exact ⟨_, rfl, (hiff _ rfl).mpr (Or.inr (Or.inl (by decide)))⟩

/-- The last 4 MiB of the address space are refused, and of 2^32 - 1 bytes from
address 0 on nothing is mapped, with return value 0. -/
theorem mapRangeIdentity_wraps : TablesReach lowPool bootPaging ∧
    (∃ p', mapRangeIdentity lowPool bootPaging 0xFFC00000 0x400000 3 = some (-1, p') ∧
      ¬ RangeMapped 0xFFC00000 0x400000 (-1) p') ∧
    ∃ p', mapRangeIdentity lowPool bootPaging 0 0xFFFFFFFF 3 = some (0, p') ∧
      ¬ RangeMapped 0 0xFFFFFFFF 0 p' := by
  refine ⟨.boot _, ⟨bootPaging, rfl, fun hspec => hspec.served (by decide) rfl⟩,
    bootPaging, rfl, fun hspec => ?_⟩
  have hpage := (hspec.mapped rfl 0 (by decide) (by decide)).2
  exact absurd hpage (by decide)

end RoninOS.Mem
