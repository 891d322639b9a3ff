/-
RoninOS.Mem.PagingTheorems — the page tables are a map from pages to frames.

`pageMap` reads the two levels as a partial map from page numbers to frame
addresses. On tables that satisfy `PagingOk` (every present directory entry
names a table of its own), `map_page` updates that map at one page and
`translate` looks an address up in it, so no later proof sees a table again.
-/
import RoninOS.Mem.Paging
import Mathlib.Data.Finset.Card
import Mathlib.Order.Interval.Finset.Nat

namespace RoninOS.Mem

open RoninOS.Lib

/-! ## Words of a table -/

theorem mask_eq_not32 : 0xFFFFF000 = not32 (2 ^ 12 - 1) := rfl

/-- The two halves of a 32-bit word. -/
theorem and_frame_mask {x : Nat} (h : x < 2 ^ 32) : x &&& 0xFFFFF000 = x / 4096 * 4096 := by
  rw [mask_eq_not32]
  exact and_not32_mask (by decide) h

theorem and_offset_mask (x : Nat) : x &&& 0xFFF = x % 4096 := and_mask 12 x

theorem and_present (x : Nat) : x &&& pagePresent = x % 2 := and_mask 1 x

theorem pdIndex_eq {virt : Nat} (h : virt < 2 ^ 32) : pdIndex virt = virt / 4096 / 1024 := by
  rw [pdIndex, Nat.shiftRight_eq_div_pow, show 0x3FF = 2 ^ 10 - 1 from rfl, and_mask]
  omega

theorem ptIndex_eq (virt : Nat) : ptIndex virt = virt / 4096 % 1024 := by
  rw [ptIndex, Nat.shiftRight_eq_div_pow, show 0x3FF = 2 ^ 10 - 1 from rfl, and_mask]
  rfl

/-- A frame address with flag bits added is present and names that frame. -/
theorem frame_or {frame flags : Nat} (haligned : frame % 4096 = 0) (hframe : frame < 2 ^ 32)
    (hflags : flags < 4096) (hodd : flags % 2 = 1) :
    (frame ||| flags) &&& pagePresent ≠ 0 ∧ (frame ||| flags) &&& 0xFFFFF000 = frame := by
  have hsum : frame ||| flags = frame + flags := by
    obtain ⟨q, rfl⟩ := Nat.dvd_of_mod_eq_zero haligned
    rw [Nat.mul_comm]
    exact mul_two_pow_or (k := 12) hflags
  rw [hsum, and_present, and_frame_mask (by omega)]
  omega

theorem flags_odd (flags : Nat) :
    (flags &&& 0xFFF ||| pagePresent) < 4096 ∧ (flags &&& 0xFFF ||| pagePresent) % 2 = 1 := by
  have hlt : (flags &&& 0xFFF) < 2 ^ 12 := by
    rw [and_offset_mask]
    omega
  refine ⟨Nat.or_lt_two_pow hlt (by decide), ?_⟩
  have hbit : (flags &&& 0xFFF ||| pagePresent).testBit 0 = true := by
    rw [Nat.testBit_or]
    simp [pagePresent]
  simpa using hbit

/-! ## The page map -/

/-- The table word of a page; 0 where the directory has no table. -/
def pageEntry (p : Paging) (page : Nat) : Nat :=
  if p.directory (page / 1024) &&& pagePresent = 0 then 0
  else p.tables (p.directory (page / 1024) &&& 0xFFFFF000) (page % 1024)

/-- The frame address a page is mapped to. -/
def pageMap (p : Paging) (page : Nat) : Option Nat :=
  if pageEntry p page &&& pagePresent = 0 then none
  else some (pageEntry p page &&& 0xFFFFF000)

/-- Every present directory entry names its own table of the pool, and the
words are 32-bit words. -/
structure PagingOk (pool : TablePool) (p : Paging) : Prop where
  used_le : p.tablesUsed ≤ maxBootstrapTables
  table_of : ∀ d, p.directory d &&& pagePresent ≠ 0 →
    ∃ j < p.tablesUsed, p.directory d = pool.base + 4096 * j ||| 3
  inj : ∀ d d', p.directory d &&& pagePresent ≠ 0 → p.directory d = p.directory d' → d = d'
  entry_lt : ∀ page, pageEntry p page < 2 ^ 32

/-- The tables of the pool are aligned 32-bit addresses. -/
theorem table_addr (pool : TablePool) {j : Nat} (h : j < maxBootstrapTables) :
    (pool.base + 4096 * j) % 4096 = 0 ∧ pool.base + 4096 * j < 2 ^ 32 := by
  have haligned := pool.aligned
  have hfits := pool.fits
  simp only [maxBootstrapTables] at h hfits
  omega

/-- The page tables `paging_init` starts from. -/
theorem PagingOk.empty (pool : TablePool) (tables : Nat → Nat → Nat) : PagingOk pool
    { directory := fun _ => 0, tables, tablesUsed := 0, enabled := false } := by
  have hnot : ¬ (0 &&& pagePresent ≠ 0) := by decide
  refine ⟨Nat.zero_le _, fun d hd => absurd hd hnot, fun d d' hd => absurd hd hnot, fun page => ?_⟩
  rw [pageEntry, if_pos (by simp)]
  decide

section Spec

variable {pool : TablePool} {p : Paging}

theorem PagingOk.table_eq (h : PagingOk pool p) {d : Nat}
    (hd : p.directory d &&& pagePresent ≠ 0) :
    ∃ j < p.tablesUsed, p.directory d &&& 0xFFFFF000 = pool.base + 4096 * j := by
  obtain ⟨j, hj, heq⟩ := h.table_of d hd
  obtain ⟨h1, h2⟩ := table_addr pool (Nat.lt_of_lt_of_le hj h.used_le)
  exact ⟨j, hj, by rw [heq]; exact (frame_or h1 h2 (by decide) (by decide)).2⟩

/-- `get_table(virt, 0)` on good tables. -/
theorem findTable_eq (h : PagingOk pool p) {virt : Nat} (hv : virt < 2 ^ 32) :
    (findTable p virt = 0 ∧ p.directory (virt / 4096 / 1024) &&& pagePresent = 0) ∨
    (findTable p virt ≠ 0 ∧ p.directory (virt / 4096 / 1024) &&& pagePresent ≠ 0 ∧
      findTable p virt = p.directory (virt / 4096 / 1024) &&& 0xFFFFF000) := by
  unfold findTable
  rw [pdIndex_eq hv]
  by_cases hd : p.directory (virt / 4096 / 1024) &&& pagePresent = 0
  · exact Or.inl ⟨if_pos hd, hd⟩
  · rw [if_neg hd]
    obtain ⟨j, -, heq⟩ := h.table_eq hd
    have hpos := pool.pos
    exact Or.inr ⟨by omega, hd, rfl⟩

/-- `translate` looks the page up in the page map. -/
theorem translate_eq (h : PagingOk pool p) {virt : Nat} (hv : virt < 2 ^ 32) :
    translate p virt = match pageMap p (virt / 4096) with
      | none => 0
      | some frame => frame + virt % 4096 := by
  have hlt := h.entry_lt (virt / 4096)
  rcases findTable_eq h hv with ⟨h0, hd⟩ | ⟨h0, hd, heq⟩
  · simp [translate, h0, pageMap, pageEntry, hd]
  · have hentry : pageEntry p (virt / 4096) = p.tables (findTable p virt) (ptIndex virt) := by
      rw [pageEntry, if_neg hd, heq, ptIndex_eq]
    rw [hentry] at hlt
    simp only [translate, if_neg h0, pageMap, hentry]
    by_cases hp : p.tables (findTable p virt) (ptIndex virt) &&& pagePresent = 0
    · rw [if_pos hp, if_pos hp]
    · rw [if_neg hp, if_neg hp, and_frame_mask hlt, and_offset_mask]
      exact mul_two_pow_or (k := 12) (by omega)

/-- A page's word after `table[index] = word`, where the table is the page
directory's entry `d`. -/
theorem pageEntry_setEntry (h : PagingOk pool p) {d index word : Nat} (hindex : index < 1024)
    (hd : p.directory d &&& pagePresent ≠ 0) (page : Nat) :
    pageEntry (p.setEntry (p.directory d &&& 0xFFFFF000) index word) page
      = if page = d * 1024 + index then word else pageEntry p page := by
  unfold pageEntry Paging.setEntry
  simp only
  by_cases hp : p.directory (page / 1024) &&& pagePresent = 0
  · rw [if_pos hp, if_pos hp, if_neg]
    rintro rfl
    rw [show (d * 1024 + index) / 1024 = d by omega] at hp
    exact hd hp
  · rw [if_neg hp, if_neg hp]
    by_cases hpd : page / 1024 = d
    · rw [hpd, Function.update_self]
      by_cases hpt : page % 1024 = index
      · rw [hpt, Function.update_self, if_pos (by omega)]
      · rw [Function.update_of_ne hpt, if_neg (by omega)]
    · -- another directory entry has another table
      have htable : p.directory (page / 1024) &&& 0xFFFFF000 ≠ p.directory d &&& 0xFFFFF000 := by
        intro heq
        obtain ⟨i, hi, hi'⟩ := h.table_of _ hp
        obtain ⟨j, hj, hj'⟩ := h.table_of _ hd
        obtain ⟨i1, i2⟩ := table_addr pool (Nat.lt_of_lt_of_le hi h.used_le)
        obtain ⟨j1, j2⟩ := table_addr pool (Nat.lt_of_lt_of_le hj h.used_le)
        rw [hi', hj', (frame_or i1 i2 (by decide) (by decide)).2,
          (frame_or j1 j2 (by decide) (by decide)).2] at heq
        exact hpd (h.inj _ _ hp (by rw [hi', hj', heq]))
      rw [Function.update_of_ne htable, if_neg (by omega)]

/-- `get_table(virt, 1)` makes the table present and changes no page. -/
theorem getTable_spec (h : PagingOk pool p) {virt table : Nat} {p' : Paging} (hv : virt < 2 ^ 32)
    (hget : getTable pool p virt = some (table, p')) :
    PagingOk pool p' ∧ p'.directory (virt / 4096 / 1024) &&& pagePresent ≠ 0 ∧
    table = p'.directory (virt / 4096 / 1024) &&& 0xFFFFF000 ∧
    (∀ page, pageEntry p' page = pageEntry p page) ∧ p.tablesUsed ≤ p'.tablesUsed := by
  unfold getTable at hget
  rw [pdIndex_eq hv] at hget
  generalize hD : virt / 4096 / 1024 = d at hget ⊢
  by_cases hd : p.directory d &&& pagePresent = 0
  · rw [if_pos hd, allocTable] at hget
    split at hget
    · simp at hget
    · rename_i hroom
      simp only [Option.map_some, Option.some.injEq, Prod.mk.injEq] at hget
      obtain ⟨rfl, rfl⟩ := hget
      have hor : pool.base + 4096 * p.tablesUsed ||| pagePresent ||| pageWrite
          = pool.base + 4096 * p.tablesUsed ||| 3 := Nat.or_assoc _ _ _
      obtain ⟨t1, t2⟩ := table_addr pool (by omega : p.tablesUsed < maxBootstrapTables)
      obtain ⟨hpres, hmask⟩ := @frame_or _ 3 t1 t2 (by decide) (by decide)
      -- the new table is none of the tables in use
      have hfresh : ∀ d', p.directory d' &&& pagePresent ≠ 0 →
          p.directory d' &&& 0xFFFFF000 ≠ pool.base + 4096 * p.tablesUsed := by
        intro d' hd'
        obtain ⟨j, hj, heq⟩ := h.table_eq hd'
        omega
      have hentry : ∀ page, pageEntry
          { p with
            directory := Function.update p.directory d
              (pool.base + 4096 * p.tablesUsed ||| pagePresent ||| pageWrite)
            tables := Function.update p.tables (pool.base + 4096 * p.tablesUsed) fun _ => 0
            tablesUsed := p.tablesUsed + 1 } page = pageEntry p page := by
        intro page
        unfold pageEntry
        simp only [hor]
        by_cases hpd : page / 1024 = d
        · rw [hpd, Function.update_self, if_neg hpres, hmask, Function.update_self, if_pos hd]
        · rw [Function.update_of_ne hpd]
          by_cases hp : p.directory (page / 1024) &&& pagePresent = 0
          · rw [if_pos hp, if_pos hp]
          · rw [if_neg hp, if_neg hp, Function.update_of_ne (hfresh _ hp)]
      refine ⟨⟨by simp only; omega, ?_, ?_, fun page => by rw [hentry]; exact h.entry_lt page⟩,
        ?_, ?_, hentry, Nat.le_succ _⟩
      · intro d' hd'
        simp only [hor] at hd' ⊢
        by_cases hdd : d' = d
        · exact ⟨p.tablesUsed, by omega, by rw [hdd, Function.update_self]⟩
        · rw [Function.update_of_ne hdd] at hd' ⊢
          obtain ⟨j, hj, heq⟩ := h.table_of d' hd'
          exact ⟨j, by omega, heq⟩
      · intro d1 d2 hd1 heq
        simp only [hor] at hd1 heq
        by_cases h1 : d1 = d <;> by_cases h2 : d2 = d
        · rw [h1, h2]
        · rw [h1, Function.update_self, Function.update_of_ne h2] at heq
          exact absurd (by rw [← heq]; exact hmask) (hfresh d2 (by rw [← heq]; exact hpres))
        · rw [h2, Function.update_self, Function.update_of_ne h1] at heq
          exact absurd (by rw [heq]; exact hmask) (hfresh d1 (by rw [heq]; exact hpres))
        · rw [Function.update_of_ne h1] at hd1 heq
          rw [Function.update_of_ne h2] at heq
          exact h.inj d1 d2 hd1 heq
      · simp only [Function.update_self, hor]
        exact hpres
      · simp only [Function.update_self, hor]
        exact hmask.symm
  · rw [if_neg hd, Option.some.injEq, Prod.mk.injEq] at hget
    obtain ⟨rfl, rfl⟩ := hget
    exact ⟨h, hd, rfl, fun _ => rfl, le_refl _⟩

/-- `map_page` either refuses unaligned arguments and changes nothing, or sets
exactly one page. -/
theorem mapPage_spec (h : PagingOk pool p) {virt phys flags : Nat} {ret : Int} {p' : Paging}
    (hv : virt < 2 ^ 32) (hphys : phys < 2 ^ 32)
    (hmap : mapPage pool p virt phys flags = some (ret, p')) :
    (ret = -1 ∧ p' = p ∧ (virt % 4096 ≠ 0 ∨ phys % 4096 ≠ 0)) ∨
    (ret = 0 ∧ virt % 4096 = 0 ∧ phys % 4096 = 0 ∧ PagingOk pool p' ∧
      pageMap p' = Function.update (pageMap p) (virt / 4096) (some phys)) := by
  unfold mapPage at hmap
  rw [and_offset_mask, and_offset_mask] at hmap
  by_cases halign : virt % 4096 ≠ 0 ∨ phys % 4096 ≠ 0
  · rw [if_pos halign, Option.some.injEq, Prod.mk.injEq] at hmap
    exact Or.inl ⟨hmap.1.symm, hmap.2.symm, halign⟩
  · rw [if_neg halign, Option.map_eq_some_iff] at hmap
    rw [not_or, not_not, not_not] at halign
    obtain ⟨⟨table, q⟩, hget, heq⟩ := hmap
    obtain ⟨rfl, rfl⟩ := Prod.mk.inj heq
    obtain ⟨hok, hpres, rfl, hsame, -⟩ := getTable_spec h hv hget
    have hindex : ptIndex virt < 1024 := by
      rw [ptIndex_eq]
      omega
    obtain ⟨hflags, hodd⟩ := flags_odd flags
    obtain ⟨hbit, hmask⟩ := frame_or halign.2 hphys hflags hodd
    have hword : phys &&& 0xFFFFF000 ||| flags &&& 0xFFF ||| pagePresent
        = phys ||| (flags &&& 0xFFF ||| pagePresent) := by
      rw [Nat.or_assoc, and_frame_mask hphys, show phys / 4096 * 4096 = phys by omega]
    have hwlt : phys ||| (flags &&& 0xFFF ||| pagePresent) < 2 ^ 32 :=
      Nat.or_lt_two_pow hphys (by omega)
    have hentry : ∀ page, pageEntry (q.setEntry (q.directory (virt / 4096 / 1024) &&& 0xFFFFF000)
        (ptIndex virt) (phys ||| (flags &&& 0xFFF ||| pagePresent))) page
          = if page = virt / 4096 then phys ||| (flags &&& 0xFFF ||| pagePresent)
            else pageEntry p page := by
      intro page
      rw [pageEntry_setEntry hok hindex hpres, hsame, ptIndex_eq,
        show virt / 4096 / 1024 * 1024 + virt / 4096 % 1024 = virt / 4096 by omega]
    rw [hword]
    refine Or.inr ⟨rfl, halign.1, halign.2,
      ⟨hok.used_le, hok.table_of, hok.inj, fun page => ?_⟩, ?_⟩
    · rw [hentry]
      split
      · exact hwlt
      · exact h.entry_lt page
    · funext page
      unfold pageMap
      rw [hentry]
      by_cases hpage : page = virt / 4096
      · rw [if_pos hpage, hpage, Function.update_self, if_neg hbit, hmask]
      · rw [if_neg hpage, Function.update_of_ne hpage]

end Spec

/-! ## Identity maps -/

/-- The loop maps its pages to themselves and touches no other page. -/
theorem mapPagesIdentity_spec {pool : TablePool} {flags : Nat} : ∀ {rounds addr : Nat}
    {p p' : Paging} {ret : Int}, PagingOk pool p → addr % 4096 = 0 →
    addr + 4096 * rounds < 2 ^ 32 → mapPagesIdentity pool flags rounds addr p = some (ret, p') →
    ret = 0 ∧ PagingOk pool p' ∧ ∀ page, pageMap p' page =
      if addr / 4096 ≤ page ∧ page < addr / 4096 + rounds then some (4096 * page)
      else pageMap p page
  | 0, addr, p, p', ret, h, _, _, hmap => by
      obtain ⟨rfl, rfl⟩ := Prod.mk.inj (Option.some.inj hmap)
      exact ⟨rfl, h, fun page => by rw [if_neg (by omega)]⟩
  | rounds + 1, addr, p, p', ret, h, halign, hfit, hmap => by
      have hle : addr + 4096 ≤ addr + 4096 * (rounds + 1) := by omega
      have hnext : addr + 4096 < 2 ^ 32 := Nat.lt_of_le_of_lt hle hfit
      rw [mapPagesIdentity, Option.bind_eq_some_iff] at hmap
      obtain ⟨⟨r, q⟩, hpage, hrest⟩ := hmap
      rcases mapPage_spec h (by omega) (by omega) hpage with
        ⟨-, -, hbad⟩ | ⟨rfl, -, -, hok, hupdate⟩
      · omega
      · simp only [ne_eq, not_true_eq_false, if_false] at hrest
        rw [add32_of_lt hnext] at hrest
        obtain ⟨hret, hok', hrest'⟩ := mapPagesIdentity_spec hok (by omega) (by omega) hrest
        refine ⟨hret, hok', fun page => ?_⟩
        rw [hrest', hupdate]
        by_cases hpage : page = addr / 4096
        · rw [if_neg (by omega), hpage, Function.update_self, if_pos (by omega)]
          exact congrArg some (by omega)
        · rw [Function.update_of_ne hpage]
          split
          · rw [if_pos (by omega)]
          · rw [if_neg (by omega)]

/-- `map_range_identity` does nothing for an empty range, refuses one whose rounded
end is before its first page, and maps the pages up to that end otherwise. -/
theorem mapRangeIdentity_cases {pool : TablePool} {p p' : Paging} {physStart bytes flags : Nat}
    {ret : Int} (h : PagingOk pool p) (hstart : physStart < 2 ^ 32)
    (hmap : mapRangeIdentity pool p physStart bytes flags = some (ret, p')) :
    (bytes = 0 ∧ ret = 0 ∧ p' = p) ∨
    (bytes ≠ 0 ∧ (physStart + bytes + 0xFFF) % 2 ^ 32 / 4096 < physStart / 4096 ∧ ret = -1 ∧
      p' = p) ∨
    (bytes ≠ 0 ∧ physStart / 4096 ≤ (physStart + bytes + 0xFFF) % 2 ^ 32 / 4096 ∧ ret = 0 ∧
      PagingOk pool p' ∧ ∀ page, pageMap p' page =
        if physStart / 4096 ≤ page ∧ page < (physStart + bytes + 0xFFF) % 2 ^ 32 / 4096 then
          some (4096 * page)
        else pageMap p page) := by
  have hend : add32 (add32 physStart bytes) 0xFFF = (physStart + bytes + 0xFFF) % 2 ^ 32 :=
    Nat.mod_add_mod _ _ _
  unfold mapRangeIdentity at hmap
  rw [hend, and_frame_mask hstart, and_frame_mask (Nat.mod_lt _ (by decide))] at hmap
  simp only at hmap
  have hlt : (physStart + bytes + 0xFFF) % 2 ^ 32 < 2 ^ 32 := Nat.mod_lt _ (by decide)
  generalize (physStart + bytes + 0xFFF) % 2 ^ 32 = e at hmap hlt ⊢
  split at hmap
  · rename_i hbytes
    obtain ⟨rfl, rfl⟩ := Prod.mk.inj (Option.some.inj hmap)
    exact Or.inl ⟨hbytes, rfl, rfl⟩
  · rename_i hbytes
    split at hmap
    · obtain ⟨rfl, rfl⟩ := Prod.mk.inj (Option.some.inj hmap)
      exact Or.inr (Or.inl ⟨hbytes, by omega, rfl, rfl⟩)
    · obtain ⟨hret, hok, hpages⟩ := mapPagesIdentity_spec h (by omega) (by omega) hmap
      refine Or.inr (Or.inr ⟨hbytes, by omega, hret, hok, fun page => ?_⟩)
      rw [hpages]
      exact if_congr (by omega) rfl rfl

/-- An identity map leaves only identity mappings behind, and covers its range
when the rounding of its end does not wrap. -/
theorem mapRangeIdentity_spec {pool : TablePool} {p p' : Paging} {physStart bytes flags : Nat}
    {ret : Int} (h : PagingOk pool p) (hstart : physStart < 2 ^ 32)
    (hmap : mapRangeIdentity pool p physStart bytes flags = some (ret, p')) :
    PagingOk pool p' ∧
    (∀ page, pageMap p' page = pageMap p page ∨ pageMap p' page = some (4096 * page)) ∧
    (physStart + bytes + 0xFFF < 2 ^ 32 → ∀ page, physStart < 4096 * (page + 1) →
      4096 * page < physStart + bytes → pageMap p' page = some (4096 * page) ∨ bytes = 0) := by
  rcases mapRangeIdentity_cases h hstart hmap with
    ⟨h0, -, rfl⟩ | ⟨-, hwrap, -, rfl⟩ | ⟨-, -, -, hok, hpages⟩
  · exact ⟨h, fun _ => Or.inl rfl, fun _ _ _ _ => Or.inr h0⟩
  · exact ⟨h, fun _ => Or.inl rfl, fun hfit => by omega⟩
  · refine ⟨hok, fun page => ?_, fun hfit page h1 h2 => Or.inl ?_⟩
    · rw [hpages]
      split
      · exact Or.inr rfl
      · exact Or.inl rfl
    · rw [hpages, Nat.mod_eq_of_lt hfit, if_pos (by omega)]

/-- After `paging_init` the mapped pages are mapped to themselves, and every
page below the limit is mapped. -/
theorem pagingInit_spec {pool : TablePool} {tables : Nat → Nat → Nat} {physLimit : Nat}
    {fb : Option Framebuffer} {p : Paging} (hlimit : physLimit + 0xFFF < 2 ^ 32)
    (hinit : pagingInit pool tables physLimit fb = some p) :
    PagingOk pool p ∧ (∀ page, pageMap p page = none ∨ pageMap p page = some (4096 * page)) ∧
    ∀ page, 4096 * page < physLimit → pageMap p page = some (4096 * page) := by
  -- `enabled` is not read by the page map
  have henabled : ∀ {q : Paging}, PagingOk pool q → PagingOk pool { q with enabled := true } :=
    fun hq => ⟨hq.used_le, hq.table_of, hq.inj, hq.entry_lt⟩
  unfold pagingInit at hinit
  rw [Option.bind_eq_some_iff] at hinit
  obtain ⟨⟨r, q⟩, hram, hrest⟩ := hinit
  obtain ⟨hok, hid, hcover⟩ := mapRangeIdentity_spec (PagingOk.empty pool tables) (by decide) hram
  have hid' : ∀ page, pageMap q page = none ∨ pageMap q page = some (4096 * page) := by
    intro page
    refine (hid page).imp_left fun heq => heq.trans ?_
    rw [pageMap, pageEntry, if_pos (by simp)]
  have hcover' : ∀ page, 4096 * page < physLimit → pageMap q page = some (4096 * page) := by
    intro page hpage
    rcases hcover (by omega) page (by omega) (by omega) with hp | hzero
    · exact hp
    · omega
  simp only at hrest
  split at hrest
  · simp at hrest
  · cases fb with
    | none =>
        obtain rfl := Option.some.inj hrest
        exact ⟨henabled hok, hid', hcover'⟩
    | some fb =>
        simp only at hrest
        split at hrest
        · obtain rfl := Option.some.inj hrest
          exact ⟨henabled hok, hid', hcover'⟩
        · rename_i hfb
          rw [Option.bind_eq_some_iff] at hrest
          obtain ⟨⟨r', q'⟩, hfbmap, hrest⟩ := hrest
          obtain ⟨hok', hfbid, -⟩ := mapRangeIdentity_spec hok (by omega) hfbmap
          simp only at hrest
          split at hrest
          · simp at hrest
          · obtain rfl := Option.some.inj hrest
            refine ⟨henabled hok', fun page => ?_, fun page hpage => ?_⟩
            · rcases hfbid page with heq | heq
              · exact heq ▸ hid' page
              · exact Or.inr heq
            · rcases hfbid page with heq | heq
              · exact heq.trans (hcover' page hpage)
              · exact heq

/-! ## Enough tables -/

/-- The pool has a table left for every directory entry below 512 MiB that has none. -/
def TablesLeft (p : Paging) : Prop :=
  p.tablesUsed + ((Finset.range 128).filter fun d => p.directory d &&& pagePresent = 0).card
    ≤ maxBootstrapTables

theorem TablesLeft.empty (tables : Nat → Nat → Nat) :
    TablesLeft { directory := fun _ => 0, tables, tablesUsed := 0, enabled := false } := by
  have h : (0 : Nat) &&& pagePresent = 0 := by decide
  simp [TablesLeft, h, maxBootstrapTables]

section Total

variable {pool : TablePool} {p : Paging}

theorem getTable_total (h : TablesLeft p) {virt : Nat} (hv : virt < 2 ^ 29) :
    ∃ table p', getTable pool p virt = some (table, p') ∧ TablesLeft p' := by
  unfold getTable
  rw [pdIndex_eq (by omega)]
  have hd : virt / 4096 / 1024 < 128 := by omega
  generalize virt / 4096 / 1024 = d at hd ⊢
  by_cases hp : p.directory d &&& pagePresent = 0
  · have hmem : d ∈ (Finset.range 128).filter fun d => p.directory d &&& pagePresent = 0 :=
      Finset.mem_filter.mpr ⟨Finset.mem_range.mpr hd, hp⟩
    have hpos := Finset.card_pos.mpr ⟨d, hmem⟩
    unfold TablesLeft at h
    have hused : p.tablesUsed < maxBootstrapTables := by omega
    rw [if_pos hp, allocTable, if_neg (by omega)]
    refine ⟨_, _, rfl, ?_⟩
    obtain ⟨t1, t2⟩ := table_addr pool hused
    have hpres := (@frame_or _ 3 t1 t2 (by decide) (by decide)).1
    have hor : pool.base + 4096 * p.tablesUsed ||| pagePresent ||| pageWrite
        = pool.base + 4096 * p.tablesUsed ||| 3 := Nat.or_assoc _ _ _
    have herase : (Finset.range 128).filter (fun e =>
        Function.update p.directory d
          (pool.base + 4096 * p.tablesUsed ||| pagePresent ||| pageWrite) e &&& pagePresent = 0)
        = ((Finset.range 128).filter fun e => p.directory e &&& pagePresent = 0).erase d := by
      ext e
      rw [Finset.mem_erase, Finset.mem_filter, Finset.mem_filter, hor]
      by_cases hed : e = d
      · rw [hed, Function.update_self]
        exact ⟨fun hc => absurd hc.2 hpres, fun hc => absurd rfl hc.1⟩
      · rw [Function.update_of_ne hed]
        exact ⟨fun hc => ⟨hed, hc⟩, fun hc => hc.2⟩
    unfold TablesLeft
    simp only
    rw [herase, Finset.card_erase_of_mem hmem]
    omega
  · rw [if_neg hp]
    exact ⟨_, _, rfl, h⟩

/-- With tables left, `map_page` below 512 MiB does not panic. -/
theorem mapPage_total (h : TablesLeft p) {virt phys flags : Nat} (hv : virt < 2 ^ 29)
    (halign : virt % 4096 = 0) (hphys : phys % 4096 = 0) :
    ∃ p', mapPage pool p virt phys flags = some (0, p') ∧ TablesLeft p' := by
  obtain ⟨table, q, hget, hleft⟩ := @getTable_total pool _ h _ hv
  rw [mapPage, and_offset_mask, and_offset_mask, if_neg (by omega), hget]
  exact ⟨_, rfl, hleft⟩

theorem mapPagesIdentity_total {flags : Nat} : ∀ {rounds addr : Nat} {p : Paging}, TablesLeft p →
    addr % 4096 = 0 → addr + 4096 * rounds ≤ 2 ^ 29 →
    ∃ p', mapPagesIdentity pool flags rounds addr p = some (0, p') ∧ TablesLeft p'
  | 0, _, p, h, _, _ => ⟨p, rfl, h⟩
  | rounds + 1, addr, p, h, halign, hfit => by
      have hle : addr + 4096 ≤ addr + 4096 * (rounds + 1) :=
        Nat.add_le_add_left (Nat.le_mul_of_pos_right 4096 (Nat.succ_pos rounds)) addr
      have hlt : addr < 2 ^ 29 :=
        Nat.lt_of_lt_of_le (Nat.lt_add_of_pos_right (by decide)) (Nat.le_trans hle hfit)
      have hfit' : addr + 4096 + 4096 * rounds ≤ 2 ^ 29 := by
        rw [Nat.mul_succ] at hfit
        omega
      obtain ⟨q, hpage, hleft⟩ :=
        @mapPage_total pool _ h _ _ flags hlt halign halign
      obtain ⟨p', hrest, hleft'⟩ := mapPagesIdentity_total hleft (by omega) hfit'
      rw [mapPagesIdentity, hpage, Option.bind_some]
      simp only [ne_eq, not_true_eq_false, if_false]
      rw [add32_of_lt (by omega : addr + 4096 < 2 ^ 32)]
      exact ⟨p', hrest, hleft'⟩

/-- Without a framebuffer `paging_init` does not panic. -/
theorem pagingInit_total (tables : Nat → Nat → Nat) {physLimit : Nat}
    (hlimit : physLimit ≤ 2 ^ 29) :
    ∃ p, pagingInit pool tables physLimit none = some p ∧ TablesLeft p := by
  have hmap : ∃ p', mapRangeIdentity pool
      { directory := fun _ => 0, tables, tablesUsed := 0, enabled := false } 0 physLimit pageWrite
        = some (0, p') ∧ TablesLeft p' := by
    unfold mapRangeIdentity
    by_cases h0 : physLimit = 0
    · simp only [if_pos h0]
      exact ⟨_, rfl, TablesLeft.empty tables⟩
    · rw [and_frame_mask (by decide), Nat.zero_div, Nat.zero_mul,
        add32_of_lt (by omega : 0 + physLimit < 2 ^ 32), add32_of_lt (by omega),
        and_frame_mask (by omega)]
      simp only [if_neg h0, Nat.not_lt_zero, if_false]
      exact mapPagesIdentity_total (TablesLeft.empty tables) rfl (by omega)
  obtain ⟨p', hmap, hleft⟩ := hmap
  rw [pagingInit, hmap]
  exact ⟨_, rfl, hleft⟩

end Total

end RoninOS.Mem
