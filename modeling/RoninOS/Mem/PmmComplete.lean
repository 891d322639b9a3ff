/-
RoninOS.Mem.PmmComplete — which usable frames `pmm_init` loses.

The converse of `pmmInit_usable_iff`. A frame inside an AVAILABLE entry is not
freed by that entry if the entry reaches 4 GiB and the low half of its end is not
past the frame; and the low halves of the bounds of a framebuffer above 4 GiB may
reserve a frame that is nowhere near it. Nothing else is lost.
-/
import RoninOS.Mem.PmmInit

namespace RoninOS.Mem

open RoninOS.Lib

/-! ## Usable frames -/

/-- Frame `i` lies entirely inside one AVAILABLE entry. -/
def InsideEntry (tags : List Tag) (i : Nat) : Prop :=
  ∃ e ∈ availableEntries tags, e.addr ≤ pmmFrameSize * i ∧ pmmFrameSize * (i + 1) ≤ e.addr + e.len

/-- The bytes of a module or a framebuffer. -/
def Tag.extent : Tag → Nat × Nat
  | .module modStart modEnd _ => (modStart, modEnd)
  | .framebuffer _ addr pitch _ height => (addr, addr + pitch * height)
  | _ => (0, 0)

/-- The low MiB, the kernel image, the info block, the modules and the
framebuffers. -/
def occupiedRanges (k : KernelImage) (addr total : Nat) (tags : List Tag) : List (Nat × Nat) :=
  [(0, 0x100000), (k.start, k.end), (addr, addr + total)] ++ tags.map Tag.extent

/-- Frame `i` shares a byte with one of them. -/
def Occupied (k : KernelImage) (addr total : Nat) (tags : List Tag) (i : Nat) : Prop :=
  ∃ r ∈ occupiedRanges k addr total tags, Meets i r.1 r.2

/-! ## How a frame is lost -/

/-- An entry that reaches 4 GiB and contains frame `i` from below, but whose end,
cast to 32 bits, is not past the frame's start. -/
def CutOff (e : MmapEntry) (i : Nat) : Prop :=
  2 ^ 32 ≤ e.addr + e.len ∧ e.addr ≤ pmmFrameSize * i ∧ u32 (e.addr + e.len) ≤ pmmFrameSize * i

/-- A framebuffer above 4 GiB, the low halves of whose bounds share a byte with
frame `i`. -/
def Tag.AliasReserves : Tag → Nat → Prop
  | .framebuffer _ addr pitch _ height, i =>
      2 ^ 32 ≤ addr ∧ Meets i (u32 addr) (add32 (u32 addr) (mul32 pitch height))
  | _, _ => False

section Lost

variable {tags : List Tag} {i : Nat}

/-- A frame inside an entry is freed by it, or cut off. -/
theorem freedBy_or_cutOff {e : MmapEntry} (he : e ∈ availableEntries tags)
    (hlo : e.addr ≤ pmmFrameSize * i) (hhi : pmmFrameSize * (i + 1) ≤ e.addr + e.len)
    (hi : i < pmmMaxFrames) : FreedBy tags i ∨ CutOff e i := by
  simp only [pmmMaxFrames, pmmMaxPhysAddr, pmmFrameSize] at hi hlo hhi
  by_cases hcut : CutOff e i
  · exact Or.inr hcut
  · refine Or.inl ⟨e, he, ?_⟩
    have haddr : u32 e.addr = e.addr := u32_of_lt (by omega)
    simp only [MmapEntry.range32, haddr, Meets, pmmFrameSize]
    by_cases hlow : e.addr + e.len < 2 ^ 32
    · rw [u32_of_lt hlow]
      omega
    · simp only [CutOff, pmmFrameSize, not_and, not_le] at hcut
      have hend := hcut (by omega) hlo
      omega

/-- A tag reserves frames of its own bytes, or those of an alias. -/
theorem Tag.reserved_meets_iff {t : Tag} (hfree : ¬ Meets i t.extent.1 t.extent.2) :
    Meets i t.reserved.1 t.reserved.2 ↔ t.AliasReserves i := by
  cases t with
  | framebuffer size addr pitch width height =>
      refine ⟨fun hmeets => ⟨?_, hmeets⟩, fun halias => halias.2⟩
      -- below 4 GiB the reserved range is part of the framebuffer
      by_contra hlow
      have hmul : mul32 pitch height ≤ pitch * height := Nat.mod_le _ _
      have hadd : add32 (u32 addr) (mul32 pitch height) ≤ u32 addr + mul32 pitch height :=
        Nat.mod_le _ _
      rw [Tag.reserved, u32_of_lt (by omega)] at hmeets
      rw [u32_of_lt (by omega)] at hadd
      obtain ⟨h1, h2, h3⟩ := hmeets
      exact hfree ⟨by simp only [Tag.extent] at h1 ⊢; omega, h2,
        by simp only [Tag.extent] at h3 ⊢; omega⟩
  | module modStart modEnd string => exact ⟨fun hmeets => hfree hmeets, False.elim⟩
  | _ => exact ⟨fun hmeets => hfree hmeets, False.elim⟩

/-- A frame that nothing occupies is reserved by an alias only. -/
theorem reservedBy_iff {k : KernelImage} {addr total : Nat}
    (hfree : ¬ Occupied k addr total tags i) :
    ReservedBy k addr total tags i ↔ ∃ t ∈ tags, t.AliasReserves i := by
  have hnot : ∀ r ∈ occupiedRanges k addr total tags, ¬ Meets i r.1 r.2 :=
    fun r hr hmeets => hfree ⟨r, hr, hmeets⟩
  have hextent : ∀ t ∈ tags, ¬ Meets i t.extent.1 t.extent.2 := fun t ht =>
    hnot _ (List.mem_append_right _ (List.mem_map_of_mem ht))
  constructor
  · rintro ⟨r, hr, hmeets⟩
    simp only [reservedRanges, List.cons_append, List.nil_append, List.mem_cons, List.mem_map] at hr
    rcases hr with rfl | rfl | rfl | ⟨t, ht, rfl⟩
    · exact absurd hmeets (hnot _ (by simp [occupiedRanges]))
    · exact absurd hmeets (hnot (k.start, k.end) (by simp [occupiedRanges]))
    · -- the end of the info block wraps to 0 or not at all
      refine absurd ?_ (hnot (addr, addr + total) (by simp [occupiedRanges]))
      obtain ⟨h1, h2, h3⟩ := hmeets
      have hadd : add32 addr total ≤ addr + total := Nat.mod_le _ _
      exact ⟨by simp only at h1 ⊢; omega, h2, by simp only at h3 ⊢; omega⟩
    · exact ⟨t, ht, (Tag.reserved_meets_iff (hextent t ht)).mp hmeets⟩
  · rintro ⟨t, ht, halias⟩
    exact ⟨t.reserved, List.mem_append_right _ (List.mem_map_of_mem ht),
      (Tag.reserved_meets_iff (hextent t ht)).mpr halias⟩

end Lost

/-- `pmm_init` leaves every usable frame free exactly when every unoccupied frame
that an AVAILABLE entry up to 4 GiB or beyond cuts off is freed by another entry,
and every one that a framebuffer above 4 GiB reserves lies in no entry. -/
theorem pmmInit_complete_iff (k : KernelImage) {mem : Mem} {addr : Nat} {tags : List Tag}
    (h : InfoBlock mem addr tags) :
    ∃ p, pmmInit (ld32 mem addr) k mem multiboot2BootloaderMagic addr = some p ∧
      ((∀ i < p.totalFrames, InsideEntry tags i → ¬ Occupied k addr (ld32 mem addr) tags i →
          p.isSet i = false) ↔
        ∀ i < managedFrames tags, ¬ Occupied k addr (ld32 mem addr) tags i →
          (∀ e ∈ availableEntries tags, CutOff e i → FreedBy tags i) ∧
          ∀ t ∈ tags, t.AliasReserves i → ¬ InsideEntry tags i) := by
  obtain ⟨p, hp, hboot⟩ := pmmInit_spec k h (le_refl _)
  refine ⟨p, hp, ?_⟩
  rw [← hboot.total_eq]
  have hmax : ∀ i < p.totalFrames, i < pmmMaxFrames := fun i hi =>
    Nat.lt_of_lt_of_le hi hboot.ok.total_le
  constructor
  · intro hall i hi hfree
    refine ⟨fun e he hcut => ?_, fun t ht halias hin => ?_⟩
    · have hi' := hmax i hi
      simp only [pmmMaxFrames, pmmMaxPhysAddr, pmmFrameSize] at hi'
      have hhi : pmmFrameSize * (i + 1) ≤ e.addr + e.len := by
        have hreach := hcut.1
        simp only [pmmFrameSize]
        omega
      exact ((hboot.clear_iff i hi).mp (hall i hi ⟨e, he, hcut.2.1, hhi⟩ hfree)).1
    · exact ((hboot.clear_iff i hi).mp (hall i hi hin hfree)).2
        ((reservedBy_iff hfree).mpr ⟨t, ht, halias⟩)
  · intro hcond i hi hin hfree
    obtain ⟨hcut, halias⟩ := hcond i hi hfree
    refine (hboot.clear_iff i hi).mpr ⟨?_, fun hres => ?_⟩
    · obtain ⟨e, he, hlo, hhi⟩ := hin
      rcases freedBy_or_cutOff he hlo hhi (hmax i hi) with hfreed | hcutoff
      · exact hfreed
      · exact hcut e he hcutoff
    · obtain ⟨t, ht, hal⟩ := (reservedBy_iff hfree).mp hres
      exact halias t ht hal hin

theorem pmmInit_complete_oddMap :
    ∃ p, pmmInit (ld32 (memOfBytes 0x8000 oddMapBytes) 0x8000) exampleKernel
        (memOfBytes 0x8000 oddMapBytes) multiboot2BootloaderMagic 0x8000 = some p ∧
      ((∀ i < p.totalFrames, InsideEntry oddMapTags i →
          ¬ Occupied exampleKernel 0x8000 (ld32 (memOfBytes 0x8000 oddMapBytes) 0x8000)
            oddMapTags i → p.isSet i = false) ↔
        ∀ i < managedFrames oddMapTags,
          ¬ Occupied exampleKernel 0x8000 (ld32 (memOfBytes 0x8000 oddMapBytes) 0x8000)
            oddMapTags i →
          (∀ e ∈ availableEntries oddMapTags, CutOff e i → FreedBy oddMapTags i) ∧
          ∀ t ∈ oddMapTags, t.AliasReserves i → ¬ InsideEntry oddMapTags i) :=
  pmmInit_complete_iff exampleKernel oddMap_infoBlock

/-! ## RAM that ends at 4 GiB -/

/-- RAM from 1 MiB to 4 GiB. -/
def fullMapTags : List Tag := [.mmap 24 [⟨0x100000, 0xFFF00000, 1⟩]]

/-- The info block of `fullMapTags`. -/
def fullMapBytes : List UInt8 := [
  56, 0, 0, 0, 0, 0, 0, 0,
  6, 0, 0, 0, 40, 0, 0, 0, 24, 0, 0, 0, 0, 0, 0, 0,
  0x00, 0x00, 0x10, 0x00, 0, 0, 0, 0, 0x00, 0x00, 0xF0, 0xFF, 0, 0, 0, 0, 1, 0, 0, 0, 0, 0, 0, 0,
  0, 0, 0, 0, 8, 0, 0, 0]

theorem fullMap_infoBlock : InfoBlock (memOfBytes 0x8000 fullMapBytes) 0x8000 fullMapTags where
  addr_ne_zero := by decide
  total_size := by decide
  fits := by decide
  fits_entry := by
    intro entrySize entries hmem
    obtain ⟨rfl, -⟩ : entrySize = 24 ∧ _ := by simpa [fullMapTags] using hmem
    decide
  tags := ⟨⟨by decide, by decide, by decide, by decide, ⟨by decide, by decide, by decide⟩, trivial⟩,
    show ld32 _ _ = tagTypeEnd by decide⟩

/-- On that map frame 512, in the third MiB, is usable RAM and not free. -/
theorem pmmInit_loses_usable :
    ∃ p, pmmInit 56 exampleKernel (memOfBytes 0x8000 fullMapBytes) multiboot2BootloaderMagic 0x8000
        = some p ∧
      512 < p.totalFrames ∧ InsideEntry fullMapTags 512 ∧
      ¬ Occupied exampleKernel 0x8000 56 fullMapTags 512 ∧ p.isSet 512 = true := by
  obtain ⟨p, hp, hboot⟩ := @pmmInit_spec exampleKernel _ _ 56 _ fullMap_infoBlock (by decide)
  have htotal : managedFrames fullMapTags = pmmMaxFrames := by decide
  have hlt : 512 < p.totalFrames := by
    rw [hboot.total_eq, htotal]
    decide
  refine ⟨p, hp, hlt, ⟨_, List.mem_singleton_self _, by decide, by decide⟩, ?_, ?_⟩
  · rintro ⟨r, hr, hmeets⟩
    have hranges : occupiedRanges exampleKernel 0x8000 56 fullMapTags
        = [(0, 0x100000), (0x100000, 0x180000), (0x8000, 0x8038), (0, 0)] := rfl
    rw [hranges] at hr
    simp only [List.mem_cons, List.not_mem_nil, or_false] at hr
    rcases hr with rfl | rfl | rfl | rfl <;> exact absurd hmeets (by decide)
  · have hnot : ¬ FreedBy fullMapTags 512 := by decide
    rw [← Bool.not_eq_false, hboot.clear_iff 512 hlt]
    exact fun hclear => hnot hclear.1

end RoninOS.Mem
