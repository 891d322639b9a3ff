/-
RoninOS.Mem.PmmRuns — runs of `pmm_alloc_frame` and `pmm_free_frame` after `pmm_init`.

Accounting holds over every sequence of calls with any arguments. Exclusivity
is about callers that free only what they hold: `PmmReach` keeps the list of
held addresses beside the allocator, and `RunInv` says that the frames free at
boot are at every moment either still free or held, never both. What
`pmm_alloc_frame` returns is then a frame that `pmm_init` freed and did not
reserve.

The one protected range that `pmm_init` can miss is a framebuffer that ends
exactly at 4 GiB: `framebuffer_addr + bytes` wraps to 0 and `reserve_range`
returns at once.
-/
import RoninOS.Mem.PmmInit

namespace RoninOS.Mem

open RoninOS.Lib

/-! ## Calls and runs -/

/-- A call from outside the allocator. -/
inductive PmmCall
  | alloc
  | free (physAddr : Nat)

/-- The state after a call. -/
def PmmCall.run (p : Pmm) : PmmCall → Pmm
  | .alloc => (pmmAllocFrame p).2
  | .free physAddr => pmmFreeFrame p physAddr

/-- The states that callers who free only held frames can reach, with the
addresses they hold. -/
inductive PmmReach (start : Pmm) : Pmm → List Nat → Prop
  | start : PmmReach start start []
  | alloc {p : Pmm} {held : List Nat} : PmmReach start p held → (pmmAllocFrame p).1 ≠ 0 →
      PmmReach start (pmmAllocFrame p).2 ((pmmAllocFrame p).1 :: held)
  | allocFails {p : Pmm} {held : List Nat} : PmmReach start p held → (pmmAllocFrame p).1 = 0 →
      PmmReach start (pmmAllocFrame p).2 held
  | free {p : Pmm} {held : List Nat} {physAddr : Nat} : PmmReach start p held →
      physAddr ∈ held → PmmReach start (pmmFreeFrame p physAddr) (held.erase physAddr)

/-- The bytes of a tag that must not be handed out: a module, or a framebuffer
that lies below 4 GiB. -/
def Tag.protected : Tag → Option (Nat × Nat)
  | .module modStart modEnd _ => some (modStart, modEnd)
  | .framebuffer _ addr pitch _ height =>
      if addr + pitch * height ≤ 2 ^ 32 then some (addr, addr + pitch * height) else none
  | _ => none

/-- The byte ranges that must not be handed out. -/
def protectedRanges (k : KernelImage) (addr total : Nat) (tags : List Tag) : List (Nat × Nat) :=
  [(0, 0x100000), (k.start, k.end), (addr, addr + total)] ++ tags.filterMap Tag.protected

/-- The frame at `physAddr` shares a byte with the range. -/
def Overlaps (physAddr : Nat) (range : Nat × Nat) : Prop :=
  ∃ a, physAddr ≤ a ∧ a < physAddr + pmmFrameSize ∧ range.1 ≤ a ∧ a < range.2

/-- What the next `pmm_alloc_frame` must satisfy when the callers hold `held`. -/
structure AllocExclusive (ranges : List (Nat × Nat)) (p : Pmm) (held : List Nat) : Prop where
  not_held : (pmmAllocFrame p).1 ≠ 0 → (pmmAllocFrame p).1 ∉ held
  not_protected : (pmmAllocFrame p).1 ≠ 0 → ∀ r ∈ ranges, ¬ Overlaps (pmmAllocFrame p).1 r
  zero_iff : (pmmAllocFrame p).1 = 0 ↔ p.freeFrames = 0

/-- No frame that only a framebuffer ending exactly at 4 GiB would protect is
AVAILABLE below the managed limit. -/
def FramebuffersGuarded (k : KernelImage) (addr total : Nat) (tags : List Tag) : Prop :=
  ∀ size fbAddr pitch width height, Tag.framebuffer size fbAddr pitch width height ∈ tags →
    fbAddr + pitch * height = 2 ^ 32 → ∀ i < managedFrames tags, Meets i fbAddr (2 ^ 32) →
    FreedBy tags i → ReservedBy k addr total tags i

/-! ## Accounting -/

/-- No sequence of calls breaks the accounting. -/
theorem PmmOk.run : ∀ (calls : List PmmCall) {p : Pmm}, PmmOk p →
    PmmOk (calls.foldl PmmCall.run p)
  | [], _, h => h
  | .alloc :: calls, _, h => PmmOk.run calls h.pmmAllocFrame
  | .free physAddr :: calls, _, h => PmmOk.run calls (h.pmmFreeFrame physAddr)

/-! ## The run invariant -/

/-- Between `start` and now: the frames that were free are free or held. -/
structure RunInv (start p : Pmm) (held : List Nat) : Prop where
  ok : PmmOk p
  ready : p.ready = true
  total_eq : p.totalFrames = start.totalFrames
  nodup : held.Nodup
  held_frame : ∀ a ∈ held, ∃ f < p.totalFrames, a = f * pmmFrameSize ∧ p.isSet f = true
  clear_iff : ∀ f < p.totalFrames,
    (start.isSet f = false ↔ p.isSet f = false ∨ f * pmmFrameSize ∈ held)

theorem RunInv.start {p : Pmm} (h : PmmOk p) (hready : p.ready = true) : RunInv p p [] :=
  ⟨h, hready, rfl, List.nodup_nil, by simp, by simp⟩

/-- Different frames have different addresses. -/
theorem frame_inj {f g : Nat} (h : f * pmmFrameSize = g * pmmFrameSize) : f = g :=
  Nat.eq_of_mul_eq_mul_right (by decide) h

/-- A frame that is free is not held. -/
theorem RunInv.not_held {start p : Pmm} {held : List Nat} (h : RunInv start p held) {f : Nat}
    (hclear : p.isSet f = false) : f * pmmFrameSize ∉ held := by
  intro hmem
  obtain ⟨g, -, heq, hset⟩ := h.held_frame _ hmem
  rw [frame_inj heq, hset] at hclear
  exact absurd hclear (by decide)

theorem RunInv.takeFrame {start p : Pmm} {held : List Nat} (h : RunInv start p held) {f : Nat}
    (hlt : f < p.totalFrames) (hclear : p.isSet f = false) :
    RunInv start (p.takeFrame f) (f * pmmFrameSize :: held) where
  ok := h.ok.takeFrame hlt hclear
  ready := h.ready
  total_eq := h.total_eq
  nodup := List.nodup_cons.mpr ⟨h.not_held hclear, h.nodup⟩
  held_frame := by
    intro a ha
    rcases List.mem_cons.mp ha with rfl | ha
    · exact ⟨f, hlt, rfl, by rw [isSet_takeFrame]; simp⟩
    · obtain ⟨g, hg, heq, hset⟩ := h.held_frame a ha
      exact ⟨g, hg, heq, by rw [isSet_takeFrame, hset, Bool.or_true]⟩
  clear_iff := by
    intro g hg
    rw [h.clear_iff g hg, isSet_takeFrame, List.mem_cons]
    by_cases hgf : g = f
    · simp [hgf, hclear]
    · have : g * pmmFrameSize ≠ f * pmmFrameSize := fun heq => hgf (frame_inj heq)
      simp [hgf, this]

theorem RunInv.giveFrame {start p : Pmm} {held : List Nat} (h : RunInv start p held) {f : Nat}
    (hlt : f < p.totalFrames) (hset : p.isSet f = true) (hmem : f * pmmFrameSize ∈ held) :
    RunInv start (p.giveFrame f) (held.erase (f * pmmFrameSize)) where
  ok := h.ok.giveFrame hlt hset
  ready := h.ready
  total_eq := h.total_eq
  nodup := h.nodup.erase _
  held_frame := by
    intro a ha
    obtain ⟨hne, ha⟩ := (h.nodup.mem_erase_iff).mp ha
    obtain ⟨g, hg, heq, hg'⟩ := h.held_frame a ha
    have hgf : g ≠ f := fun hgf => hne (by rw [heq, hgf])
    exact ⟨g, hg, heq, by rw [isSet_giveFrame, hg']; simp [hgf]⟩
  clear_iff := by
    intro g hg
    rw [h.clear_iff g hg, isSet_giveFrame, h.nodup.mem_erase_iff]
    by_cases hgf : g = f
    · simp [hgf, hmem]
    · have : g * pmmFrameSize ≠ f * pmmFrameSize := fun heq => hgf (frame_inj heq)
      simp [hgf, this]

/-- Frame 0 is never free at boot, so 0 is never the address of a frame. -/
theorem alloc_ne_zero {start p : Pmm} {held : List Nat} (h : RunInv start p held)
    (hzero : start.isSet 0 = true) {f : Nat} (hlt : f < p.totalFrames)
    (hclear : p.isSet f = false) : f * pmmFrameSize ≠ 0 := by
  intro heq
  obtain rfl : f = 0 := frame_inj (g := 0) (by simpa using heq)
  rw [(h.clear_iff 0 hlt).mpr (Or.inl hclear)] at hzero
  exact absurd hzero (by decide)

theorem PmmReach.inv {start p : Pmm} {held : List Nat} (hok : PmmOk start)
    (hready : start.ready = true) (hzero : start.isSet 0 = true) (h : PmmReach start p held) :
    RunInv start p held := by
  induction h with
  | start => exact RunInv.start hok hready
  | alloc _ hne ih =>
      rcases pmmAllocFrame_cases ih.ok ih.ready with ⟨f, hlt, hclear, -, heq⟩ | ⟨-, heq⟩
      · rw [heq]
        exact ih.takeFrame hlt hclear
      · rw [heq] at hne
        exact absurd rfl hne
  | allocFails _ heq0 ih =>
      rcases pmmAllocFrame_cases ih.ok ih.ready with ⟨f, hlt, hclear, -, heq⟩ | ⟨-, heq⟩
      · rw [heq] at heq0
        exact absurd heq0 (alloc_ne_zero ih hzero hlt hclear)
      · rw [heq]
        exact ih
  | @free p held physAddr _ hmem ih =>
      obtain ⟨f, hlt, rfl, hset⟩ := ih.held_frame physAddr hmem
      rw [pmmFreeFrame_frame ih.ready hlt hset]
      exact ih.giveFrame hlt hset hmem

/-! ## Exclusivity -/

theorem overlaps_frame {f : Nat} {r : Nat × Nat} :
    Overlaps (f * pmmFrameSize) r ↔ Meets f r.1 r.2 := by
  unfold Overlaps Meets
  simp only [pmmFrameSize]
  constructor
  · rintro ⟨a, h1, h2, h3, h4⟩
    omega
  · rintro ⟨h1, h2, h3⟩
    exact ⟨max (f * 4096) r.1, by omega, by omega, by omega, by omega⟩

/-- A protected range that does not end at 4 GiB is reserved. -/
theorem protected_reserved {k : KernelImage} {mem : Mem} {addr : Nat} {tags : List Tag}
    {r : Nat × Nat}
    (hr : r ∈ protectedRanges k addr (ld32 mem addr) tags) (hlt : r.2 < 2 ^ 32) :
    r ∈ reservedRanges k addr (ld32 mem addr) tags := by
  simp only [protectedRanges, reservedRanges, List.cons_append, List.nil_append, List.mem_cons,
    List.mem_filterMap, List.mem_map] at hr ⊢
  rcases hr with rfl | rfl | rfl | ⟨t, ht, hprot⟩
  · exact Or.inl rfl
  · exact Or.inr (Or.inl rfl)
  · exact Or.inr (Or.inr (Or.inl (by rw [add32_of_lt hlt])))
  · refine Or.inr (Or.inr (Or.inr ⟨t, ht, ?_⟩))
    cases t with
    | module modStart modEnd string => exact Option.some.inj hprot
    | framebuffer size fbAddr pitch width height =>
        simp only [Tag.protected] at hprot
        split at hprot
        · obtain rfl := Option.some.inj hprot
          have hlt : fbAddr + pitch * height < 2 ^ 32 := hlt
          simp only [Tag.reserved]
          rw [u32_of_lt (by omega), mul32_of_lt (by omega), add32_of_lt hlt]
        · cases hprot
    | _ => cases hprot

/-- The block of a memory map leaves room for one more entry behind it. -/
theorem InfoBlock.end_lt_of_freed {mem : Mem} {addr : Nat} {tags : List Tag}
    (h : InfoBlock mem addr tags) {i : Nat} (hfreed : FreedBy tags i) :
    addr + ld32 mem addr < 2 ^ 32 := by
  obtain ⟨e, he, -⟩ := hfreed
  obtain ⟨t, ht, he⟩ := List.mem_flatMap.mp (List.mem_of_mem_filter he)
  cases t with
  | mmap entrySize entries =>
      obtain ⟨b, hb⟩ := mem_tagsAt h.tags _ ht
      have hpos := hb.2.2.2.1
      have hfits := h.fits_entry _ _ ht
      omega
  | _ => simp [Tag.entries] at he

/-- With an AVAILABLE entry in the block, only a framebuffer can end at 4 GiB. -/
theorem protected_lt_or {k : KernelImage} {mem : Mem} {addr : Nat} {tags : List Tag}
    (h : InfoBlock mem addr tags) {i : Nat} (hfreed : FreedBy tags i) {r : Nat × Nat}
    (hr : r ∈ protectedRanges k addr (ld32 mem addr) tags) :
    r.2 < 2 ^ 32 ∨ ∃ size fbAddr pitch width height,
      Tag.framebuffer size fbAddr pitch width height ∈ tags ∧
      fbAddr + pitch * height = 2 ^ 32 ∧ r = (fbAddr, 2 ^ 32) := by
  simp only [protectedRanges, List.cons_append, List.nil_append, List.mem_cons,
    List.mem_filterMap] at hr
  rcases hr with rfl | rfl | rfl | ⟨t, ht, hprot⟩
  · exact Or.inl (by decide)
  · exact Or.inl k.end_lt
  · exact Or.inl (h.end_lt_of_freed hfreed)
  · cases t with
    | module modStart modEnd string =>
        obtain rfl := Option.some.inj hprot
        obtain ⟨b, hb⟩ := mem_tagsAt h.tags _ ht
        exact Or.inl (reserved_lt hb)
    | framebuffer size fbAddr pitch width height =>
        simp only [Tag.protected] at hprot
        split at hprot
        · rename_i hle
          obtain rfl := Option.some.inj hprot
          rcases Nat.lt_or_eq_of_le hle with hlt | heq
          · exact Or.inl hlt
          · exact Or.inr ⟨size, fbAddr, pitch, width, height, ht, heq, by rw [heq]⟩
        · cases hprot
    | _ => cases hprot

section Exclusive

variable {k : KernelImage} {mem : Mem} {addr : Nat} {tags : List Tag} {start : Pmm}

theorem Booted.frame_zero (hboot : Booted k addr (ld32 mem addr) tags start) :
    start.isSet 0 = true := by
  by_cases hlt : 0 < start.totalFrames
  · rw [← Bool.not_eq_false, hboot.clear_iff 0 hlt]
    exact fun hc => hc.2 ⟨(0, 0x100000), by simp [reservedRanges], by decide⟩
  · exact hboot.ok.high 0 (by omega)

/-- In every reached state the next allocation is exclusive, if the
framebuffers that end at 4 GiB are guarded. -/
theorem allocExclusive_of_guarded (h : InfoBlock mem addr tags)
    (hboot : Booted k addr (ld32 mem addr) tags start)
    (hguard : FramebuffersGuarded k addr (ld32 mem addr) tags) {p : Pmm} {held : List Nat}
    (hinv : RunInv start p held) :
    AllocExclusive (protectedRanges k addr (ld32 mem addr) tags) p held := by
  have hzero := hboot.frame_zero
  rcases pmmAllocFrame_cases hinv.ok hinv.ready with ⟨f, hlt, hclear, -, heq⟩ | ⟨hfree, heq⟩
  · have hlt' : f < start.totalFrames := hinv.total_eq ▸ hlt
    obtain ⟨hfreed, hres⟩ := (hboot.clear_iff f hlt').mp
      ((hinv.clear_iff f hlt).mpr (Or.inl hclear))
    have hne := alloc_ne_zero hinv hzero hlt hclear
    have hpos : 0 < p.freeFrames := by
      rw [hinv.ok.free_eq]
      exact Finset.card_pos.mpr ⟨f, mem_clearFrames.mpr ⟨hlt, hclear⟩⟩
    refine ⟨fun _ => ?_, fun _ r hr hover => hres ?_, ?_⟩
    · rw [heq]
      exact hinv.not_held hclear
    · rw [heq, overlaps_frame] at hover
      rcases protected_lt_or h hfreed hr with hlt32 |
        ⟨size, fbAddr, pitch, width, height, ht, hend, rfl⟩
      · exact ⟨r, protected_reserved hr hlt32, hover⟩
      · exact hguard size fbAddr pitch width height ht hend f (hboot.total_eq ▸ hlt') hover hfreed
    · rw [heq]
      exact ⟨fun h0 => absurd h0 hne, fun h0 => absurd h0 (by omega)⟩
  · refine ⟨fun hne => absurd (by rw [heq]) hne, fun hne => absurd (by rw [heq]) hne, ?_⟩
    rw [heq]
    exact ⟨fun _ => hfree, fun _ => rfl⟩

/-- A frame that is free at some moment of a run is handed out in some continuation. -/
theorem reach_alloc (hok : PmmOk start) (hready : start.ready = true)
    (hzero : start.isSet 0 = true) {f : Nat} : ∀ (n : Nat) {p : Pmm} {held : List Nat},
    PmmReach start p held → p.freeFrames ≤ n → f < p.totalFrames → p.isSet f = false →
    ∃ p' held', PmmReach start p' held' ∧ (pmmAllocFrame p').1 = f * pmmFrameSize := by
  intro n
  induction n with
  | zero =>
      intro p held hreach hfree hlt hclear
      have hinv := hreach.inv hok hready hzero
      have hpos : 0 < p.freeFrames := by
        rw [hinv.ok.free_eq]
        exact Finset.card_pos.mpr ⟨f, mem_clearFrames.mpr ⟨hlt, hclear⟩⟩
      omega
  | succ n ih =>
      intro p held hreach hfree hlt hclear
      have hinv := hreach.inv hok hready hzero
      have hpos : 0 < p.freeFrames := by
        rw [hinv.ok.free_eq]
        exact Finset.card_pos.mpr ⟨f, mem_clearFrames.mpr ⟨hlt, hclear⟩⟩
      have htotal := hinv.ok.total_lt
      have hsum := hinv.ok.used_add_free
      rcases pmmAllocFrame_cases hinv.ok hinv.ready with ⟨g, hg, hgclear, -, heq⟩ | ⟨hnone, -⟩
      · by_cases hgf : g = f
        · exact ⟨p, held, hreach, by rw [heq, hgf]⟩
        · -- another frame went first; one fewer is free now
          have hne : (pmmAllocFrame p).1 ≠ 0 := by
            rw [heq]
            exact alloc_ne_zero hinv hzero hg hgclear
          have hnext := hreach.alloc hne
          rw [heq] at hnext
          refine ih hnext ?_ hlt ?_
          · show sub32 p.freeFrames 1 ≤ n
            rw [sub32_of_le (by omega) (by omega)]
            omega
          · rw [isSet_takeFrame]
            simp [hclear, Ne.symm hgf]
      · omega

end Exclusive

/-- After `pmm_init` the accounting survives every sequence of calls, and
allocation is exclusive in every run of well-behaved callers exactly when the
framebuffers that end at 4 GiB are guarded. -/
theorem pmm_exclusive_iff (k : KernelImage) {mem : Mem} {addr : Nat} {tags : List Tag}
    (h : InfoBlock mem addr tags) :
    ∃ start, pmmInit (ld32 mem addr) k mem multiboot2BootloaderMagic addr = some start ∧
      (∀ calls : List PmmCall, PmmOk (calls.foldl PmmCall.run start)) ∧
      ((∀ p held, PmmReach start p held →
          AllocExclusive (protectedRanges k addr (ld32 mem addr) tags) p held) ↔
        FramebuffersGuarded k addr (ld32 mem addr) tags) := by
  obtain ⟨start, hstart, hboot⟩ := pmmInit_spec k h (le_refl _)
  have hzero := hboot.frame_zero
  refine ⟨start, hstart, fun calls => PmmOk.run calls hboot.ok, ?_, ?_⟩
  · -- an unguarded frame is free at boot, so some run hands it out
    intro hall size fbAddr pitch width height ht hend i hi hmeets hfreed
    by_contra hres
    have hlt : i < start.totalFrames := hboot.total_eq ▸ hi
    have hclear := (hboot.clear_iff i hlt).mpr ⟨hfreed, hres⟩
    obtain ⟨p, held, hreach, halloc⟩ :=
      reach_alloc hboot.ok hboot.ready hzero _ PmmReach.start (le_refl _) hlt hclear
    have hne : (pmmAllocFrame p).1 ≠ 0 := by
      rw [halloc]
      exact alloc_ne_zero (RunInv.start hboot.ok hboot.ready) hzero hlt hclear
    refine (hall p held hreach).not_protected hne (fbAddr, 2 ^ 32) ?_ ?_
    · simp only [protectedRanges, List.mem_append, List.mem_filterMap]
      exact Or.inr ⟨_, ht, by simp only [Tag.protected]; rw [if_pos (by omega), hend]⟩
    · rw [halloc, overlaps_frame]
      exact hmeets
  · intro hguard p held hreach
    exact allocExclusive_of_guarded h hboot hguard (hreach.inv hboot.ok hboot.ready hzero)

/-! ## A framebuffer that ends at 4 GiB -/

/-- 16 MiB of RAM at 256 MiB, and a framebuffer from there to 4 GiB. -/
def topFramebufferTags : List Tag := [
  .mmap 24 [⟨0x10000000, 0x1000000, 1⟩],
  .framebuffer 32 0x10000000 0xF0000000 0x400 1]

/-- The info block of `topFramebufferTags`. -/
def topFramebufferBytes : List UInt8 := [
  88, 0, 0, 0, 0, 0, 0, 0,
  6, 0, 0, 0, 40, 0, 0, 0, 24, 0, 0, 0, 0, 0, 0, 0,
  0x00, 0x00, 0x00, 0x10, 0, 0, 0, 0, 0x00, 0x00, 0x00, 0x01, 0, 0, 0, 0, 1, 0, 0, 0, 0, 0, 0, 0,
  8, 0, 0, 0, 32, 0, 0, 0, 0x00, 0x00, 0x00, 0x10, 0, 0, 0, 0, 0x00, 0x00, 0x00, 0xF0,
  0x00, 0x04, 0x00, 0x00, 1, 0, 0, 0, 32, 1, 0, 0,
  0, 0, 0, 0, 8, 0, 0, 0]

theorem topFramebuffer_infoBlock :
    InfoBlock (memOfBytes 0x8000 topFramebufferBytes) 0x8000 topFramebufferTags where
  addr_ne_zero := by decide
  total_size := by decide
  fits := by decide
  fits_entry := by
    intro entrySize entries hmem
    obtain ⟨rfl, -⟩ : entrySize = 24 ∧ _ := by simpa [topFramebufferTags] using hmem
    decide
  tags := ⟨⟨by decide, by decide, by decide, by decide, ⟨by decide, by decide, by decide⟩, trivial⟩,
    ⟨by decide, by decide, by decide, by decide, by decide, by decide, by decide⟩,
    show ld32 _ _ = tagTypeEnd by decide⟩

theorem pmm_exclusive_topFramebuffer :
    ∃ start, pmmInit (ld32 (memOfBytes 0x8000 topFramebufferBytes) 0x8000) exampleKernel
        (memOfBytes 0x8000 topFramebufferBytes) multiboot2BootloaderMagic 0x8000 = some start ∧
      (∀ calls : List PmmCall, PmmOk (calls.foldl PmmCall.run start)) ∧
      ((∀ p held, PmmReach start p held →
          AllocExclusive (protectedRanges exampleKernel 0x8000
            (ld32 (memOfBytes 0x8000 topFramebufferBytes) 0x8000) topFramebufferTags) p held) ↔
        FramebuffersGuarded exampleKernel 0x8000
          (ld32 (memOfBytes 0x8000 topFramebufferBytes) 0x8000) topFramebufferTags) :=
  pmm_exclusive_iff exampleKernel topFramebuffer_infoBlock

/-- There the first `pmm_alloc_frame` returns a frame of the framebuffer. -/
theorem pmmAllocFrame_in_framebuffer :
    ∃ start, pmmInit 88 exampleKernel (memOfBytes 0x8000 topFramebufferBytes)
        multiboot2BootloaderMagic 0x8000 = some start ∧
      ¬ AllocExclusive (protectedRanges exampleKernel 0x8000 88 topFramebufferTags) start [] := by
  obtain ⟨start, hstart, hboot⟩ :=
    @pmmInit_spec exampleKernel _ _ 88 _ topFramebuffer_infoBlock (by decide)
  have htotal : managedFrames topFramebufferTags = 0x11000 := by decide
  have hlt : 0x10000 < start.totalFrames := by
    rw [hboot.total_eq, htotal]
    decide
  have hclear : start.isSet 0x10000 = false :=
    (hboot.clear_iff _ hlt).mpr ⟨by decide, by decide⟩
  refine ⟨start, hstart, fun hex => ?_⟩
  rcases pmmAllocFrame_cases hboot.ok hboot.ready with ⟨f, hf, hfclear, -, heq⟩ | ⟨hnone, -⟩
  · obtain ⟨⟨e, he, hmeets⟩, -⟩ := (hboot.clear_iff f hf).mp hfclear
    have hentries : availableEntries topFramebufferTags = [⟨0x10000000, 0x1000000, 1⟩] := rfl
    rw [hentries, List.mem_singleton] at he
    subst he
    refine hex.not_protected ?_ (0x10000000, 0x100000000) (by decide) ?_
    · rw [heq]
      exact alloc_ne_zero (RunInv.start hboot.ok hboot.ready) hboot.frame_zero hf hfclear
    · rw [heq, overlaps_frame]
      obtain ⟨-, h2, h3⟩ := hmeets
      have h2 : 0x10000000 < 4096 * (f + 1) := h2
      have h3 : 4096 * f < 0x11000000 := h3
      exact ⟨by decide, h2, show 4096 * f < 0x100000000 by omega⟩
  · rw [hboot.ok.free_eq, Finset.card_eq_zero] at hnone
    have := mem_clearFrames.mpr ⟨hlt, hclear⟩
    rw [hnone] at this
    exact absurd this (Finset.notMem_empty _)

end RoninOS.Mem
