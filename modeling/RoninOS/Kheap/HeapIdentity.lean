/-
RoninOS.Kheap.HeapIdentity — the heap window over the identity map.

`paging_init` maps every page below `pmm_get_max_phys_addr()` to itself, and the
heap then maps its frames at `KHEAP_BASE` and up. `WindowInv` says what the page
map is at every moment: outside `[KHEAP_BASE, g_heap_end)` it is the one
`paging_init` left, and inside every page is mapped to a frame that was free at
boot. A byte of the kernel image, the info block or a module lies in a frame
that was not free, so it keeps its identity mapping exactly as long as the heap
has not grown over its address.
-/
import RoninOS.Kheap.PageSteps

namespace RoninOS.Kheap

open RoninOS.Lib RoninOS.Mem

/-- The bytes of a module. -/
def moduleRange : Tag → Option (Nat × Nat)
  | .module modStart modEnd _ => some (modStart, modEnd)
  | _ => none

namespace KernelBoot

/-- The kernel image, the info block and the modules. -/
def reservedBytes (kb : KernelBoot) : List (Nat × Nat) :=
  [(kb.kernel.start, kb.kernel.end), (kb.addr, kb.addr + ld32 kb.info kb.addr)] ++
    kb.tags.filterMap moduleRange

/-- Byte `a` belongs to the kernel image, the info block or a module, and lies
below the managed RAM size. -/
def Reserved (kb : KernelBoot) (a : Nat) : Prop :=
  a < pmmGetMaxPhysAddr kb.frames ∧ ∃ r ∈ kb.reservedBytes, r.1 ≤ a ∧ a < r.2

/-- Every reserved byte is still mapped to itself. -/
def IdentityKept (kb : KernelBoot) (h : Heap Pmm) : Prop :=
  ∀ a, kb.Reserved a → translate h.paging a = a

/-- No reserved byte lies in the heap window. -/
def WindowClear (kb : KernelBoot) : Prop :=
  ∀ a, kb.Reserved a → ¬ (kheapBase ≤ a ∧ a < kheapBase + kheapMaxSize)

/-- A reserved byte lies in a managed frame that was not free at boot. -/
theorem reserved_frame (kb : KernelBoot) {a : Nat} (ha : kb.Reserved a) :
    a / 4096 < kb.frames.totalFrames ∧ kb.frames.isSet (a / 4096) = true := by
  obtain ⟨hlt, r, hr, h1, h2⟩ := ha
  have hmax := kb.booted.ok.maxAddr_eq
  simp only [pmmGetMaxPhysAddr, pmmFrameSize] at hlt hmax
  have hframe : a / 4096 < kb.frames.totalFrames := by omega
  refine ⟨hframe, ?_⟩
  rw [← Bool.not_eq_false, kb.booted.clear_iff _ hframe]
  rintro ⟨hfreed, hres⟩
  have hmeets : Meets (a / 4096) r.1 r.2 := by
    simp only [Meets, pmmFrameSize]
    omega
  refine hres ⟨r, ?_, hmeets⟩
  have hprot : r ∈ protectedRanges kb.kernel kb.addr (ld32 kb.info kb.addr) kb.tags := by
    simp only [reservedBytes, protectedRanges, List.cons_append, List.nil_append, List.mem_cons,
      List.mem_filterMap] at hr ⊢
    rcases hr with hr | hr | ⟨t, ht, hmod⟩
    · exact Or.inr (Or.inl hr)
    · exact Or.inr (Or.inr (Or.inl hr))
    · refine Or.inr (Or.inr (Or.inr ⟨t, ht, ?_⟩))
      cases t with
      | module modStart modEnd string => exact hmod
      | _ => cases hmod
  refine protected_reserved hprot ?_
  simp only [reservedBytes, List.cons_append, List.nil_append, List.mem_cons,
    List.mem_filterMap] at hr
  rcases hr with rfl | rfl | ⟨t, ht, hmod⟩
  · exact kb.kernel.end_lt
  · exact kb.block.end_lt_of_freed hfreed
  · obtain ⟨b, hb⟩ := mem_tagsAt kb.block.tags _ ht
    cases t with
    | module modStart modEnd string =>
        obtain rfl := Option.some.inj hmod
        exact reserved_lt hb
    | _ => cases hmod

end KernelBoot

/-! ## The page map of a run -/

/-- Outside the window up to `g_heap_end` the page map is the boot's; inside,
pages are mapped to frames that were free at boot. -/
structure WindowInv (start : Pmm) (paging : Paging) (h : Heap Pmm) : Prop where
  frames : FramesOk start h.frames
  base_le : kheapBase ≤ h.end
  outside : ∀ page, page < kheapBase / 4096 ∨ h.end / 4096 ≤ page →
    pageMap h.paging page = pageMap paging page
  inside : ∀ page, kheapBase / 4096 ≤ page → page < h.end / 4096 →
    ∃ f, start.isSet f = false ∧ pageMap h.paging page = some (f * pmmFrameSize)

theorem WindowInv.step {start : Pmm} {paging : Paging} {pool : TablePool} {h h' : Heap Pmm}
    (hpages : PagesOk pool h) (hinv : WindowInv start paging h)
    (hstep : PageStep pmmAllocator pool h h') : WindowInv start paging h' := by
  have hframes := hinv.frames.step hstep
  cases hstep with
  | dry => exact ⟨hframes, hinv.base_le, hinv.outside, hinv.inside⟩
  | back => exact ⟨hframes, hinv.base_le, hinv.outside, hinv.inside⟩
  | other _ hend hpaging _ =>
      exact ⟨hframes, hend ▸ hinv.base_le, by rw [hend, hpaging]; exact hinv.outside,
        by rw [hend, hpaging]; exact hinv.inside⟩
  | add h0 _ _ _ hupdate =>
      have halign := hpages.end_aligned
      have hbase := hinv.base_le
      refine ⟨hframes, Nat.le_trans hbase (Nat.le_add_right _ _), fun page hpage => ?_,
        fun page h1 h2 => ?_⟩
      · have hne : page ≠ h.end / 4096 := by
          have : kheapBase / 4096 ≤ h.end / 4096 := Nat.div_le_div_right hbase
          simp only at hpage
          omega
        simp only
        rw [hupdate, Function.update_of_ne hne]
        refine hinv.outside page ?_
        simp only at hpage
        omega
      · simp only at h2 ⊢
        rw [hupdate]
        by_cases hpage : page = h.end / 4096
        · rcases hinv.frames.alloc with ⟨f, -, hclear, -, -, heq, -⟩ | ⟨-, heq⟩
          · refine ⟨f, hclear, ?_⟩
            rw [hpage, Function.update_self]
            simp only [pmmAllocator, heq]
          · exact absurd (by simp only [pmmAllocator, heq]) h0
        · rw [Function.update_of_ne hpage]
          exact hinv.inside page h1 (by omega)

section Runs

variable {kb : KernelBoot} {bound : Nat} {h : Heap Pmm} {live : List (Nat × Nat)}

theorem HeapReach.window (hreach : HeapReach pmmAllocator kb.toBoot bound h live) :
    PagesOk kb.pool h ∧ ∃ paging,
      (∀ page, 4096 * page < pmmGetMaxPhysAddr kb.frames →
        pageMap paging page = some (4096 * page)) ∧
      WindowInv kb.frames paging h := by
  obtain ⟨paging, hpaging, hsteps⟩ := hreach.steps
  obtain ⟨hpok, -, hcover⟩ := Boot.paging_spec hpaging
  have hinit : WindowInv kb.frames paging (initialHeap kb.mem paging kb.frames) := by
    refine ⟨kb.framesOk, le_refl _, fun _ _ => rfl, fun page h1 h2 => ?_⟩
    have h2 : page < kheapBase / 4096 := h2
    omega
  obtain ⟨hpages, hinv⟩ := hsteps.induct (I := WindowInv kb.frames paging)
    (initialHeap_pagesOk hpok) hinit fun _ _ hok hinv hstep => hinv.step hok hstep
  exact ⟨hpages, paging, hcover, hinv⟩

/-- In every reached state, a reserved byte is mapped to itself exactly when
the heap has not grown over its address. -/
theorem translate_reserved_iff (hreach : HeapReach pmmAllocator kb.toBoot bound h live) {a : Nat}
    (ha : kb.Reserved a) :
    translate h.paging a = a ↔ ¬ (kheapBase ≤ a ∧ a < h.end) := by
  obtain ⟨hpages, paging, hcover, hinv⟩ := hreach.window
  obtain ⟨hframe, hset⟩ := kb.reserved_frame ha
  have hmax := kb.max_le
  have hlt := ha.1
  have halign := hpages.end_aligned
  have hbase : kheapBase = 0x18000000 := rfl
  simp only [pmmMaxPhysAddr] at hmax
  rw [translate_eq hpages.paging (by omega)]
  by_cases hin : kheapBase ≤ a ∧ a < h.end
  · obtain ⟨f, hclear, hmap⟩ := hinv.inside (a / 4096) (by omega) (by omega)
    have hne : f ≠ a / 4096 := by
      rintro rfl
      rw [hset] at hclear
      exact absurd hclear (by decide)
    rw [hmap]
    simp only [pmmFrameSize]
    constructor
    · intro heq
      omega
    · exact fun hc => absurd hin hc
  · rw [hinv.outside (a / 4096) (by omega), hcover (a / 4096) (by omega)]
    simp only [hin, not_false_eq_true, iff_true]
    omega

/-- Over every run the heap displaces no reserved byte if none lies in the heap
window; and in every reached state the displaced bytes are exactly the reserved
ones in the window below `g_heap_end`. -/
theorem heap_identity_iff (kb : KernelBoot) :
    (kb.WindowClear → ∀ bound h live, HeapReach pmmAllocator kb.toBoot bound h live →
      kb.IdentityKept h) ∧
    ∀ bound h live, HeapReach pmmAllocator kb.toBoot bound h live →
      (kb.IdentityKept h ↔ ∀ a, kb.Reserved a → ¬ (kheapBase ≤ a ∧ a < h.end)) := by
  have hiff : ∀ bound h live, HeapReach pmmAllocator kb.toBoot bound h live →
      (kb.IdentityKept h ↔ ∀ a, kb.Reserved a → ¬ (kheapBase ≤ a ∧ a < h.end)) :=
    fun bound h live hreach => forall_congr' fun a => forall_congr' fun ha =>
      translate_reserved_iff hreach ha
  refine ⟨fun hclear bound h live hreach => ?_, hiff⟩
  obtain ⟨hpages, -⟩ := hreach.window
  refine (hiff bound h live hreach).mpr fun a ha hin => hclear a ha ⟨hin.1, ?_⟩
  have hend := hpages.end_le
  rw [hpages.limit_eq] at hend
  omega

end Runs

/-! ## A module in the heap window -/

/-- 129 MiB of RAM from 256 MiB on, and a module at 384 MiB. -/
def windowModuleTags : List Tag := [
  .mmap 24 [⟨0x10000000, 0x8100000, 1⟩],
  .module 0x18000000 0x18001000 []]

/-- The info block of `windowModuleTags`. -/
def windowModuleBytes : List UInt8 := [
  80, 0, 0, 0, 0, 0, 0, 0,
  6, 0, 0, 0, 40, 0, 0, 0, 24, 0, 0, 0, 0, 0, 0, 0,
  0x00, 0x00, 0x00, 0x10, 0, 0, 0, 0, 0x00, 0x00, 0x10, 0x08, 0, 0, 0, 0, 1, 0, 0, 0, 0, 0, 0, 0,
  3, 0, 0, 0, 17, 0, 0, 0, 0x00, 0x00, 0x00, 0x18, 0x00, 0x10, 0x00, 0x18, 0, 0, 0, 0, 0, 0, 0, 0,
  0, 0, 0, 0, 8, 0, 0, 0]

theorem windowModule_infoBlock :
    InfoBlock (memOfBytes 0x8000 windowModuleBytes) 0x8000 windowModuleTags where
  addr_ne_zero := by decide
  total_size := by decide
  fits := by decide
  fits_entry := by
    intro entrySize entries hmem
    obtain ⟨rfl, -⟩ : entrySize = 24 ∧ _ := by simpa [windowModuleTags] using hmem
    decide
  tags := ⟨⟨by decide, by decide, by decide, by decide, ⟨by decide, by decide, by decide⟩, trivial⟩,
    ⟨by decide, by decide, by decide, by decide, by decide,
      fun i hi => absurd hi (Nat.not_lt_zero i), by decide⟩,
    show ld32 _ _ = tagTypeEnd by decide⟩

/-- With RAM up to 385 MiB and five frames of it free the kernel boots: the heap has its
first four pages, and frames and page tables are left. -/
theorem ramBlock_boot {bytes : List UInt8} {tags : List Tag}
    (hblock : InfoBlock (memOfBytes 0x8000 bytes) 0x8000 tags)
    (hmanaged : managedFrames tags = 0x18100)
    (hfirst : ∀ f ∈ [0x10000, 0x10001, 0x10002, 0x10003, 0x10004], FreedBy tags f ∧
      ¬ ReservedBy exampleKernel 0x8000 (ld32 (memOfBytes 0x8000 bytes) 0x8000) tags f) :
    ∃ (kb : KernelBoot) (h : Heap Pmm), kb.kernel = exampleKernel ∧
      kb.info = memOfBytes 0x8000 bytes ∧ kb.addr = 0x8000 ∧ kb.tags = tags ∧
      pmmGetMaxPhysAddr kb.frames = 0x18100000 ∧ kb.toBoot.heap pmmAllocator = some h ∧
      TablesLeft h.paging ∧ 0 < h.frames.freeFrames := by
  obtain ⟨frames, hinit, hboot⟩ := pmmInit_spec exampleKernel hblock (le_refl _)
  let kb : KernelBoot :=
    { kernel := exampleKernel, info := memOfBytes 0x8000 bytes, addr := 0x8000,
      tags := tags, block := hblock,
      pool := ⟨0x200000, by decide, by decide, by decide⟩, tables := fun _ _ => 0,
      framebuffer := none, mem := fun _ => 0, frames, init := hinit }
  have htotal : frames.totalFrames = 0x18100 := hboot.total_eq.trans hmanaged
  -- the first five frames of the RAM are free
  have hclear : [0x10000, 0x10001, 0x10002, 0x10003, 0x10004].toFinset
      ⊆ clearFrames frames := by
    intro f hf
    rw [List.mem_toFinset] at hf
    rw [mem_clearFrames]
    have hlt : f < frames.totalFrames := by
      simp only [List.mem_cons, List.not_mem_nil, or_false] at hf
      omega
    exact ⟨hlt, (hboot.clear_iff f hlt).mpr (hfirst f hf)⟩
  have hfree : heapInitialPages + 1 ≤ kb.frames.freeFrames := by
    rw [hboot.ok.free_eq]
    exact Finset.card_le_card hclear
  obtain ⟨h, hheap, hleft, hcount⟩ := kb.heap_total rfl (by omega)
  refine ⟨kb, h, rfl, rfl, rfl, rfl, ?_, hheap, hleft, by omega⟩
  show frames.maxAddr = 0x18100000
  rw [hboot.ok.maxAddr_eq, htotal]
  rfl

/-- The kernel boots with a module in the heap window. -/
theorem windowModule_boot : ∃ (kb : KernelBoot) (h : Heap Pmm), kb.tags = windowModuleTags ∧
    pmmGetMaxPhysAddr kb.frames = 0x18100000 ∧ kb.toBoot.heap pmmAllocator = some h ∧
    TablesLeft h.paging ∧ 0 < h.frames.freeFrames := by
  have hfirst : ∀ f ∈ [0x10000, 0x10001, 0x10002, 0x10003, 0x10004],
      FreedBy windowModuleTags f ∧ ¬ ReservedBy exampleKernel 0x8000
        (ld32 (memOfBytes 0x8000 windowModuleBytes) 0x8000) windowModuleTags f := by
    decide
  obtain ⟨kb, h, -, -, -, hboot⟩ := ramBlock_boot windowModule_infoBlock (by decide) hfirst
  exact ⟨kb, h, hboot⟩

/-- On that boot the heap's first pages replace the module's identity mapping. -/
theorem heap_displaces_module : ∃ (kb : KernelBoot) (h : Heap Pmm),
    kb.tags = windowModuleTags ∧ HeapReach pmmAllocator kb.toBoot kheapMaxSize h [] ∧
      kb.Reserved 0x18000000 ∧ translate h.paging 0x18000000 ≠ 0x18000000 := by
  obtain ⟨kb, h, htags, hmax, hheap, -⟩ := windowModule_boot
  have hreach : HeapReach pmmAllocator kb.toBoot kheapMaxSize h [] := HeapReach.start hheap
  have hres : kb.Reserved 0x18000000 := by
    refine ⟨by rw [hmax]; decide, (0x18000000, 0x18001000), ?_, le_refl _, by decide⟩
    rw [KernelBoot.reservedBytes, htags]
    simp [windowModuleTags, moduleRange]
  refine ⟨kb, h, htags, hreach, hres, ?_⟩
  rw [ne_eq, translate_reserved_iff hreach hres, not_not]
  obtain ⟨-, hend⟩ := Boot.heap_ok hheap
  rw [hend]
  decide

/-! ## A module below the heap window -/

/-- The same RAM, with the module at 288 MiB. -/
def lowModuleTags : List Tag := [
  .mmap 24 [⟨0x10000000, 0x8100000, 1⟩],
  .module 0x12000000 0x12001000 []]

/-- The info block of `lowModuleTags`. -/
def lowModuleBytes : List UInt8 := [
  80, 0, 0, 0, 0, 0, 0, 0,
  6, 0, 0, 0, 40, 0, 0, 0, 24, 0, 0, 0, 0, 0, 0, 0,
  0x00, 0x00, 0x00, 0x10, 0, 0, 0, 0, 0x00, 0x00, 0x10, 0x08, 0, 0, 0, 0, 1, 0, 0, 0, 0, 0, 0, 0,
  3, 0, 0, 0, 17, 0, 0, 0, 0x00, 0x00, 0x00, 0x12, 0x00, 0x10, 0x00, 0x12, 0, 0, 0, 0, 0, 0, 0, 0,
  0, 0, 0, 0, 8, 0, 0, 0]

theorem lowModule_infoBlock :
    InfoBlock (memOfBytes 0x8000 lowModuleBytes) 0x8000 lowModuleTags where
  addr_ne_zero := by decide
  total_size := by decide
  fits := by decide
  fits_entry := by
    intro entrySize entries hmem
    obtain ⟨rfl, -⟩ : entrySize = 24 ∧ _ := by simpa [lowModuleTags] using hmem
    decide
  tags := ⟨⟨by decide, by decide, by decide, by decide, ⟨by decide, by decide, by decide⟩, trivial⟩,
    ⟨by decide, by decide, by decide, by decide, by decide,
      fun i hi => absurd hi (Nat.not_lt_zero i), by decide⟩,
    show ld32 _ _ = tagTypeEnd by decide⟩

/-- On that boot no reserved byte lies in the heap window, and the module keeps
its identity mapping over every run. -/
theorem heap_keeps_module : ∃ (kb : KernelBoot) (h : Heap Pmm),
    kb.tags = lowModuleTags ∧ HeapReach pmmAllocator kb.toBoot kheapMaxSize h [] ∧
      kb.Reserved 0x12000000 ∧ kb.WindowClear ∧
      ∀ bound h' live, HeapReach pmmAllocator kb.toBoot bound h' live → kb.IdentityKept h' := by
  have hfirst : ∀ f ∈ [0x10000, 0x10001, 0x10002, 0x10003, 0x10004],
      FreedBy lowModuleTags f ∧ ¬ ReservedBy exampleKernel 0x8000
        (ld32 (memOfBytes 0x8000 lowModuleBytes) 0x8000) lowModuleTags f := by
    decide
  obtain ⟨kb, h, hkernel, hinfo, haddr, htags, hmax, hheap, -⟩ :=
    ramBlock_boot lowModule_infoBlock (by decide) hfirst
  have hbytes : kb.reservedBytes =
      [(0x100000, 0x180000), (0x8000, 0x8050), (0x12000000, 0x12001000)] := by
    rw [KernelBoot.reservedBytes, hkernel, hinfo, haddr, htags]
    rfl
  have hclear : kb.WindowClear := by
    rintro a ⟨-, r, hr, -, hlt⟩ ⟨hbase, -⟩
    rw [hbytes] at hr
    simp only [List.mem_cons, List.not_mem_nil, or_false] at hr
    have hwindow : kheapBase = 0x18000000 := rfl
    rcases hr with rfl | rfl | rfl <;> simp only at hlt <;> omega
  refine ⟨kb, h, htags, HeapReach.start hheap, ?_, hclear, (heap_identity_iff kb).1 hclear⟩
  exact ⟨by rw [hmax]; decide, (0x12000000, 0x12001000), by simp [hbytes], le_refl _, by decide⟩

end RoninOS.Kheap
