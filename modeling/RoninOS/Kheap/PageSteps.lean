/-
RoninOS.Kheap.PageSteps — what the heap does to pages and frames.

Whatever the callers ask for, the heap touches the page tables and the frame
allocator in three ways only: it asks for a frame and gets none, it gives the
frame it just got back, or it maps that frame at `g_heap_end`. `PageStep` lists
them; every call is a sequence of such steps, for every request size, so an
invariant of one step holds over every run.

`KernelBoot` is the boot sequence of `kmain`: `pmm_init`, then
`paging_init` up to `pmm_get_max_phys_addr()`, then `heap_init`.
-/
import RoninOS.Kheap.HeapRuns
import RoninOS.Mem.PmmRuns
import Mathlib.Logic.Relation

namespace RoninOS.Kheap

open RoninOS.Lib RoninOS.Mem Relation

/-! ## Steps -/

section Steps

variable {σ : Type} (A : FrameAllocator σ) (pool : TablePool)

/-- One change to the pages or frames; `other` is everything else a call writes. -/
inductive PageStep : Heap σ → Heap σ → Prop
  | dry {h : Heap σ} : (A.alloc h.frames).1 = 0 →
      PageStep h { h with frames := (A.alloc h.frames).2 }
  | back {h : Heap σ} : (A.alloc h.frames).1 ≠ 0 →
      PageStep h { h with frames := A.free (A.alloc h.frames).2 (A.alloc h.frames).1 }
  | add {h : Heap σ} {paging : Paging} : (A.alloc h.frames).1 ≠ 0 →
      (A.alloc h.frames).1 % 4096 = 0 → h.end + 4096 ≤ h.limit → PagingOk pool paging →
      pageMap paging = Function.update (pageMap h.paging) (h.end / 4096)
        (some (A.alloc h.frames).1) →
      PageStep h { h with frames := (A.alloc h.frames).2, paging, «end» := h.end + 4096 }
  | other {h h' : Heap σ} : h'.limit = h.limit → h'.end = h.end → h'.paging = h.paging →
      h'.frames = h.frames → PageStep h h'

/-- Any number of such changes. -/
def PageSteps : Heap σ → Heap σ → Prop := ReflTransGen (PageStep A pool)

variable {A pool} {h h' : Heap σ}

theorem PageStep.pagesOk (hstep : PageStep A pool h h') (hok : PagesOk pool h) :
    PagesOk pool h' := by
  cases hstep with
  | dry => exact ⟨hok.limit_eq, hok.end_aligned, hok.end_le, hok.paging, hok.mapped⟩
  | back => exact ⟨hok.limit_eq, hok.end_aligned, hok.end_le, hok.paging, hok.mapped⟩
  | add h0 _ hroom hpok hupdate => exact hok.addPage h0 hroom hpok hupdate
  | other hlimit hend hpaging _ =>
      refine ⟨hlimit.trans hok.limit_eq, hend ▸ hok.end_aligned, ?_, hpaging ▸ hok.paging, ?_⟩
      · rw [hend, hlimit]
        exact hok.end_le
      · rw [hend, hpaging]
        exact hok.mapped

/-- An invariant of the steps that starts with good pages holds at their end. -/
theorem PageSteps.induct {I : Heap σ → Prop} (hsteps : PageSteps A pool h h')
    (hok : PagesOk pool h) (hI : I h)
    (hstep : ∀ g g', PagesOk pool g → I g → PageStep A pool g g' → I g') :
    PagesOk pool h' ∧ I h' := by
  induction hsteps with
  | refl => exact ⟨hok, hI⟩
  | tail _ hlast ih => exact ⟨hlast.pagesOk ih.1, hstep _ _ ih.1 ih.2 hlast⟩

theorem PageSteps.pagesOk (hsteps : PageSteps A pool h h') (hok : PagesOk pool h) :
    PagesOk pool h' :=
  (hsteps.induct (I := fun _ => True) hok trivial fun _ _ _ _ _ => trivial).1

/-- A call that writes memory only. -/
theorem PageSteps.mem (h : Heap σ) (m : Mem) : PageSteps A pool h { h with mem := m } :=
  ReflTransGen.single (PageStep.other rfl rfl rfl rfl)

theorem expandPages_steps : ∀ {rounds : Nat} {h h' : Heap σ} {ret : Int}, PagesOk pool h →
    expandPages A pool rounds h = some (ret, h') → PageSteps A pool h h'
  | 0, h, h', ret, _, hexp => by
      obtain ⟨-, rfl⟩ := Prod.mk.inj (Option.some.inj hexp)
      exact ReflTransGen.refl
  | rounds + 1, h, h', ret, hok, hexp => by
      rcases expandPages_cases hok hexp with ⟨-, h0, rfl⟩ | ⟨-, h0, -, rfl⟩ |
        ⟨paging, h0, haligned, hroom, hpok, hupdate, hrest⟩
      · exact ReflTransGen.single (PageStep.dry h0)
      · exact ReflTransGen.single (PageStep.back h0)
      · exact ReflTransGen.head (PageStep.add h0 haligned hroom hpok hupdate)
          (expandPages_steps (hok.addPage h0 hroom hpok hupdate) hrest)

theorem heapExpand_steps {fuel minBytes : Nat} {ret : Int} (hok : PagesOk pool h)
    (hexp : heapExpand A pool fuel h minBytes = some (ret, h')) : PageSteps A pool h h' := by
  rw [heapExpand, Option.bind_eq_some_iff] at hexp
  obtain ⟨⟨r, h1⟩, hpages, hrest⟩ := hexp
  refine ReflTransGen.trans (expandPages_steps hok hpages) ?_
  simp only at hrest
  split at hrest
  · obtain ⟨-, rfl⟩ := Prod.mk.inj (Option.some.inj hrest)
    exact ReflTransGen.refl
  · rw [Option.map_eq_some_iff] at hrest
    obtain ⟨tail, -, hrest⟩ := hrest
    split at hrest
    · obtain ⟨-, rfl⟩ := Prod.mk.inj hrest
      exact ReflTransGen.refl
    · split at hrest
      · obtain ⟨-, rfl⟩ := Prod.mk.inj hrest
        exact PageSteps.mem _ _
      · obtain ⟨-, rfl⟩ := Prod.mk.inj hrest
        exact PageSteps.mem _ _

theorem kmallocLoop_steps {fuel wanted : Nat} : ∀ {retries : Nat} {h h' : Heap σ} {p : Nat},
    PagesOk pool h → kmallocLoop A pool fuel wanted retries h = some (p, h') → PageSteps A pool h h'
  | 0, _, _, _, _, hrun => by simp [kmallocLoop] at hrun
  | retries + 1, h, h', p, hok, hrun => by
      rw [kmallocLoop, Option.bind_eq_some_iff] at hrun
      obtain ⟨cur, -, hrun⟩ := hrun
      split at hrun
      · obtain ⟨-, rfl⟩ := Prod.mk.inj (Option.some.inj hrun)
        exact PageSteps.mem _ _
      · rw [Option.bind_eq_some_iff] at hrun
        obtain ⟨⟨ret, h1⟩, hexp, hrun⟩ := hrun
        have hsteps := heapExpand_steps hok hexp
        simp only at hrun
        split at hrun
        · exact ReflTransGen.trans hsteps (kmallocLoop_steps (hsteps.pagesOk hok) hrun)
        · obtain ⟨-, rfl⟩ := Prod.mk.inj (Option.some.inj hrun)
          exact hsteps

theorem kmalloc_steps {fuel size p : Nat} (hok : PagesOk pool h)
    (hrun : kmalloc A pool fuel h size = some (p, h')) : PageSteps A pool h h' := by
  rw [kmalloc] at hrun
  split at hrun
  · obtain ⟨-, rfl⟩ := Prod.mk.inj (Option.some.inj hrun)
    exact ReflTransGen.refl
  · exact kmallocLoop_steps hok hrun

theorem kfree_steps (h : Heap σ) (p : Nat) : PageSteps A pool h (kfree h p) := by
  rw [kfree]
  split
  · exact ReflTransGen.refl
  · exact PageSteps.mem _ _

theorem krealloc_steps {fuel p newSize q : Nat} (hok : PagesOk pool h)
    (hrun : krealloc A pool fuel h p newSize = some (q, h')) : PageSteps A pool h h' := by
  rw [krealloc] at hrun
  split at hrun
  · exact kmalloc_steps hok hrun
  · split at hrun
    · obtain ⟨-, rfl⟩ := Prod.mk.inj (Option.some.inj hrun)
      exact kfree_steps h p
    · simp only at hrun
      split at hrun
      · obtain ⟨-, rfl⟩ := Prod.mk.inj (Option.some.inj hrun)
        exact ReflTransGen.refl
      · rw [Option.map_eq_some_iff] at hrun
        obtain ⟨⟨np, h1⟩, hmalloc, hrun⟩ := hrun
        have hsteps := kmalloc_steps hok hmalloc
        simp only at hrun
        split at hrun
        · obtain ⟨-, rfl⟩ := Prod.mk.inj hrun
          exact hsteps
        · obtain ⟨-, rfl⟩ := Prod.mk.inj hrun
          exact ReflTransGen.trans hsteps (ReflTransGen.trans (PageSteps.mem _ _) (kfree_steps _ _))

/-! ## From boot on -/

/-- The heap's globals when `heap_init` starts to map pages. -/
def initialHeap (mem : Mem) (paging : Paging) (frames : σ) : Heap σ :=
  { mem, head := 0, start := kheapBase, «end» := kheapBase, limit := add32 kheapBase kheapMaxSize,
    ready := false, paging, frames }

theorem initialHeap_pagesOk {mem : Mem} {paging : Paging} {frames : σ}
    (hpok : PagingOk pool paging) : PagesOk pool (initialHeap mem paging frames) := by
  refine ⟨rfl, show kheapBase % 4096 = 0 by decide,
    show kheapBase ≤ add32 kheapBase kheapMaxSize by decide, hpok, fun page h1 h2 => ?_⟩
  have h2 : page < kheapBase / 4096 := h2
  omega

theorem initPages_steps : ∀ {rounds : Nat} {h h' : Heap σ}, PagesOk pool h →
    h.end + 4096 * rounds ≤ h.limit → initPages A pool rounds h = some h' → PageSteps A pool h h'
  | 0, h, h', _, _, hinit => by
      obtain rfl := Option.some.inj hinit
      exact ReflTransGen.refl
  | rounds + 1, h, h', hok, hroom, hinit => by
      have hend := hok.end_lt
      have halign := hok.end_aligned
      have hroom' : h.end + 4096 + 4096 * rounds ≤ h.limit := by
        rw [Nat.mul_succ] at hroom
        omega
      have hroom1 : h.end + 4096 ≤ h.limit := Nat.le_trans (Nat.le_add_right _ _) hroom'
      have hnext : add32 h.end pmmFrameSize = h.end + 4096 :=
        add32_of_lt (by simp only [pmmFrameSize]; omega)
      have hframe := A.alloc_lt h.frames
      rw [initPages] at hinit
      have hadd := fun paging => @PageStep.add _ A pool h paging
      generalize A.alloc h.frames = alloc at hinit hframe hadd
      obtain ⟨frame, frames⟩ := alloc
      simp only [hnext] at hinit hframe hadd
      split at hinit
      · simp at hinit
      · rename_i h0
        rw [Option.bind_eq_some_iff] at hinit
        obtain ⟨⟨r, paging⟩, hmap, hrest⟩ := hinit
        rcases mapPage_spec hok.paging (by omega) hframe hmap with
          ⟨rfl, -, -⟩ | ⟨rfl, -, haligned, hpok, hupdate⟩
        · simp at hrest
        · simp only [ne_eq, not_true_eq_false, if_false] at hrest
          have hstep := hadd paging h0 haligned hroom1 hpok hupdate
          exact ReflTransGen.head hstep
            (initPages_steps (hstep.pagesOk hok) hroom' hrest)

theorem heapInit_steps {mem : Mem} {paging : Paging} {frames : σ} (hpok : PagingOk pool paging)
    (hinit : heapInit A pool mem paging frames = some h) :
    PageSteps A pool (initialHeap mem paging frames) h := by
  rw [heapInit, Option.map_eq_some_iff] at hinit
  obtain ⟨h1, hpages, rfl⟩ := hinit
  refine ReflTransGen.trans (initPages_steps (initialHeap_pagesOk hpok) ?_ hpages)
    (ReflTransGen.single (PageStep.other rfl rfl rfl rfl))
  show kheapBase + 4096 * heapInitialPages ≤ add32 kheapBase kheapMaxSize
  decide

end Steps

/-- The page tables of a boot: pages below the limit are mapped to themselves,
and the others are unmapped or mapped to themselves. -/
theorem Boot.paging_spec {σ : Type} {boot : Boot σ} {paging : Paging}
    (hinit : pagingInit boot.pool boot.tables boot.physLimit boot.framebuffer = some paging) :
    PagingOk boot.pool paging ∧
    (∀ page, pageMap paging page = none ∨ pageMap paging page = some (4096 * page)) ∧
    ∀ page, 4096 * page < boot.physLimit → pageMap paging page = some (4096 * page) := by
  have hlimit := boot.physLimit_le
  simp only [pmmMaxPhysAddr] at hlimit
  exact pagingInit_spec (by omega) hinit

/-- Every reached state comes from the boot's page tables by page steps. -/
theorem HeapReach.steps {σ : Type} {A : FrameAllocator σ} {boot : Boot σ} {bound : Nat}
    {h : Heap σ} {live : List (Nat × Nat)} (hreach : HeapReach A boot bound h live) :
    ∃ paging, pagingInit boot.pool boot.tables boot.physLimit boot.framebuffer = some paging ∧
      PageSteps A boot.pool (initialHeap boot.mem paging boot.frames) h := by
  have hok : ∀ {paging : Paging} {g : Heap σ},
      pagingInit boot.pool boot.tables boot.physLimit boot.framebuffer = some paging →
      PageSteps A boot.pool (initialHeap boot.mem paging boot.frames) g → PagesOk boot.pool g :=
    fun hpaging hsteps => hsteps.pagesOk (initialHeap_pagesOk (Boot.paging_spec hpaging).1)
  induction hreach with
  | start hheap =>
      rw [Boot.heap, Option.bind_eq_some_iff] at hheap
      obtain ⟨paging, hpaging, hinit⟩ := hheap
      exact ⟨paging, hpaging, heapInit_steps (Boot.paging_spec hpaging).1 hinit⟩
  | kmalloc _ _ hrun ih =>
      obtain ⟨paging, hpaging, hsteps⟩ := ih
      exact ⟨paging, hpaging, hsteps.trans (kmalloc_steps (hok hpaging hsteps) hrun)⟩
  | kfree _ _ ih =>
      obtain ⟨paging, hpaging, hsteps⟩ := ih
      exact ⟨paging, hpaging, hsteps.trans (kfree_steps _ _)⟩
  | kfreeNull _ ih =>
      obtain ⟨paging, hpaging, hsteps⟩ := ih
      exact ⟨paging, hpaging, hsteps.trans (kfree_steps _ _)⟩
  | krealloc _ _ _ hrun ih =>
      obtain ⟨paging, hpaging, hsteps⟩ := ih
      exact ⟨paging, hpaging, hsteps.trans (krealloc_steps (hok hpaging hsteps) hrun)⟩
  | kreallocNull _ _ hrun ih =>
      obtain ⟨paging, hpaging, hsteps⟩ := ih
      exact ⟨paging, hpaging, hsteps.trans (krealloc_steps (hok hpaging hsteps) hrun)⟩
  | store _ _ _ ih =>
      obtain ⟨paging, hpaging, hsteps⟩ := ih
      exact ⟨paging, hpaging, hsteps.trans (PageSteps.mem _ _)⟩

/-! ## The kernel's boot -/

/-- A boot of the kernel: the info block, the linker's addresses and what the
console and the uninitialised memory hold. -/
structure KernelBoot where
  kernel : KernelImage
  info : Mem
  addr : Nat
  tags : List Tag
  block : InfoBlock info addr tags
  pool : TablePool
  tables : Nat → Nat → Nat
  framebuffer : Option Framebuffer
  mem : Mem
  frames : Pmm
  init : pmmInit (ld32 info addr) kernel info multiboot2BootloaderMagic addr = some frames

namespace KernelBoot

variable (kb : KernelBoot)

theorem booted : Booted kb.kernel kb.addr (ld32 kb.info kb.addr) kb.tags kb.frames := by
  obtain ⟨p, hp, hbooted⟩ := pmmInit_spec kb.kernel kb.block (le_refl _)
  rw [kb.init] at hp
  obtain rfl := Option.some.inj hp
  exact hbooted

theorem max_le : pmmGetMaxPhysAddr kb.frames ≤ pmmMaxPhysAddr := by
  have h1 := kb.booted.ok.total_le
  have h2 := kb.booted.ok.maxAddr_eq
  simp only [pmmGetMaxPhysAddr, pmmMaxPhysAddr, pmmMaxFrames, pmmFrameSize] at *
  omega

/-- What `paging_init` and `heap_init` get. -/
def toBoot : Boot Pmm where
  pool := kb.pool
  tables := kb.tables
  physLimit := pmmGetMaxPhysAddr kb.frames
  physLimit_le := kb.max_le
  framebuffer := kb.framebuffer
  mem := kb.mem
  frames := kb.frames

end KernelBoot

/-- The frame allocator's state during a run of the heap: good accounts, and
every free frame was free at boot. -/
structure FramesOk (start p : Pmm) : Prop where
  ok : PmmOk p
  ready : p.ready = true
  total_eq : p.totalFrames = start.totalFrames
  zero : p.isSet 0 = true
  clear_start : ∀ f < p.totalFrames, p.isSet f = false → start.isSet f = false

theorem KernelBoot.framesOk (kb : KernelBoot) : FramesOk kb.frames kb.frames :=
  ⟨kb.booted.ok, kb.booted.ready, rfl, kb.booted.frame_zero, fun _ _ h => h⟩

/-- `pmm_alloc_frame` during a run of the heap: a frame that was free at boot
and is not frame 0, which giving back undoes; or nothing. -/
theorem FramesOk.alloc {start p : Pmm} (h : FramesOk start p) :
    (∃ f, f < p.totalFrames ∧ start.isSet f = false ∧ f ≠ 0 ∧ 0 < p.freeFrames ∧
      pmmAllocFrame p = (f * pmmFrameSize, p.takeFrame f) ∧
      pmmFreeFrame (p.takeFrame f) (f * pmmFrameSize) = p ∧
      FramesOk start (p.takeFrame f) ∧ (p.takeFrame f).freeFrames = p.freeFrames - 1) ∨
    (p.freeFrames = 0 ∧ pmmAllocFrame p = (0, p)) := by
  rcases pmmAllocFrame_cases h.ok h.ready with ⟨f, hlt, hclear, -, heq⟩ | hnone
  · have hne : f ≠ 0 := by
      rintro rfl
      rw [h.zero] at hclear
      exact absurd hclear (by decide)
    have hpos : 0 < p.freeFrames := by
      rw [h.ok.free_eq]
      exact Finset.card_pos.mpr ⟨f, mem_clearFrames.mpr ⟨hlt, hclear⟩⟩
    have htotal := h.ok.total_lt
    have hsum := h.ok.used_add_free
    refine Or.inl ⟨f, hlt, h.clear_start f hlt hclear, hne, hpos, heq, ?_, ?_, ?_⟩
    · rw [pmmFreeFrame_frame (p := p.takeFrame f) h.ready hlt (by rw [isSet_takeFrame]; simp)]
      exact giveFrame_takeFrame h.ok hlt hclear
    · refine ⟨h.ok.takeFrame hlt hclear, h.ready, h.total_eq, ?_, fun g hg hgclear => ?_⟩
      · rw [isSet_takeFrame, h.zero, Bool.or_true]
      · rw [isSet_takeFrame] at hgclear
        exact h.clear_start g hg (by simp only [Bool.or_eq_false_iff] at hgclear; exact hgclear.2)
    · exact sub32_of_le (by omega) (by omega)
  · exact Or.inr hnone

/-- Page steps keep the frame allocator in order. -/
theorem FramesOk.step {start : Pmm} {pool : TablePool} {h h' : Heap Pmm}
    (hok : FramesOk start h.frames) (hstep : PageStep pmmAllocator pool h h') :
    FramesOk start h'.frames := by
  cases hstep with
  | other _ _ _ hframes => rwa [hframes]
  | dry h0 =>
      rcases hok.alloc with ⟨f, -, -, hne, -, heq, -⟩ | ⟨-, heq⟩
      · simp only [pmmAllocator, heq, pmmFrameSize] at h0
        omega
      · simpa only [pmmAllocator, heq] using hok
  | back h0 =>
      rcases hok.alloc with ⟨f, -, -, hne, -, heq, hback, -⟩ | ⟨-, heq⟩
      · simpa only [pmmAllocator, heq, hback] using hok
      · exact absurd (by simp only [pmmAllocator, heq]) h0
  | add h0 =>
      rcases hok.alloc with ⟨f, -, -, hne, -, heq, -, htake, -⟩ | ⟨-, heq⟩
      · simpa only [pmmAllocator, heq] using htake
      · exact absurd (by simp only [pmmAllocator, heq]) h0

/-! ## Enough frames and tables -/

/-- With a free frame and a table left, one more page can be mapped. -/
theorem alloc_map_total {start frames : Pmm} {pool : TablePool} {paging : Paging} {virt : Nat}
    (hframes : FramesOk start frames) (hleft : TablesLeft paging) (hfree : 0 < frames.freeFrames)
    (hv : virt < 2 ^ 29) (halign : virt % 4096 = 0) :
    ∃ frame frames' paging', pmmAllocator.alloc frames = (frame, frames') ∧ frame ≠ 0 ∧
      mapPage pool paging virt frame pageWrite = some (0, paging') ∧ TablesLeft paging' ∧
      FramesOk start frames' ∧ frames'.freeFrames = frames.freeFrames - 1 := by
  rcases hframes.alloc with ⟨f, -, -, hne, -, heq, -, htake, hfree'⟩ | ⟨h0, -⟩
  · obtain ⟨paging', hmap, hleft'⟩ := @mapPage_total pool _ hleft _
      (f * pmmFrameSize) pageWrite hv halign (Nat.mul_mod_left f pmmFrameSize)
    exact ⟨_, _, paging', heq, by simp only [pmmFrameSize]; omega, hmap, hleft', htake, hfree'⟩
  · omega

theorem initPages_total {start : Pmm} {pool : TablePool} : ∀ {rounds : Nat} {h : Heap Pmm},
    FramesOk start h.frames → TablesLeft h.paging → rounds ≤ h.frames.freeFrames →
    h.end % 4096 = 0 → h.end + 4096 * rounds ≤ 2 ^ 29 →
    ∃ h', initPages pmmAllocator pool rounds h = some h' ∧ TablesLeft h'.paging ∧
      h'.frames.freeFrames = h.frames.freeFrames - rounds
  | 0, h, _, hleft, _, _, _ => ⟨h, rfl, hleft, rfl⟩
  | rounds + 1, h, hframes, hleft, hfree, halign, hroom => by
      have hroom' : h.end + 4096 + 4096 * rounds ≤ 2 ^ 29 := by
        rw [Nat.mul_succ] at hroom
        omega
      have hroom1 : h.end + 4096 ≤ 2 ^ 29 := Nat.le_trans (Nat.le_add_right _ _) hroom'
      have hlt : h.end < 2 ^ 29 := Nat.lt_of_lt_of_le (Nat.lt_add_of_pos_right (by decide)) hroom1
      obtain ⟨frame, frames', paging', halloc, h0, hmap, hleft', hframes', hfree'⟩ :=
        @alloc_map_total _ _ pool _ _ hframes hleft (by omega) hlt halign
      have hnext : add32 h.end pmmFrameSize = h.end + 4096 :=
        add32_of_lt (Nat.lt_of_le_of_lt hroom1 (by decide))
      rw [initPages, halloc]
      simp only [if_neg h0, hmap, Option.bind_some, ne_eq, not_true_eq_false, if_false, hnext]
      obtain ⟨h', hinit, hleft'', hfree''⟩ := @initPages_total _ pool rounds
        { h with frames := frames', paging := paging', «end» := h.end + 4096 } hframes' hleft'
        (by simp only [hfree']; omega) (by simp only [Nat.add_mod_right]; exact halign) hroom'
      refine ⟨h', hinit, hleft'', ?_⟩
      rw [hfree'']
      simp only [hfree']
      omega

/-- A boot without a framebuffer reaches the end of `heap_init` if four frames
are free, and takes just those. -/
theorem KernelBoot.heap_total (kb : KernelBoot) (hfb : kb.framebuffer = none)
    (hfree : heapInitialPages ≤ kb.frames.freeFrames) :
    ∃ h, kb.toBoot.heap pmmAllocator = some h ∧ TablesLeft h.paging ∧
      h.frames.freeFrames = kb.frames.freeFrames - heapInitialPages := by
  have hmax := kb.max_le
  obtain ⟨paging, hpaging, hleft⟩ := @pagingInit_total kb.pool kb.tables
    (pmmGetMaxPhysAddr kb.frames) (Nat.le_trans hmax (by decide))
  obtain ⟨h1, hpages, hleft1, hfree1⟩ := @initPages_total _ kb.pool _
    (initialHeap kb.mem paging kb.frames) kb.framesOk hleft hfree
    (show kheapBase % 4096 = 0 by decide)
    (show kheapBase + 4096 * heapInitialPages ≤ 2 ^ 29 by decide)
  have hpages : initPages pmmAllocator kb.toBoot.pool heapInitialPages
      { mem := kb.toBoot.mem, head := 0, start := kheapBase, «end» := kheapBase,
        limit := add32 kheapBase kheapMaxSize, ready := false, paging,
        frames := kb.toBoot.frames } = some h1 := hpages
  rw [Boot.heap, show kb.toBoot.framebuffer = none from hfb, show pagingInit kb.toBoot.pool
    kb.toBoot.tables kb.toBoot.physLimit none = some paging from hpaging, Option.bind_some, heapInit,
    hpages]
  exact ⟨_, rfl, hleft1, hfree1⟩

end RoninOS.Kheap
