/-
RoninOS.Mem.PmmInit — what `pmm_init` computes from an info block.

The pass over the memory map and the pass over modules and framebuffers are
folds over the block's abstract tags; `pmmInit_spec` reads off the result. It
terminates, and a managed frame ends up free exactly when some AVAILABLE
entry, cast to 32 bits, shares a byte with it and no reserved range does.

Both range functions round outwards. For a reservation that is the safe
direction. For `free_range` it is not, and neither is the cast of a 64-bit
address: the frames that only rounding or the cast make free are what
`pmmInit_usable_iff` is about.
-/
import RoninOS.Mem.PmmTheorems
import Mathlib.Algebra.Order.BigOperators.Group.List

namespace RoninOS.Mem

open RoninOS.Lib

/-! ## The three passes over abstract tags -/

/-- The entries of a tag. -/
def Tag.entries : Tag → List MmapEntry
  | .mmap _ entries => entries
  | _ => []

/-- The AVAILABLE entries of a block. -/
def availableEntries (tags : List Tag) : List MmapEntry :=
  (tags.flatMap Tag.entries).filter (fun e => e.type = mmapTypeAvailable)

/-- The range `pmm_init` passes to `free_range` for an AVAILABLE entry. -/
def MmapEntry.range32 (e : MmapEntry) : Nat × Nat := (u32 e.addr, u32 (e.addr + e.len))

/-- The range `pmm_init` passes to `reserve_range` for a tag; empty for the others. -/
def Tag.reserved : Tag → Nat × Nat
  | .module modStart modEnd _ => (modStart, modEnd)
  | .framebuffer _ addr pitch _ height => (u32 addr, add32 (u32 addr) (mul32 pitch height))
  | _ => (0, 0)

/-- The first pass over one entry. -/
def MmapEntry.highest (highest : Nat) (e : MmapEntry) : Nat :=
  let end_ := (e.addr + e.len) % 2 ^ 64
  if e.type = mmapTypeAvailable then
    if end_ > highest then (if end_ > 0xFFFFFFFF then 0xFFFFFFFF else end_) else highest
  else highest

/-- The first pass over one tag. -/
def Tag.highest (highest : Nat) : Tag → Nat
  | .mmap _ entries => entries.foldl MmapEntry.highest highest
  | .basicMeminfo _ memUpper =>
      let basicTop := add32 0x100000 (mul32 memUpper 1024)
      if basicTop > highest then basicTop else highest
  | _ => highest

/-- `total_frames` of a block. -/
def managedFrames (tags : List Tag) : Nat := (pmmStart (tags.foldl Tag.highest 0)).totalFrames

/-- Every range `pmm_init` reserves. -/
def reservedRanges (k : KernelImage) (addr total : Nat) (tags : List Tag) : List (Nat × Nat) :=
  [(0, 0x100000), (k.start, k.end), (addr, add32 addr total)] ++ tags.map Tag.reserved

/-- `pmm_init` frees frame `i`. -/
def FreedBy (tags : List Tag) (i : Nat) : Prop :=
  ∃ e ∈ availableEntries tags, Meets i e.range32.1 e.range32.2

/-- `pmm_init` reserves frame `i`. -/
def ReservedBy (k : KernelImage) (addr total : Nat) (tags : List Tag) (i : Nat) : Prop :=
  ∃ r ∈ reservedRanges k addr total tags, Meets i r.1 r.2

instance (tags : List Tag) (i : Nat) : Decidable (FreedBy tags i) := by
  unfold FreedBy; infer_instance

instance (k : KernelImage) (addr total : Nat) (tags : List Tag) (i : Nat) :
    Decidable (ReservedBy k addr total tags i) := by
  unfold ReservedBy; infer_instance

/-- The state `pmm_init` leaves behind on a well-formed block. -/
structure Booted (k : KernelImage) (addr total : Nat) (tags : List Tag) (p : Pmm) : Prop where
  ok : PmmOk p
  ready : p.ready = true
  total_eq : p.totalFrames = managedFrames tags
  clear_iff : ∀ i < p.totalFrames,
    (p.isSet i = false ↔ FreedBy tags i ∧ ¬ ReservedBy k addr total tags i)

/-! ## The loops are folds -/

theorem size_le_tagsLength {tags : List Tag} {t : Tag} (h : t ∈ tags) :
    round8 t.size ≤ tagsLength tags :=
  List.le_sum_of_mem (List.mem_map_of_mem h)

theorem length_le_tagsLength {mem : Mem} : ∀ {tags : List Tag} {a : Nat}, TagsAt mem a tags →
    tags.length ≤ tagsLength tags
  | [], _, _ => Nat.zero_le _
  | t :: ts, _, ⟨ht, hts⟩ => by
      have h8 := eight_le_size ht
      have hle := le_round8 t.size
      have ih := length_le_tagsLength hts
      simp only [tagsLength, List.map_cons, List.sum_cons, List.length_cons] at ih ⊢
      omega

/-- `end_tag` of a well-formed block. -/
theorem endTag_eq {mem : Mem} {addr : Nat} {tags : List Tag} (h : InfoBlock mem addr tags) :
    sub32 (add32 addr (ld32 mem addr)) 8 = addr + 8 + tagsLength tags := by
  have htotal := h.total_size
  have hfits := h.fits
  unfold sub32 add32
  omega

/-- On a well-formed block a pass over the tags is a fold. -/
theorem InfoBlock.tagLoop_eq {σ : Type} {mem : Mem} {addr fuel : Nat} {tags : List Tag}
    (h : InfoBlock mem addr tags) (hfuel : ld32 mem addr ≤ fuel)
    {body : σ → Nat → Option σ} {step : σ → Tag → σ}
    (hbody : ∀ t ∈ tags, ∀ b s, TagAt mem b t → b + round8 t.size ≤ addr + 8 + tagsLength tags →
      body s b = some (step s t)) (s : σ) :
    tagLoop mem (sub32 (add32 addr (ld32 mem addr)) 8) body fuel (add32 addr 8) s
      = some (tags.foldl step s) := by
  have htotal := h.total_size
  have hfits := h.fits
  have hlen := length_le_tagsLength h.tags
  rw [endTag_eq h, add32_of_lt (by omega)]
  exact Mem.tagLoop_eq tags _ s fuel h.tags rfl (by omega) hbody (by omega)

/-- On a memory map of a well-formed block the entry loop is a fold. -/
theorem InfoBlock.mmapLoop_eq {σ : Type} {mem : Mem} {addr fuel b entrySize : Nat}
    {tags : List Tag} {entries : List MmapEntry}
    (h : InfoBlock mem addr tags) (hfuel : ld32 mem addr ≤ fuel)
    (ht : Tag.mmap entrySize entries ∈ tags) (hb : TagAt mem b (.mmap entrySize entries))
    (hfit : b + round8 (Tag.mmap entrySize entries).size ≤ addr + 8 + tagsLength tags)
    {body : σ → Nat → σ} {step : σ → MmapEntry → σ}
    (hbody : ∀ b s e, EntryAt mem b e → body s b = step s e) (s : σ) :
    mmapLoop (ld32 mem (b + 8)) (add32 b (ld32 mem (b + 4))) body fuel (add32 b 16) s
      = some (entries.foldl step s) := by
  obtain ⟨-, hsize, hes, hlt, hentries⟩ := hb
  have htotal := h.total_size
  have hfits := h.fits_entry entrySize entries ht
  have hround := le_round8 (Tag.mmap entrySize entries).size
  have hbound := size_le_tagsLength ht
  have hcount : entries.length ≤ entrySize * entries.length := Nat.le_mul_of_pos_left _ (by omega)
  simp only [Tag.size] at hsize hround hfit hbound
  rw [hes, hsize, add32_of_lt (by omega), add32_of_lt (by omega)]
  exact Mem.mmapLoop_eq (by omega) (by omega) entries _ s fuel hentries (by omega) hbody (by omega)

theorem highestEntry_eq {mem : Mem} {b : Nat} {e : MmapEntry} (h : EntryAt mem b e)
    (highest : Nat) : highestEntry mem highest b = e.highest highest := by
  obtain ⟨h1, h2, h3⟩ := h
  rw [highestEntry, MmapEntry.highest, h1, h2, h3]

theorem freeEntry_eq {mem : Mem} {b : Nat} {e : MmapEntry} (h : EntryAt mem b e) (p : Pmm) :
    freeEntry mem p b =
      if e.type = mmapTypeAvailable then freeRange p e.range32.1 e.range32.2 else p := by
  obtain ⟨h1, h2, h3⟩ := h
  rw [freeEntry, h1, h2, h3]
  rfl

/-! ## Folds of ranges -/

theorem freeRanges_spec : ∀ (entries : List MmapEntry) {p : Pmm}, PmmOk p →
    let q := entries.foldl
      (fun p e => if e.type = mmapTypeAvailable then freeRange p e.range32.1 e.range32.2 else p) p
    PmmOk q ∧ q.totalFrames = p.totalFrames ∧
    ∀ i < p.totalFrames, (q.isSet i = true ↔ p.isSet i = true ∧
      ¬ ∃ e ∈ entries.filter (fun e => e.type = mmapTypeAvailable), Meets i e.range32.1 e.range32.2)
  | [], p, h => by simp [h]
  | e :: es, p, h => by
      rw [List.foldl_cons]
      by_cases he : e.type = mmapTypeAvailable
      · rw [if_pos he]
        have hlt : e.range32.2 < 2 ^ 32 := u32_lt _
        obtain ⟨hok, htotal, -, hbits⟩ := @freeRange_spec _ h e.range32.1 _ hlt
        obtain ⟨hok', htotal', hbits'⟩ := freeRanges_spec es hok
        refine ⟨hok', htotal'.trans htotal, fun i hi => ?_⟩
        rw [hbits' i (by rw [htotal]; exact hi), hbits i hi, List.filter_cons_of_pos (by simpa using he)]
        simp only [List.exists_mem_cons_iff, not_or, and_assoc]
      · rw [if_neg he, List.filter_cons_of_neg (by simpa using he)]
        exact freeRanges_spec es h

theorem reserveRanges_spec : ∀ (ranges : List (Nat × Nat)) {p : Pmm}, PmmOk p →
    (∀ r ∈ ranges, r.2 < 2 ^ 32) →
    let q := ranges.foldl (fun p r => reserveRange p r.1 r.2) p
    PmmOk q ∧ q.totalFrames = p.totalFrames ∧
    ∀ i < p.totalFrames, (q.isSet i = true ↔ p.isSet i = true ∨ ∃ r ∈ ranges, Meets i r.1 r.2)
  | [], p, h, _ => by simp [h]
  | r :: rs, p, h, hlt => by
      obtain ⟨hok, htotal, -, hbits⟩ := @reserveRange_spec _ h r.1 _ (hlt r (by simp))
      obtain ⟨hok', htotal', hbits'⟩ := reserveRanges_spec rs hok fun r' hr' => hlt r' (by simp [hr'])
      refine ⟨hok', htotal'.trans htotal, fun i hi => ?_⟩
      rw [List.foldl_cons, hbits' i (by rw [htotal]; exact hi), hbits i hi, List.exists_mem_cons_iff,
        or_assoc]

/-! ## `pmm_init` -/

theorem pmmStart_ok (highest : Nat) : PmmOk (pmmStart highest) := by
  have hdown : ∀ h ≤ pmmMaxPhysAddr, alignDown h pmmFrameSize = h / 4096 * 4096 := by
    intro h hle
    simp only [pmmMaxPhysAddr] at hle
    exact alignDown_eq (k := 12) (by decide) (by omega)
  have hset : ∀ i, (pmmStart highest).isSet i = true := fun i =>
    isSet_of_word_eq_allOnes (i := i / 32) rfl (by omega) (by omega)
  have hnone : clearFrames (pmmStart highest) = ∅ := by
    rw [Finset.eq_empty_iff_forall_notMem]
    intro i hi
    rw [mem_clearFrames, hset] at hi
    exact absurd hi.2 (by decide)
  have htop : ∃ h ≤ pmmMaxPhysAddr, (pmmStart highest).maxAddr = h / 4096 * 4096 := by
    by_cases h : highest = 0 ∨ highest > pmmMaxPhysAddr
    · exact ⟨pmmMaxPhysAddr, le_refl _, by
        simp only [pmmStart, if_pos h]; exact hdown _ (le_refl _)⟩
    · exact ⟨highest, by omega, by
        simp only [pmmStart, if_neg h]; exact hdown _ (by omega)⟩
  obtain ⟨h, hle, hmax⟩ := htop
  have htotal : (pmmStart highest).totalFrames = h / 4096 := by
    show (pmmStart highest).maxAddr / pmmFrameSize = _
    rw [hmax, pmmFrameSize]
    omega
  refine ⟨?_, ?_, fun i _ => hset i, ?_, rfl⟩
  · rw [htotal]
    simp only [pmmMaxPhysAddr, pmmMaxFrames, pmmFrameSize] at hle ⊢
    omega
  · rw [htotal, hmax, pmmFrameSize]
  · rw [hnone]
    rfl

theorem reserved_lt {mem : Mem} {b : Nat} {t : Tag} (h : TagAt mem b t) : t.reserved.2 < 2 ^ 32 := by
  obtain ⟨-, -, hp⟩ := h
  cases t with
  | module modStart modEnd string =>
      simp only [Tag.reserved]
      rw [← hp.2.1]
      exact ld32_lt _ _
  | framebuffer => exact add32_lt _ _
  | _ => exact Nat.two_pow_pos 32

theorem mem_tagsAt {mem : Mem} : ∀ {tags : List Tag} {a : Nat}, TagsAt mem a tags →
    ∀ t ∈ tags, ∃ b, TagAt mem b t
  | [], _, _, _, ht => by simp at ht
  | _ :: _, _, ⟨ht, hts⟩, t, hmem => by
      rcases List.mem_cons.mp hmem with rfl | hmem
      · exact ⟨_, ht⟩
      · exact mem_tagsAt hts t hmem

/-- The first pass's body on a tag. -/
theorem highestTag_eq {mem : Mem} {addr fuel b : Nat} {tags : List Tag} {t : Tag}
    (h : InfoBlock mem addr tags) (hfuel : ld32 mem addr ≤ fuel) (ht : t ∈ tags)
    (hb : TagAt mem b t) (hfit : b + round8 t.size ≤ addr + 8 + tagsLength tags) (s : Nat) :
    highestTag fuel mem s b = some (t.highest s) := by
  have htype := hb.1
  cases t with
  | mmap entrySize entries =>
      simp only [Tag.type] at htype
      rw [highestTag, if_pos htype,
        h.mmapLoop_eq hfuel ht hb hfit (fun b s e he => highestEntry_eq he s)]
      rfl
  | basicMeminfo memLower memUpper =>
      simp only [Tag.type] at htype
      rw [highestTag, htype, if_neg (by decide), if_pos rfl, hb.2.2.2]
      rfl
  | other type size =>
      simp only [Tag.type] at htype
      obtain ⟨-, -, -, -, -, hmeminfo, hmmap, -⟩ := hb
      rw [highestTag, htype, if_neg hmmap, if_neg hmeminfo]
      rfl
  | _ =>
      rw [highestTag, htype, if_neg (by simp only [Tag.type]; decide),
        if_neg (by simp only [Tag.type]; decide)]
      rfl

/-- The second pass's body on a tag. -/
theorem freeTag_eq {mem : Mem} {addr fuel b : Nat} {tags : List Tag} {t : Tag}
    (h : InfoBlock mem addr tags) (hfuel : ld32 mem addr ≤ fuel) (ht : t ∈ tags)
    (hb : TagAt mem b t) (hfit : b + round8 t.size ≤ addr + 8 + tagsLength tags) (p : Pmm) :
    freeTag fuel mem p b = some (t.entries.foldl
      (fun p e => if e.type = mmapTypeAvailable then freeRange p e.range32.1 e.range32.2
        else p) p) := by
  have htype := hb.1
  cases t with
  | mmap entrySize entries =>
      simp only [Tag.type] at htype
      rw [freeTag, if_pos htype,
        h.mmapLoop_eq hfuel ht hb hfit (fun b s e he => freeEntry_eq he s)]
      rfl
  | other type size =>
      simp only [Tag.type] at htype
      obtain ⟨-, -, -, -, -, -, hmmap, -⟩ := hb
      rw [freeTag, htype, if_neg hmmap]
      rfl
  | _ =>
      rw [freeTag, htype, if_neg (by simp only [Tag.type]; decide)]
      rfl

/-- The third pass's body on a tag. -/
theorem reserveTag_eq {mem : Mem} {b : Nat} {t : Tag} (hb : TagAt mem b t) (p : Pmm) :
    reserveTag mem p b = some (reserveRange p t.reserved.1 t.reserved.2) := by
  have htype := hb.1
  cases t with
  | module modStart modEnd string =>
      simp only [Tag.type] at htype
      obtain ⟨-, -, hstart, hend, -⟩ := hb
      rw [reserveTag, if_pos htype, hstart, hend]
      rfl
  | framebuffer size addr pitch width height =>
      simp only [Tag.type] at htype
      obtain ⟨-, -, -, haddr, hpitch, -, hheight⟩ := hb
      rw [reserveTag, htype, if_neg (by decide), if_pos rfl, haddr, hpitch,
        hheight]
      rfl
  | other type size =>
      simp only [Tag.type] at htype
      obtain ⟨-, -, -, -, hmodule, -, -, hfb⟩ := hb
      rw [reserveTag, htype, if_neg hmodule, if_neg hfb]
      rfl
  | _ =>
      rw [reserveTag, htype, if_neg (by simp only [Tag.type]; decide),
        if_neg (by simp only [Tag.type]; decide)]
      rfl

theorem foldl_reservedRanges (k : KernelImage) (addr total : Nat) (tags : List Tag) (p : Pmm) :
    (reservedRanges k addr total tags).foldl (fun p r => reserveRange p r.1 r.2) p
      = tags.foldl (fun p t => reserveRange p t.reserved.1 t.reserved.2)
          (reserveRange (reserveRange (reserveRange p 0 0x100000) k.start k.end) addr
            (add32 addr total)) := by
  rw [reservedRanges, List.foldl_append, List.foldl_map]
  rfl

/-- `pmm_init` on a well-formed block, with its loops as folds. -/
theorem pmmInit_eq (k : KernelImage) {mem : Mem} {addr fuel : Nat} {tags : List Tag}
    (h : InfoBlock mem addr tags) (hfuel : ld32 mem addr ≤ fuel) :
    let p := (tags.flatMap Tag.entries).foldl
      (fun p e => if e.type = mmapTypeAvailable then freeRange p e.range32.1 e.range32.2
        else p) (pmmStart (tags.foldl Tag.highest 0))
    pmmInit fuel k mem multiboot2BootloaderMagic addr = some
      { (reservedRanges k addr (ld32 mem addr) tags).foldl
          (fun p r => reserveRange p r.1 r.2) p with ready := true } := by
  have hmagic : ¬ (multiboot2BootloaderMagic ≠ multiboot2BootloaderMagic ∨ addr = 0) := by
    simp [h.addr_ne_zero]
  have h1 := h.tagLoop_eq hfuel (fun t ht b s hb hfit => highestTag_eq h hfuel ht hb hfit s) 0
  have h2 := h.tagLoop_eq hfuel (fun t ht b s hb hfit => freeTag_eq h hfuel ht hb hfit s)
    (pmmStart (tags.foldl Tag.highest 0))
  have h3 := h.tagLoop_eq hfuel (fun t _ b s hb _ => reserveTag_eq hb s)
  rw [pmmInit, if_neg hmagic]
  simp only [h1, h2, h3, Option.bind_some, Option.map_some]
  rw [foldl_reservedRanges, List.foldl_flatMap]

/-- `pmm_init` returns on every well-formed block, and leaves free exactly the
frames it freed and did not reserve. -/
theorem pmmInit_spec (k : KernelImage) {mem : Mem} {addr fuel : Nat} {tags : List Tag}
    (h : InfoBlock mem addr tags) (hfuel : ld32 mem addr ≤ fuel) :
    ∃ p, pmmInit fuel k mem multiboot2BootloaderMagic addr = some p ∧
      Booted k addr (ld32 mem addr) tags p := by
  have hstart := pmmStart_ok (tags.foldl Tag.highest 0)
  obtain ⟨hfree, hftotal, hfbits⟩ := freeRanges_spec (tags.flatMap Tag.entries) hstart
  have hlt : ∀ r ∈ reservedRanges k addr (ld32 mem addr) tags, r.2 < 2 ^ 32 := by
    intro r hr
    simp only [reservedRanges, List.cons_append, List.nil_append, List.mem_cons, List.mem_map] at hr
    rcases hr with rfl | rfl | rfl | ⟨t, ht, rfl⟩
    · decide
    · exact k.end_lt
    · exact add32_lt _ _
    · obtain ⟨b, hb⟩ := mem_tagsAt h.tags t ht
      exact reserved_lt hb
  obtain ⟨hres, hrtotal, hrbits⟩ := reserveRanges_spec _ hfree hlt
  refine ⟨_, pmmInit_eq k h hfuel, ⟨hres.total_le, hres.maxAddr_eq, hres.high, hres.free_eq,
    hres.used_add_free⟩, rfl, hrtotal.trans hftotal, fun i hi => ?_⟩
  have hi' : i < (pmmStart (tags.foldl Tag.highest 0)).totalFrames := by
    rw [← hftotal, ← hrtotal]
    exact hi
  have hset : (pmmStart (tags.foldl Tag.highest 0)).isSet i = true :=
    isSet_of_word_eq_allOnes (i := i / 32) rfl (by omega) (by omega)
  have hbit := hrbits i (by rw [hftotal]; exact hi')
  rw [hfbits i hi', hset] at hbit
  rw [← Bool.not_eq_true, show ∀ (q : Pmm) (r : Bool), ({ q with ready := r } : Pmm).isSet i =
    q.isSet i from fun _ _ => rfl, hbit, FreedBy, ReservedBy, availableEntries]
  simp only [true_and, not_or, not_not]

/-! ## Is a free frame usable RAM? -/

/-- Every byte of frame `i` lies in some AVAILABLE entry. -/
def InsideAvailable (tags : List Tag) (i : Nat) : Prop :=
  ∀ a, pmmFrameSize * i ≤ a → a < pmmFrameSize * (i + 1) →
    ∃ e ∈ availableEntries tags, e.addr ≤ a ∧ a < e.addr + e.len

/-- An entry below 4 GiB shares a byte with frame `i` and does not contain it:
`free_range` rounds such an entry outwards over the frame. -/
def PartlyCovers (e : MmapEntry) (i : Nat) : Prop :=
  e.addr + e.len < 2 ^ 32 ∧ Meets i e.addr (e.addr + e.len) ∧
    ¬ (e.addr ≤ pmmFrameSize * i ∧ pmmFrameSize * (i + 1) ≤ e.addr + e.len)

/-- An entry that reaches 4 GiB, and the low halves of its bounds share a byte
with frame `i`: the cast to `uint32_t` makes the entry free the frame. -/
def AliasCovers (e : MmapEntry) (i : Nat) : Prop :=
  2 ^ 32 ≤ e.addr + e.len ∧ Meets i (u32 e.addr) (u32 (e.addr + e.len))

/-- A frame freed by neither rounding nor the cast lies in its entry. -/
theorem freedBy_cases {tags : List Tag} {i : Nat} (h : FreedBy tags i) :
    InsideAvailable tags i ∨ ∃ e ∈ availableEntries tags, PartlyCovers e i ∨ AliasCovers e i := by
  obtain ⟨e, he, hmeets⟩ := h
  by_cases hlow : e.addr + e.len < 2 ^ 32
  · have hrange : e.range32 = (e.addr, e.addr + e.len) := by
      rw [MmapEntry.range32, u32_of_lt (by omega), u32_of_lt hlow]
    rw [hrange] at hmeets
    by_cases hin : e.addr ≤ pmmFrameSize * i ∧ pmmFrameSize * (i + 1) ≤ e.addr + e.len
    · exact Or.inl fun a h1 h2 => ⟨e, he, by omega, by omega⟩
    · exact Or.inr ⟨e, he, Or.inl ⟨hlow, hmeets, hin⟩⟩
  · exact Or.inr ⟨e, he, Or.inr ⟨by omega, hmeets⟩⟩

theorem freedBy_of_covers {tags : List Tag} {i : Nat} {e : MmapEntry}
    (he : e ∈ availableEntries tags) (h : PartlyCovers e i ∨ AliasCovers e i) : FreedBy tags i := by
  rcases h with ⟨hlow, hmeets, -⟩ | ⟨-, hmeets⟩
  · refine ⟨e, he, ?_⟩
    rw [MmapEntry.range32, u32_of_lt (by omega), u32_of_lt hlow]
    exact hmeets
  · exact ⟨e, he, hmeets⟩

/-- `pmm_init` offers usable RAM only, exactly when every managed frame that an
AVAILABLE entry reaches by rounding or by the cast to 32 bits, and that no
range reserves, happens to lie in AVAILABLE memory. -/
theorem pmmInit_usable_iff (k : KernelImage) {mem : Mem} {addr : Nat} {tags : List Tag}
    (h : InfoBlock mem addr tags) :
    ∃ p, pmmInit (ld32 mem addr) k mem multiboot2BootloaderMagic addr = some p ∧
      ((∀ i < p.totalFrames, p.isSet i = false → InsideAvailable tags i) ↔
        ∀ i < managedFrames tags, ¬ ReservedBy k addr (ld32 mem addr) tags i →
          ∀ e ∈ availableEntries tags, PartlyCovers e i ∨ AliasCovers e i →
            InsideAvailable tags i) := by
  obtain ⟨p, hp, hboot⟩ := pmmInit_spec k h (le_refl _)
  refine ⟨p, hp, ?_⟩
  rw [← hboot.total_eq]
  constructor
  · intro hall i hi hres e he hcov
    exact hall i hi ((hboot.clear_iff i hi).mpr ⟨freedBy_of_covers he hcov, hres⟩)
  · intro hcond i hi hclear
    obtain ⟨hfreed, hres⟩ := (hboot.clear_iff i hi).mp hclear
    rcases freedBy_cases hfreed with hin | ⟨e, he, hcov⟩
    · exact hin
    · exact hcond i hi hres e he hcov

/-! ## A memory map that does not end on a frame boundary -/

/-- Memory that holds the bytes from `base` on and zeros elsewhere. -/
def memOfBytes (base : Nat) (bytes : List UInt8) : Mem := fun a =>
  if base ≤ a then bytes.getD (a - base) 0 else 0

/-- 1 MiB of RAM and half a page from 1 MiB on, and 1 MiB from 3 MiB on. -/
def oddMapTags : List Tag := [.mmap 24 [⟨0x100000, 0x100800, 1⟩, ⟨0x300000, 0x100000, 1⟩]]

/-- The info block of `oddMapTags`. -/
def oddMapBytes : List UInt8 := [
  80, 0, 0, 0, 0, 0, 0, 0,
  6, 0, 0, 0, 64, 0, 0, 0, 24, 0, 0, 0, 0, 0, 0, 0,
  0x00, 0x00, 0x10, 0x00, 0, 0, 0, 0, 0x00, 0x08, 0x10, 0x00, 0, 0, 0, 0, 1, 0, 0, 0, 0, 0, 0, 0,
  0x00, 0x00, 0x30, 0x00, 0, 0, 0, 0, 0x00, 0x00, 0x10, 0x00, 0, 0, 0, 0, 1, 0, 0, 0, 0, 0, 0, 0,
  0, 0, 0, 0, 8, 0, 0, 0]

theorem oddMap_infoBlock : InfoBlock (memOfBytes 0x8000 oddMapBytes) 0x8000 oddMapTags where
  addr_ne_zero := by decide
  total_size := by decide
  fits := by decide
  fits_entry := by
    intro entrySize entries hmem
    obtain ⟨rfl, -⟩ : entrySize = 24 ∧ _ := by simpa [oddMapTags] using hmem
    decide
  tags := ⟨⟨by decide, by decide, by decide, by decide, ⟨by decide, by decide, by decide⟩,
    ⟨by decide, by decide, by decide⟩, trivial⟩, show ld32 _ _ = tagTypeEnd by decide⟩

/-- A kernel image in the second MiB. -/
def exampleKernel : KernelImage := ⟨0x100000, 0x180000, by decide, by decide⟩

theorem pmmInit_usable_oddMap :
    ∃ p, pmmInit (ld32 (memOfBytes 0x8000 oddMapBytes) 0x8000) exampleKernel
        (memOfBytes 0x8000 oddMapBytes) multiboot2BootloaderMagic 0x8000 = some p ∧
      ((∀ i < p.totalFrames, p.isSet i = false → InsideAvailable oddMapTags i) ↔
        ∀ i < managedFrames oddMapTags,
          ¬ ReservedBy exampleKernel 0x8000 (ld32 (memOfBytes 0x8000 oddMapBytes) 0x8000)
            oddMapTags i →
          ∀ e ∈ availableEntries oddMapTags, PartlyCovers e i ∨ AliasCovers e i →
            InsideAvailable oddMapTags i) :=
  pmmInit_usable_iff exampleKernel oddMap_infoBlock

/-- On that map frame 512 is offered, and its upper half is not RAM. -/
theorem pmmInit_offers_unusable :
    ∃ p, pmmInit 80 exampleKernel (memOfBytes 0x8000 oddMapBytes) multiboot2BootloaderMagic 0x8000
        = some p ∧
      512 < p.totalFrames ∧ p.isSet 512 = false ∧ ¬ InsideAvailable oddMapTags 512 := by
  obtain ⟨p, hp, hboot⟩ := @pmmInit_spec exampleKernel _ _ 80 _ oddMap_infoBlock (by decide)
  have htotal : managedFrames oddMapTags = 1024 := by decide
  have hlt : 512 < p.totalFrames := by
    rw [hboot.total_eq, htotal]
    decide
  refine ⟨p, hp, hlt, (hboot.clear_iff 512 hlt).mpr ⟨by decide, by decide⟩, fun hin => ?_⟩
  obtain ⟨e, he, h1, h2⟩ := hin 0x200800 (by decide) (by decide)
  have hentries : availableEntries oddMapTags
      = [⟨0x100000, 0x100800, 1⟩, ⟨0x300000, 0x100000, 1⟩] := rfl
  rw [hentries] at he
  simp only [List.mem_cons, List.not_mem_nil, or_false] at he
  rcases he with rfl | rfl
  · simp at h2
  · simp at h1

end RoninOS.Mem
