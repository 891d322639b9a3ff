/-
RoninOS.Boot.InfoLoops — the loops of the boot sequence over the Multiboot2
info block, and when they end.

`pmm_init` and `initrd_mount_from_multiboot` go from tag to tag by 32-bit
addresses, `find_mb2_framebuffer` (`kernel/console.c`) by 32-bit offsets, all by
the size that the tag gives. None of them asks that this size is positive or
that the sum stays below 2^32, so that a block can lead them back to a tag they
have seen. The entry loops of a memory-map tag advance by its `entry_size`.
`BlockEnds` says which blocks lead none of them round (`boot_ends_iff`).
-/
import RoninOS.Fs.Initrd
import RoninOS.Mem.Pmm
import RoninOS.Lib.Walks

namespace RoninOS.Boot

open RoninOS.Lib RoninOS.Mem RoninOS.Fs

/-! ## `find_mb2_framebuffer` -/

/-- `sizeof(struct mb2_tag_framebuffer_common)`. -/
def framebufferTagSize : Nat := 32

/-- The offset after the tag at offset `off`. -/
def nextOff (mem : Mem) (addr off : Nat) : Nat :=
  add32 (add32 off (ld32 mem (add32 addr off + 4))) 7 &&& not32 7

/-- `while (off + 8 <= hdr->total_size)` of `find_mb2_framebuffer`: the tag, if there
is one; `none` where the fuel runs out. -/
def framebufferLoop (mem : Mem) (addr : Nat) : Nat → Nat → Option (Option Nat)
  | 0, _ => none
  | fuel + 1, off =>
      if add32 off 8 ≤ ld32 mem addr then
        let tag := add32 addr off
        if ld32 mem tag = tagTypeEnd then some none
        else if ld32 mem tag = tagTypeFramebuffer ∧ framebufferTagSize ≤ ld32 mem (tag + 4) then
          some (some tag)
        else framebufferLoop mem addr fuel (nextOff mem addr off)
      else some none

/-- `find_mb2_framebuffer`. -/
def findMb2Framebuffer (fuel : Nat) (mem : Mem) (mbMagic mbInfoAddr : Nat) :
    Option (Option Nat) :=
  if mbMagic ≠ multiboot2BootloaderMagic ∨ mbInfoAddr = 0 then some none
  else framebufferLoop mem mbInfoAddr fuel 8

/-! ## Blocks on which the loops end -/

/-- The functions over the block at `addr` return: with some fuel every loop ends. -/
structure LoopsEnd (mem : Mem) (addr : Nat) : Prop where
  pmm : ∀ k, ∃ fuel p, pmmInit fuel k mem multiboot2BootloaderMagic addr = some p
  initrd : ∀ (Other Node : Type) (v : FsVfs (BootState Other) Unit (BootNode Node))
    (s : BootState Other), s.mem = mem →
    ∃ fuel r, initrdMountFromMultiboot fuel v s multiboot2BootloaderMagic addr = some r
  framebuffer : ∃ fuel r, findMb2Framebuffer fuel mem multiboot2BootloaderMagic addr = some r

/-- The size of the tag, rounded up to eight in 32 bits. -/
def roundedSize (mem : Mem) (tag : Nat) : Nat := add32 (ld32 mem (tag + 4)) 7 &&& not32 7

/-- `(uintptr_t)info + info->total_size - 8u`. -/
def endTag (mem : Mem) (addr : Nat) : Nat := sub32 (add32 addr (ld32 mem addr)) 8

/-- The tag loops of `pmm_init` and `initrd_mount_from_multiboot` look at this tag. -/
def TagStays (mem : Mem) (addr tag : Nat) : Prop :=
  tag < endTag mem addr ∧ ld32 mem tag ≠ tagTypeEnd

/-- The loop of `find_mb2_framebuffer` passes the tag at this offset. -/
def OffStays (mem : Mem) (addr off : Nat) : Prop :=
  add32 off 8 ≤ ld32 mem addr ∧ ld32 mem (add32 addr off) ≠ tagTypeEnd ∧
  ¬ (ld32 mem (add32 addr off) = tagTypeFramebuffer ∧
    framebufferTagSize ≤ ld32 mem (add32 addr off + 4))

/-- The tag that the tag loops come to after `k` tags. -/
def tagNo (mem : Mem) (addr k : Nat) : Nat := (tagEnd mem)^[k] (add32 addr 8)

/-- The offset that `find_mb2_framebuffer` comes to after `k` tags. -/
def offNo (mem : Mem) (addr k : Nat) : Nat := (nextOff mem addr)^[k] 8

/-- The end of a memory-map tag, `tag + tag->size`, is below the largest 32-bit
address that is a number of entries away from its first entry. -/
def EntriesEnd (mem : Mem) (tag : Nat) : Prop :=
  let d := Nat.gcd (ld32 mem (tag + 8)) (2 ^ 32)
  add32 tag (ld32 mem (tag + 4)) < 2 ^ 32 - d + add32 tag 16 % d

/-- The blocks whose sizes lead no loop round: no sizes of tags in a row, of those a
loop comes to, add up to a multiple of 2^32, and the memory-map tags among them end
where their entries do. -/
structure BlockEnds (mem : Mem) (addr : Nat) : Prop where
  tags : ∀ i j, i < j → (∀ k < j, TagStays mem addr (tagNo mem addr k)) →
    (∑ k ∈ Finset.Ico i j, roundedSize mem (tagNo mem addr k)) % 2 ^ 32 ≠ 0
  entries : ∀ i, (∀ k ≤ i, TagStays mem addr (tagNo mem addr k)) →
    ld32 mem (tagNo mem addr i) = tagTypeMmap → EntriesEnd mem (tagNo mem addr i)
  offsets : ∀ i j, i < j → (∀ k < j, OffStays mem addr (offNo mem addr k)) →
    (∑ k ∈ Finset.Ico i j, roundedSize mem (add32 addr (offNo mem addr k))) % 2 ^ 32 ≠ 0

/-! ## The loops return where the walks end -/

theorem mmapLoop_isSome_iff {σ : Type} {entrySize lim : Nat} {body : σ → Nat → σ}
    {fuel ptr : Nat} {s : σ} : (mmapLoop entrySize lim body fuel ptr s).isSome ↔
      EndsIn (fun x => add32 x entrySize ≤ lim) (fun x => add32 x entrySize) ptr fuel := by
  induction fuel generalizing ptr s with
  | zero => exact ⟨fun h => absurd h (by simp [mmapLoop]), fun ⟨n, hn, _⟩ => absurd hn (by omega)⟩
  | succ fuel ih =>
      rw [mmapLoop, endsIn_succ]
      by_cases hlim : add32 ptr entrySize ≤ lim
      · simp [hlim, ih]
      · simp [hlim]

/-- A tag loop returns exactly if its walk ends and its body returns at every tag. -/
theorem tagLoop_isSome_iff {σ : Type} {mem : Mem} {addr : Nat} {body : σ → Nat → Option σ}
    {Q : Nat → Prop} {fuel tag : Nat} {s : σ}
    (hbody : ∀ s b, Reached (TagStays mem addr) (tagEnd mem) tag b → ((body s b).isSome ↔ Q b)) :
    (tagLoop mem (endTag mem addr) body fuel tag s).isSome ↔
      EndsIn (TagStays mem addr) (tagEnd mem) tag fuel ∧
      ∀ b, Reached (TagStays mem addr) (tagEnd mem) tag b → Q b := by
  induction fuel generalizing tag s with
  | zero =>
      exact ⟨fun h => absurd h (by simp [tagLoop]), fun ⟨⟨n, hn, _⟩, _⟩ => absurd hn (by omega)⟩
  | succ fuel ih =>
      rw [tagLoop, endsIn_succ]
      by_cases hstay : tag < endTag mem addr ∧ ld32 mem tag ≠ tagTypeEnd
      · have hself : Reached (TagStays mem addr) (tagEnd mem) tag tag :=
          reached_iff.mpr ⟨hstay, Or.inl rfl⟩
        have hlater : ∀ b, Reached (TagStays mem addr) (tagEnd mem) (tagEnd mem tag) b →
            Reached (TagStays mem addr) (tagEnd mem) tag b :=
          fun b hb => reached_iff.mpr ⟨hstay, Or.inr hb⟩
        rw [if_pos hstay]
        cases hb : body s tag with
        | none =>
            have hq : ¬ Q tag := fun hq => by simpa [hb] using (hbody s tag hself).mpr hq
            exact ⟨fun h => absurd h (by simp), fun h => absurd (h.2 tag hself) hq⟩
        | some s' =>
            have hq : Q tag := (hbody s tag hself).mp (by simp [hb])
            rw [Option.bind_some, ih fun s b hb => hbody s b (hlater b hb)]
            constructor
            · rintro ⟨hends, hall⟩
              refine ⟨Or.inr ⟨hstay, hends⟩, fun b hb => ?_⟩
              obtain ⟨-, rfl | hb⟩ := reached_iff.mp hb
              · exact hq
              · exact hall b hb
            · rintro ⟨hexit | ⟨-, hends⟩, hall⟩
              · exact absurd hstay hexit
              · exact ⟨hends, fun b hb => hall b (hlater b hb)⟩
      · rw [if_neg hstay]
        refine ⟨fun _ => ⟨Or.inl hstay, fun b hb => ?_⟩, fun _ => rfl⟩
        exact absurd (reached_iff.mp hb).1 hstay

theorem framebufferLoop_isSome_iff {mem : Mem} {addr fuel off : Nat} :
    (framebufferLoop mem addr fuel off).isSome ↔
      EndsIn (OffStays mem addr) (nextOff mem addr) off fuel := by
  induction fuel generalizing off with
  | zero =>
      exact ⟨fun h => absurd h (by simp [framebufferLoop]),
        fun ⟨n, hn, _⟩ => absurd hn (by omega)⟩
  | succ fuel ih =>
      rw [framebufferLoop, endsIn_succ, ← ih]
      unfold OffStays
      by_cases hfit : add32 off 8 ≤ ld32 mem addr
      · by_cases hend : ld32 mem (add32 addr off) = tagTypeEnd
        · simp [hfit, hend]
        · by_cases hfb : ld32 mem (add32 addr off) = tagTypeFramebuffer ∧
              framebufferTagSize ≤ ld32 mem (add32 addr off + 4)
          · rw [if_pos hfit, if_neg hend, if_pos hfb]
            exact ⟨fun _ => Or.inl fun h => h.2.2 hfb, fun _ => rfl⟩
          · rw [if_pos hfit, if_neg hend, if_neg hfb]
            simp only [hfit, hend, hfb, ne_eq, not_false_eq_true, and_self, not_true_eq_false,
              true_and, false_or]
      · simp [hfit]

/-! ## The functions -/

section Functions

variable {mem : Mem} {addr fuel : Nat}

/-- The entry loop of a memory-map tag ends. -/
def EntriesIn (mem : Mem) (fuel tag : Nat) : Prop :=
  ld32 mem tag = tagTypeMmap →
    EndsIn (fun x => add32 x (ld32 mem (tag + 8)) ≤ add32 tag (ld32 mem (tag + 4)))
      (fun x => add32 x (ld32 mem (tag + 8))) (add32 tag 16) fuel

theorem highestTag_isSome_iff {highest tag : Nat} :
    (highestTag fuel mem highest tag).isSome ↔ EntriesIn mem fuel tag := by
  unfold highestTag EntriesIn
  by_cases hmmap : ld32 mem tag = tagTypeMmap
  · simp only [hmmap, if_true, true_implies]
    exact mmapLoop_isSome_iff
  · rw [if_neg hmmap]
    refine ⟨fun _ h => absurd h hmmap, fun _ => ?_⟩
    split <;> rfl

theorem freeTag_isSome_iff {p : Pmm} {tag : Nat} :
    (freeTag fuel mem p tag).isSome ↔ EntriesIn mem fuel tag := by
  unfold freeTag EntriesIn
  by_cases hmmap : ld32 mem tag = tagTypeMmap
  · simp only [hmmap, if_true, true_implies]
    exact mmapLoop_isSome_iff
  · rw [if_neg hmmap]
    exact ⟨fun _ h => absurd h hmmap, fun _ => rfl⟩

theorem reserveTag_isSome {p : Pmm} {tag : Nat} : (reserveTag mem p tag).isSome := by
  unfold reserveTag
  split
  · rfl
  · split <;> rfl

/-- `pmm_init` returns exactly if the walk over the tags ends and with it the walk over
the entries of every memory map it comes to. -/
theorem pmmInit_isSome_iff {k : KernelImage} (haddr : addr ≠ 0) :
    (pmmInit fuel k mem multiboot2BootloaderMagic addr).isSome ↔
      EndsIn (TagStays mem addr) (tagEnd mem) (add32 addr 8) fuel ∧
      ∀ b, Reached (TagStays mem addr) (tagEnd mem) (add32 addr 8) b → EntriesIn mem fuel b := by
  have hfirst := @tagLoop_isSome_iff _ mem addr (highestTag fuel mem) _ fuel
    (add32 addr 8) 0 fun _ _ _ => highestTag_isSome_iff
  have hsecond := fun p => @tagLoop_isSome_iff _ mem addr (freeTag fuel mem) _ fuel
    (add32 addr 8) p fun _ _ _ => freeTag_isSome_iff
  have hthird := fun p => @tagLoop_isSome_iff _ mem addr (reserveTag mem) _ fuel
    (add32 addr 8) p fun _ _ _ => iff_of_true reserveTag_isSome trivial
  rw [pmmInit, if_neg (by simp [haddr])]
  constructor
  · intro h
    obtain ⟨p, hp⟩ := Option.isSome_iff_exists.mp h
    obtain ⟨highest, hhighest, -⟩ := Option.bind_eq_some_iff.mp hp
    exact hfirst.mp (Option.isSome_iff_exists.mpr ⟨highest, hhighest⟩)
  · rintro ⟨hends, hentries⟩
    obtain ⟨highest, hhighest⟩ := Option.isSome_iff_exists.mp (hfirst.mpr ⟨hends, hentries⟩)
    obtain ⟨p, hp⟩ := Option.isSome_iff_exists.mp
      ((hsecond (pmmStart highest)).mpr ⟨hends, hentries⟩)
    unfold endTag at hhighest hp
    dsimp only
    rw [hhighest, Option.bind_some, hp, Option.bind_some, Option.isSome_map]
    exact (hthird _).mpr ⟨hends, fun _ _ => trivial⟩

/-! A module tag has the type 3, which is a word with three zero bytes: one of them
ends the string, at the latest where it has come round to its own tag. -/

theorem stringAt_isSome_iff {a : Nat} : (stringAt mem fuel a).isSome ↔
    EndsIn (fun x => mem x ≠ 0) (fun x => add32 x 1) a fuel := by
  induction fuel generalizing a with
  | zero => exact ⟨fun h => absurd h (by simp [stringAt]), fun ⟨n, hn, _⟩ => absurd hn (by omega)⟩
  | succ fuel ih =>
      rw [stringAt, endsIn_succ]
      by_cases hnul : mem a = 0
      · simp [hnul]
      · simp [hnul, ih]

theorem stringAt_module {tag : Nat} (htag : tag + 1 < 2 ^ 32)
    (hmodule : ld32 mem tag = tagTypeModule) (hfuel : 2 ^ 32 + 2 ≤ fuel) :
    (stringAt mem fuel (tag + 16)).isSome := by
  have hzero : mem (tag + 1) = 0 := by
    unfold ld32 le32 tagTypeModule at hmodule
    apply UInt8.toNat_inj.mp
    rw [UInt8.toNat_zero]
    omega
  have hends : WalkEnds (fun x => mem x ≠ 0) (fun x => add32 x 1) (tag + 16) := by
    refine ⟨2 ^ 32 - 16 + 1, ?_⟩
    rw [iterate_add32, Nat.mul_one, show tag + 16 + (2 ^ 32 - 16 + 1) = tag + 1 + 2 ^ 32 by omega,
      Nat.add_mod_right, Nat.mod_eq_of_lt htag]
    exact not_not.mpr hzero
  exact stringAt_isSome_iff.mpr ((hends.endsIn fun a => add32_lt a 1).mono hfuel)

theorem initrdMount_isSome {Other Node : Type} (v : FsVfs (BootState Other) Unit (BootNode Node))
    {s : BootState Other} (hmem : s.mem = mem)
    (hends : EndsIn (TagStays mem addr) (tagEnd mem) (add32 addr 8) fuel)
    (hfuel : 2 ^ 32 + 2 ≤ fuel) :
    (initrdMountFromMultiboot fuel v s multiboot2BootloaderMagic addr).isSome := by
  subst hmem
  have hbody : ∀ (fs : InitrdCtx × Nat) (tag : Nat),
      Reached (TagStays s.mem addr) (tagEnd s.mem) (add32 addr 8) tag →
      ((initrdTag fuel s.mem fs tag).isSome ↔ True) := fun fs tag htag => by
    have hlt : tag < 2 ^ 32 - 1 :=
      Nat.lt_of_lt_of_le htag.cond_at.1 (Nat.le_sub_one_of_lt (Nat.mod_lt _ (by decide)))
    rw [iff_true, initrdTag]
    by_cases hmodule : ld32 s.mem tag = tagTypeModule
    · rw [if_pos hmodule]
      by_cases hcount : fs.1.count < initrdMaxFiles
      · simp only [hcount, if_true, Option.isSome_map]
        exact stringAt_module (by omega) hmodule hfuel
      · simp only [hcount, if_false]
        rfl
    · rw [if_neg hmodule]
      rfl
  unfold initrdMountFromMultiboot
  dsimp only
  split
  · rfl
  · split
    · rfl
    · rw [Option.isSome_map]
      exact (tagLoop_isSome_iff hbody).mpr ⟨hends, fun _ _ => trivial⟩

end Functions

/-! ## When they all end -/

section Ends

variable {mem : Mem} {addr : Nat}

theorem tagsEnd_iff : WalkEnds (TagStays mem addr) (tagEnd mem) (add32 addr 8) ↔
    ∀ i j, i < j → (∀ k < j, TagStays mem addr (tagNo mem addr k)) →
      (∑ k ∈ Finset.Ico i j, roundedSize mem (tagNo mem addr k)) % 2 ^ 32 ≠ 0 :=
  sumWalk_ends_iff (add32_lt _ _) (fun _ => add32_lt _ _) (fun _ => rfl)

theorem entriesEnd_iff {tag : Nat} (hmmap : ld32 mem tag = tagTypeMmap) :
    (∃ fuel, EntriesIn mem fuel tag) ↔ EntriesEnd mem tag := by
  simp only [EntriesIn, hmmap, true_implies]
  exact walkEnds_iff_endsIn.symm.trans (stepWalk_ends_iff (add32_lt _ _))

theorem nextOff_eq (mem : Mem) (addr off : Nat) :
    nextOff mem addr off = add32 (add32 off (ld32 mem (add32 addr off + 4))) 7 / 8 * 8 :=
  and_not32_mask (k := 3) (by decide) (add32_lt _ _)

theorem roundedSize_eq (mem : Mem) (tag : Nat) :
    roundedSize mem tag = add32 (ld32 mem (tag + 4)) 7 / 8 * 8 :=
  and_not32_mask (k := 3) (by decide) (add32_lt _ _)

/-- Offsets are multiples of eight. -/
theorem dvd_offNo (mem : Mem) (addr k : Nat) : 8 ∣ offNo mem addr k := by
  cases k with
  | zero => exact dvd_refl 8
  | succ k =>
      rw [offNo, Function.iterate_succ_apply', nextOff_eq]
      exact Nat.dvd_mul_left 8 _

theorem offsetsEnd_iff : WalkEnds (OffStays mem addr) (nextOff mem addr) 8 ↔
    ∀ i j, i < j → (∀ k < j, OffStays mem addr (offNo mem addr k)) →
      (∑ k ∈ Finset.Ico i j, roundedSize mem (add32 addr (offNo mem addr k))) % 2 ^ 32 ≠ 0 := by
  refine @sumWalk_ends_iff _ _ (fun off => roundedSize mem (add32 addr off)) _ (by decide)
    (fun off => ?_) (fun k => ?_)
  · have hlt := add32_lt (add32 off (ld32 mem (add32 addr off + 4))) 7
    rw [nextOff_eq]
    omega
  · obtain ⟨q, hq⟩ := dvd_offNo mem addr k
    unfold offNo at hq
    rw [nextOff_eq, roundedSize_eq, hq]
    unfold add32
    omega

theorem LoopsEnd.blockEnds (haddr : addr ≠ 0) (h : LoopsEnd mem addr) : BlockEnds mem addr := by
  obtain ⟨fuel, p, hp⟩ := h.pmm ⟨0, 0, Nat.le_refl 0, by decide⟩
  obtain ⟨hends, hentries⟩ := (pmmInit_isSome_iff haddr).mp (Option.isSome_iff_exists.mpr ⟨p, hp⟩)
  obtain ⟨fuel', tag, htag⟩ := h.framebuffer
  rw [findMb2Framebuffer, if_neg (by simp [haddr])] at htag
  exact
    { tags := tagsEnd_iff.mp (walkEnds_iff_endsIn.mpr ⟨fuel, hends⟩)
      entries := fun i hstay hmmap =>
        (entriesEnd_iff hmmap).mp ⟨fuel, hentries _ ⟨i, rfl, hstay⟩⟩
      offsets := offsetsEnd_iff.mp (walkEnds_iff_endsIn.mpr
        ⟨fuel', framebufferLoop_isSome_iff.mp (Option.isSome_iff_exists.mpr ⟨tag, htag⟩)⟩) }

/-- No loop needs more than `2^32 + 2` rounds. -/
theorem BlockEnds.loopsEnd (haddr : addr ≠ 0) (h : BlockEnds mem addr) : LoopsEnd mem addr := by
  obtain ⟨fuel, hfuel⟩ : ∃ fuel, 2 ^ 32 + 2 ≤ fuel := ⟨_, Nat.le_refl _⟩
  have hends : EndsIn (TagStays mem addr) (tagEnd mem) (add32 addr 8) fuel :=
    ((tagsEnd_iff.mpr h.tags).endsIn fun _ => add32_lt _ _).mono hfuel
  have hentries : ∀ tag, Reached (TagStays mem addr) (tagEnd mem) (add32 addr 8) tag →
      EntriesIn mem fuel tag := by
    rintro tag ⟨i, rfl, hstay⟩ hmmap
    obtain ⟨fuel', hfuel'⟩ := (entriesEnd_iff hmmap).mpr (h.entries i hstay hmmap)
    exact ((walkEnds_iff_endsIn.mpr ⟨fuel', hfuel' hmmap⟩).endsIn fun _ => add32_lt _ _).mono hfuel
  have hoffsets : EndsIn (OffStays mem addr) (nextOff mem addr) 8 fuel := by
    refine ((offsetsEnd_iff.mpr h.offsets).endsIn fun off => ?_).mono hfuel
    exact Nat.lt_of_le_of_lt Nat.and_le_left (add32_lt _ _)
  refine ⟨fun k => ⟨fuel, ?_⟩, fun Other Node v s hmem => ⟨fuel, ?_⟩, fuel, ?_⟩
  · exact Option.isSome_iff_exists.mp ((pmmInit_isSome_iff haddr).mpr ⟨hends, hentries⟩)
  · exact Option.isSome_iff_exists.mp (initrdMount_isSome v hmem hends hfuel)
  · rw [findMb2Framebuffer, if_neg (by simp [haddr])]
    exact Option.isSome_iff_exists.mp (framebufferLoop_isSome_iff.mpr hoffsets)

/-- The boot sequence ends on the block exactly if its sizes lead no loop round. -/
theorem boot_ends_iff (haddr : addr ≠ 0) : LoopsEnd mem addr ↔ BlockEnds mem addr :=
  ⟨LoopsEnd.blockEnds haddr, BlockEnds.loopsEnd haddr⟩

end Ends

/-- A block of one memory map of one entry. -/
def mmapBlock : Mem := fun a =>
  if a = 4096 then 56 else if a = 4104 then 6 else if a = 4108 then 40 else if a = 4112 then 24
  else 0

theorem boot_ends_mmapBlock : LoopsEnd mmapBlock 4096 := by
  have htag : ¬ TagStays mmapBlock 4096 (tagNo mmapBlock 4096 1) := by
    unfold TagStays
    decide
  have hoff : ¬ OffStays mmapBlock 4096 (offNo mmapBlock 4096 1) := by
    unfold OffStays
    decide
  refine (boot_ends_iff (by decide)).mpr ⟨fun i j hij hstay => ?_, fun i hstay _ => ?_,
    fun i j hij hstay => ?_⟩
  · obtain ⟨rfl, rfl⟩ : i = 0 ∧ j = 1 := by
      by_contra hne
      exact htag (hstay 1 (by omega))
    decide
  · obtain rfl : i = 0 := by
      by_contra hne
      exact htag (hstay 1 (by omega))
    unfold EntriesEnd
    decide
  · obtain ⟨rfl, rfl⟩ : i = 0 ∧ j = 1 := by
      by_contra hne
      exact hoff (hstay 1 (by omega))
    decide

/-- A block with a tag of size 0. -/
def zeroSizeBlock : Mem := fun a => if a = 4096 then 24 else if a = 4104 then 1 else 0

/-- Every loop over tags stays at that tag. -/
theorem zeroSizeBlock_hangs : ¬ ∀ (mem : Mem) (addr : Nat), addr ≠ 0 → addr < 2 ^ 32 →
    8 ≤ ld32 mem addr → LoopsEnd mem addr := by
  intro h
  have hends := (h zeroSizeBlock 4096 (by decide) (by decide) (by decide)).blockEnds (by decide)
  refine hends.tags 0 1 (by decide) (fun k hk => ?_) (by decide)
  obtain rfl : k = 0 := Nat.lt_one_iff.mp hk
  exact ⟨by decide, by decide⟩

end RoninOS.Boot
