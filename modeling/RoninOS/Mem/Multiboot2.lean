/-
RoninOS.Mem.Multiboot2 — the Multiboot2 info block of
`kernel/mem/multiboot2.h` and the loops that walk it.

The info block is raw memory; `tagLoop` and `mmapLoop` are the two loops that
`pmm_init` (and `initrd_mount_from_multiboot`) run over it, with the loop
body as a parameter. A tag of size 0 or an entry size of 0 makes them run
forever, so they take fuel and return `none` when it runs out.

`TagsAt` says what a well-formed block is: a chain of tags whose sizes add up
to the block, each holding the fields of an abstract `Tag`. On such a block
the loops visit exactly the tags and exactly the entries, in order.
-/
import RoninOS.Lib.Word32
import RoninOS.Lib.Memory

namespace RoninOS.Mem

open RoninOS.Lib

/-! ## Constants -/

/-- `MULTIBOOT2_BOOTLOADER_MAGIC`. -/
def multiboot2BootloaderMagic : Nat := 0x36d76289

/-- `MULTIBOOT2_TAG_TYPE_END`. -/
def tagTypeEnd : Nat := 0
/-- `MULTIBOOT2_TAG_TYPE_MODULE`. -/
def tagTypeModule : Nat := 3
/-- `MULTIBOOT2_TAG_TYPE_BASIC_MEMINFO`. -/
def tagTypeBasicMeminfo : Nat := 4
/-- `MULTIBOOT2_TAG_TYPE_MMAP`. -/
def tagTypeMmap : Nat := 6
/-- `MULTIBOOT2_TAG_TYPE_FRAMEBUFFER`. -/
def tagTypeFramebuffer : Nat := 8
/-- `MULTIBOOT2_MMAP_TYPE_AVAILABLE`. -/
def mmapTypeAvailable : Nat := 1

/-! ## The loops over a block -/

/-- `tag_end`: the address of the next tag. -/
def tagEnd (mem : Mem) (tag : Nat) : Nat :=
  add32 tag (add32 (ld32 mem (tag + 4)) 7 &&& not32 7)

/-- `while (tag < end_tag && tag->type != END)`; `none` where the body does not
return or the fuel runs out. -/
def tagLoop {σ : Type} (mem : Mem) (endTag : Nat) (body : σ → Nat → Option σ) :
    Nat → Nat → σ → Option σ
  | 0, _, _ => none
  | fuel + 1, tag, s =>
      if tag < endTag ∧ ld32 mem tag ≠ tagTypeEnd then
        (body s tag).bind (tagLoop mem endTag body fuel (tagEnd mem tag))
      else some s

/-- `while (ptr + entry_size <= lim)` over the entries of a memory-map tag. -/
def mmapLoop {σ : Type} (entrySize lim : Nat) (body : σ → Nat → σ) : Nat → Nat → σ → Option σ
  | 0, _, _ => none
  | fuel + 1, ptr, s =>
      if add32 ptr entrySize ≤ lim then
        mmapLoop entrySize lim body fuel (add32 ptr entrySize) (body s ptr)
      else some s

/-! ## Abstract tags -/

/-- `struct mb2_mmap_entry`. -/
structure MmapEntry where
  addr : Nat
  len : Nat
  type : Nat
  deriving DecidableEq, Repr

/-- The tags of a block. `other` is any tag whose type the kernel ignores. -/
inductive Tag
  | mmap (entrySize : Nat) (entries : List MmapEntry)
  | basicMeminfo (memLower memUpper : Nat)
  | module (modStart modEnd : Nat) (string : List UInt8)
  | framebuffer (size addr pitch width height : Nat)
  | other (type size : Nat)
  deriving DecidableEq, Repr

/-- The `type` field. -/
def Tag.type : Tag → Nat
  | .mmap .. => tagTypeMmap
  | .basicMeminfo .. => tagTypeBasicMeminfo
  | .module .. => tagTypeModule
  | .framebuffer .. => tagTypeFramebuffer
  | .other type _ => type

/-- The `size` field. -/
def Tag.size : Tag → Nat
  | .mmap entrySize entries => 16 + entrySize * entries.length
  | .basicMeminfo .. => 16
  | .module _ _ string => 16 + string.length + 1
  | .framebuffer size .. => size
  | .other _ size => size

/-- A size rounded up to the 8-byte tag alignment. -/
def round8 (n : Nat) : Nat := (n + 7) / 8 * 8

/-- The bytes of a list of tags. -/
def tagsLength (tags : List Tag) : Nat := (tags.map (fun t => round8 t.size)).sum

/-! ## Blocks in memory -/

/-- The memory at `a` holds the entry. -/
def EntryAt (mem : Mem) (a : Nat) (e : MmapEntry) : Prop :=
  ld64 mem a = e.addr ∧ ld64 mem (a + 8) = e.len ∧ ld32 mem (a + 16) = e.type

/-- The memory from `a` on holds the entries, `entrySize` bytes apart. -/
def EntriesAt (mem : Mem) (entrySize : Nat) : Nat → List MmapEntry → Prop
  | _, [] => True
  | a, e :: es => EntryAt mem a e ∧ EntriesAt mem entrySize (a + entrySize) es

/-- The fields of a tag after `type` and `size`. -/
def PayloadAt (mem : Mem) (a : Nat) : Tag → Prop
  | .mmap entrySize entries =>
      ld32 mem (a + 8) = entrySize ∧ 24 ≤ entrySize ∧ EntriesAt mem entrySize (a + 16) entries
  | .basicMeminfo memLower memUpper =>
      ld32 mem (a + 8) = memLower ∧ ld32 mem (a + 12) = memUpper
  | .module modStart modEnd string =>
      ld32 mem (a + 8) = modStart ∧ ld32 mem (a + 12) = modEnd ∧ modStart ≤ modEnd ∧
      (∀ i < string.length, mem (a + 16 + i) = string.getD i 0) ∧
      mem (a + 16 + string.length) = 0
  | .framebuffer size addr pitch width height =>
      32 ≤ size ∧ ld64 mem (a + 8) = addr ∧ ld32 mem (a + 16) = pitch ∧
      ld32 mem (a + 20) = width ∧ ld32 mem (a + 24) = height
  | .other type size =>
      8 ≤ size ∧ type ≠ tagTypeEnd ∧ type ≠ tagTypeModule ∧ type ≠ tagTypeBasicMeminfo ∧
      type ≠ tagTypeMmap ∧ type ≠ tagTypeFramebuffer

/-- The memory at `a` holds the tag. -/
def TagAt (mem : Mem) (a : Nat) (t : Tag) : Prop :=
  ld32 mem a = t.type ∧ ld32 mem (a + 4) = t.size ∧ PayloadAt mem a t

/-- The memory from `a` on holds the tags and then the end tag. -/
def TagsAt (mem : Mem) : Nat → List Tag → Prop
  | a, [] => ld32 mem a = tagTypeEnd
  | a, t :: ts => TagAt mem a t ∧ TagsAt mem (a + round8 t.size) ts

/-- A well-formed info block at `addr`: the header, the tags and the end tag
fill `total_size` bytes of the 32-bit address space, and the address one entry
past the end of a memory map is a 32-bit address as well. -/
structure InfoBlock (mem : Mem) (addr : Nat) (tags : List Tag) : Prop where
  addr_ne_zero : addr ≠ 0
  total_size : ld32 mem addr = 8 + tagsLength tags + 8
  fits : addr + ld32 mem addr ≤ 2 ^ 32
  fits_entry : ∀ entrySize entries, Tag.mmap entrySize entries ∈ tags →
    addr + ld32 mem addr + entrySize ≤ 2 ^ 32
  tags : TagsAt mem (addr + 8) tags

/-! ## The loops on well-formed blocks -/

theorem round8_eq_and {n : Nat} (h : n + 7 < 2 ^ 32) : add32 n 7 &&& not32 7 = round8 n := by
  rw [add32_of_lt h]
  exact and_not32_mask (k := 3) (by decide) h

theorem le_round8 (n : Nat) : n ≤ round8 n := by
  unfold round8
  omega

theorem eight_le_size {mem : Mem} {a : Nat} {t : Tag} (h : TagAt mem a t) : 8 ≤ t.size := by
  obtain ⟨-, -, hp⟩ := h
  cases t with
  | mmap entrySize entries => simp only [Tag.size]; omega
  | basicMeminfo => simp only [Tag.size]; omega
  | module => simp only [Tag.size]; omega
  | framebuffer size => exact le_trans (by decide) hp.1
  | other type size => exact hp.1

theorem type_ne_end {mem : Mem} {a : Nat} {t : Tag} (h : TagAt mem a t) :
    ld32 mem a ≠ tagTypeEnd := by
  obtain ⟨htype, -, hp⟩ := h
  rw [htype]
  cases t with
  | other type size => exact hp.2.1
  | _ => simp only [Tag.type]; decide

/-- Over well-formed tags `tag_end` steps to the next tag. -/
theorem tagEnd_eq {mem : Mem} {a : Nat} {t : Tag} (h : TagAt mem a t)
    (hfit : a + round8 t.size < 2 ^ 32) : tagEnd mem a = a + round8 t.size := by
  have hle := le_round8 t.size
  have h8 := eight_le_size h
  have hround : t.size + 7 < 2 ^ 32 := by
    unfold round8 at hfit
    omega
  rw [tagEnd, h.2.1, round8_eq_and hround, add32_of_lt hfit]

/-- On a well-formed chain the tag loop runs its body once per tag, in order. -/
theorem tagLoop_eq {σ : Type} {mem : Mem} {endTag : Nat} {body : σ → Nat → Option σ}
    {step : σ → Tag → σ} : ∀ (tags : List Tag) (a : Nat) (s : σ) (fuel : Nat),
    TagsAt mem a tags → a + tagsLength tags = endTag → endTag < 2 ^ 32 →
    (∀ t ∈ tags, ∀ b s, TagAt mem b t → b + round8 t.size ≤ endTag →
      body s b = some (step s t)) →
    tags.length < fuel → tagLoop mem endTag body fuel a s = some (tags.foldl step s)
  | [], a, s, fuel, h, _, _, _, hfuel => by
      obtain ⟨fuel, rfl⟩ : ∃ n, fuel = n + 1 := ⟨fuel - 1, by simp at hfuel; omega⟩
      have hend : ld32 mem a = tagTypeEnd := h
      rw [tagLoop, if_neg (by simp [hend])]
      rfl
  | t :: ts, a, s, fuel, ⟨ht, hts⟩, hlen, hend, hbody, hfuel => by
      obtain ⟨fuel, rfl⟩ : ∃ n, fuel = n + 1 := ⟨fuel - 1, by simp at hfuel; omega⟩
      have h8 := eight_le_size ht
      have hle := le_round8 t.size
      have hlen' : a + round8 t.size + tagsLength ts = endTag := by
        rw [← hlen]
        simp only [tagsLength, List.map_cons, List.sum_cons]
        omega
      have hbt := hbody t (by simp) a s ht (by omega)
      rw [tagLoop, if_pos ⟨by omega, type_ne_end ht⟩, hbt, Option.bind_some,
        tagEnd_eq ht (by omega),
        tagLoop_eq ts _ _ fuel hts hlen' hend
          (fun t' ht' => hbody t' (by simp [ht'])) (by simp at hfuel; omega)]
      rfl

/-- On a well-formed memory-map tag the entry loop runs its body once per
entry, in order. -/
theorem mmapLoop_eq {σ : Type} {mem : Mem} {entrySize lim : Nat} {body : σ → Nat → σ}
    {step : σ → MmapEntry → σ} (hpos : 0 < entrySize) (hlim : lim + entrySize < 2 ^ 32) :
    ∀ (entries : List MmapEntry) (a : Nat) (s : σ) (fuel : Nat),
    EntriesAt mem entrySize a entries → a + entrySize * entries.length = lim →
    (∀ b s e, EntryAt mem b e → body s b = step s e) →
    entries.length < fuel →
    mmapLoop entrySize lim body fuel a s = some (entries.foldl step s)
  | [], a, s, fuel, _, hlen, _, hfuel => by
      obtain ⟨fuel, rfl⟩ : ∃ n, fuel = n + 1 := ⟨fuel - 1, by simp at hfuel; omega⟩
      simp only [List.length_nil, Nat.mul_zero, Nat.add_zero] at hlen
      rw [mmapLoop, add32_of_lt (by omega), if_neg (by omega)]
      rfl
  | e :: es, a, s, fuel, ⟨he, hes⟩, hlen, hbody, hfuel => by
      obtain ⟨fuel, rfl⟩ : ∃ n, fuel = n + 1 := ⟨fuel - 1, by simp at hfuel; omega⟩
      have hlen' : a + entrySize + entrySize * es.length = lim := by
        rw [← hlen, List.length_cons, Nat.mul_succ]
        omega
      rw [mmapLoop, add32_of_lt (by omega), if_pos (by omega), hbody a s e he,
        mmapLoop_eq hpos hlim es _ _ fuel hes hlen' hbody (by simp at hfuel; omega)]
      rfl

end RoninOS.Mem
