/-
RoninOS.Mem.PmmTheorems — what each operation of the frame allocator does.

`PmmOk` is the accounting invariant: the counters agree with the bitmap and
the bits at or above `total_frames` are set. Taking a clear frame and giving
a set one keep it, so the range functions, `pmm_alloc_frame` and
`pmm_free_frame` keep it, for any arguments.

Each operation has one lemma that says what it does to every frame; no later
proof unfolds a loop of `pmm.c` again.
-/
import RoninOS.Mem.Pmm
import Mathlib.Data.Finset.Card
import Mathlib.Order.Interval.Finset.Nat

namespace RoninOS.Mem

open RoninOS.Lib

/-! ## Bits and counters -/

theorem isSet_takeFrame (p : Pmm) (i j : Nat) :
    (p.takeFrame i).isSet j = (decide (j = i) || p.isSet j) :=
  Bitmap.test_set (by decide) p.bitmap i j

theorem isSet_giveFrame (p : Pmm) (i j : Nat) :
    (p.giveFrame i).isSet j = (!decide (j = i) && p.isSet j) :=
  Bitmap.test_clear (by decide) p.bitmap i j

/-- The free frames below `total_frames`. -/
def clearFrames (p : Pmm) : Finset Nat :=
  (Finset.range p.totalFrames).filter (fun i => p.isSet i = false)

theorem mem_clearFrames {p : Pmm} {i : Nat} :
    i ∈ clearFrames p ↔ i < p.totalFrames ∧ p.isSet i = false := by
  simp [clearFrames]

/-- The accounting invariant. -/
structure PmmOk (p : Pmm) : Prop where
  total_le : p.totalFrames ≤ pmmMaxFrames
  maxAddr_eq : p.maxAddr = p.totalFrames * pmmFrameSize
  high : ∀ i, p.totalFrames ≤ i → p.isSet i = true
  free_eq : p.freeFrames = (clearFrames p).card
  used_add_free : p.usedFrames + p.freeFrames = p.totalFrames

theorem PmmOk.total_lt {p : Pmm} (h : PmmOk p) : p.totalFrames < 2 ^ 32 :=
  Nat.lt_of_le_of_lt h.total_le (by decide)

theorem PmmOk.takeFrame {p : Pmm} (h : PmmOk p) {i : Nat} (hi : i < p.totalFrames)
    (hclear : p.isSet i = false) : PmmOk (p.takeFrame i) := by
  have hmem : i ∈ clearFrames p := mem_clearFrames.mpr ⟨hi, hclear⟩
  have hpos : 0 < (clearFrames p).card := Finset.card_pos.mpr ⟨i, hmem⟩
  have hset : clearFrames (p.takeFrame i) = (clearFrames p).erase i := by
    ext j
    rw [Finset.mem_erase, mem_clearFrames, mem_clearFrames, isSet_takeFrame]
    by_cases hj : j = i <;> simp [hj, Pmm.takeFrame]
  have htotal := h.total_lt
  have hsum := h.used_add_free
  have hfree := h.free_eq
  have hfree' : (p.takeFrame i).freeFrames = p.freeFrames - 1 :=
    sub32_of_le (by omega) (by omega)
  have hused' : (p.takeFrame i).usedFrames = p.usedFrames + 1 := add32_of_lt (by omega)
  refine ⟨h.total_le, h.maxAddr_eq, ?_, ?_, ?_⟩
  · intro j hj
    rw [isSet_takeFrame, h.high j hj, Bool.or_true]
  · rw [hset, Finset.card_erase_of_mem hmem, hfree', hfree]
  · rw [hfree', hused']
    exact (by omega : p.usedFrames + 1 + (p.freeFrames - 1) = p.totalFrames)

theorem PmmOk.giveFrame {p : Pmm} (h : PmmOk p) {i : Nat} (hi : i < p.totalFrames)
    (hset : p.isSet i = true) : PmmOk (p.giveFrame i) := by
  have hnot : i ∉ clearFrames p := fun hm => by
    simp [(mem_clearFrames.mp hm).2] at hset
  have hins : clearFrames (p.giveFrame i) = insert i (clearFrames p) := by
    ext j
    rw [Finset.mem_insert, mem_clearFrames, mem_clearFrames, isSet_giveFrame]
    by_cases hj : j = i
    · simp [hj, Pmm.giveFrame, hi]
    · simp [hj, Pmm.giveFrame]
  -- a set frame below the total leaves room for one more free frame
  have hlt : (clearFrames p).card < p.totalFrames := by
    have hsub : insert i (clearFrames p) ⊆ Finset.range p.totalFrames := by
      intro j hj
      rcases Finset.mem_insert.mp hj with rfl | hj
      · exact Finset.mem_range.mpr hi
      · exact Finset.mem_range.mpr (mem_clearFrames.mp hj).1
    have := Finset.card_le_card hsub
    rw [Finset.card_insert_of_notMem hnot, Finset.card_range] at this
    omega
  have htotal := h.total_lt
  have hsum := h.used_add_free
  have hfree := h.free_eq
  have hfree' : (p.giveFrame i).freeFrames = p.freeFrames + 1 := add32_of_lt (by omega)
  have hused' : (p.giveFrame i).usedFrames = p.usedFrames - 1 :=
    sub32_of_le (by omega) (by omega)
  refine ⟨h.total_le, h.maxAddr_eq, ?_, ?_, ?_⟩
  · intro j hj
    have hne : j ≠ i := fun he => absurd hi (by rw [← he]; exact Nat.not_lt.mpr hj)
    rw [isSet_giveFrame, h.high j hj]
    simp [hne]
  · rw [hins, Finset.card_insert_of_notMem hnot, hfree', hfree]
  · rw [hfree', hused']
    exact (by omega : p.usedFrames - 1 + (p.freeFrames + 1) = p.totalFrames)

/-! ## Ranges -/

/-- Frame `i` shares a byte with the range `[start, end)`. -/
def Meets (i start end_ : Nat) : Prop :=
  start < end_ ∧ start < pmmFrameSize * (i + 1) ∧ pmmFrameSize * i < end_

instance (i start end_ : Nat) : Decidable (Meets i start end_) := by
  unfold Meets; infer_instance

/-- The range functions visit the managed frames that the range shares a byte with. -/
theorem mem_rangeFrames {p : Pmm} (h : PmmOk p) {i start end_ : Nat} (hend : end_ < 2 ^ 32) :
    i ∈ rangeFrames p start end_ ↔ i < p.totalFrames ∧ Meets i start end_ := by
  have hmax := h.maxAddr_eq
  have hle := h.total_le
  simp only [pmmFrameSize, pmmMaxFrames, pmmMaxPhysAddr] at hmax hle
  unfold rangeFrames Meets
  by_cases h1 : start ≥ end_
  · rw [if_pos h1]
    simp only [List.not_mem_nil, false_iff, not_and]
    omega
  · rw [if_neg h1]
    by_cases h2 : start ≥ p.maxAddr
    · rw [if_pos h2]
      simp only [List.not_mem_nil, false_iff, not_and, pmmFrameSize]
      omega
    · rw [if_neg h2]
      have hclamp : (if end_ > p.maxAddr then p.maxAddr else end_) = min end_ p.maxAddr := by
        split <;> omega
      have hs : alignDown start pmmFrameSize / pmmFrameSize = start / 4096 := by
        rw [show pmmFrameSize = 2 ^ 12 from rfl, alignDown_eq (by decide) (by omega)]
        omega
      have he : alignUp (min end_ p.maxAddr) pmmFrameSize / pmmFrameSize
          = (min end_ p.maxAddr + 4095) / 4096 := by
        rw [show pmmFrameSize = 2 ^ 12 from rfl, alignUp_eq (by decide) (by omega)]
        omega
      simp only [hclamp, hs, he, List.mem_range']
      simp only [pmmFrameSize]
      constructor
      · rintro ⟨j, hj, rfl⟩
        omega
      · rintro ⟨hi, _, h3, h4⟩
        exact ⟨i - start / 4096, by omega, by omega⟩

/-- A loop over managed frames that takes or gives frames keeps the invariant
and the managed size; `step` is what one round does. -/
theorem foldl_frames {step : Pmm → Nat → Pmm}
    (hstep : ∀ p i, PmmOk p → i < p.totalFrames →
      PmmOk (step p i) ∧ (step p i).totalFrames = p.totalFrames ∧
      (step p i).ready = p.ready) : ∀ (frames : List Nat) {p : Pmm}, PmmOk p →
    (∀ i ∈ frames, i < p.totalFrames) →
    PmmOk (frames.foldl step p) ∧ (frames.foldl step p).totalFrames = p.totalFrames ∧
      (frames.foldl step p).ready = p.ready
  | [], _, h, _ => ⟨h, rfl, rfl⟩
  | i :: is, p, h, hlt => by
      obtain ⟨hok, htotal, hready⟩ := hstep p i h (hlt i (by simp))
      obtain ⟨hok', htotal', hready'⟩ := foldl_frames hstep is hok
        (fun j hj => by rw [htotal]; exact hlt j (by simp [hj]))
      exact ⟨hok', htotal'.trans htotal, hready'.trans hready⟩

theorem reserveRange_spec {p : Pmm} (h : PmmOk p) {start end_ : Nat} (hend : end_ < 2 ^ 32) :
    PmmOk (reserveRange p start end_) ∧
    (reserveRange p start end_).totalFrames = p.totalFrames ∧
    (reserveRange p start end_).ready = p.ready ∧
    ∀ i < p.totalFrames, ((reserveRange p start end_).isSet i = true ↔
      p.isSet i = true ∨ Meets i start end_) := by
  have hstep : ∀ (q : Pmm) i, PmmOk q → i < q.totalFrames →
      PmmOk (if ¬ q.isSet i then q.takeFrame i else q) ∧
      (if ¬ q.isSet i then q.takeFrame i else q).totalFrames = q.totalFrames ∧
      (if ¬ q.isSet i then q.takeFrame i else q).ready = q.ready := by
    intro q i hq hi
    by_cases hs : q.isSet i = true
    · simp [hs, hq]
    · rw [if_pos hs]
      exact ⟨hq.takeFrame hi (by simpa using hs), rfl, rfl⟩
  have hbits : ∀ (frames : List Nat) (q : Pmm) i,
      (frames.foldl (fun q i => if ¬ q.isSet i then q.takeFrame i else q) q).isSet i = true ↔
        q.isSet i = true ∨ i ∈ frames := by
    intro frames
    induction frames with
    | nil => intro q i; simp
    | cons j js ih =>
        intro q i
        rw [List.foldl_cons, ih, List.mem_cons]
        by_cases hs : q.isSet j = true
        · rw [if_neg (not_not.mpr hs)]
          by_cases hij : i = j
          · simp [hij, hs]
          · simp [hij]
        · rw [if_pos hs, isSet_takeFrame]
          by_cases hij : i = j <;> simp [hij]
  have hlt : ∀ i ∈ rangeFrames p start end_, i < p.totalFrames :=
    fun i hi => ((mem_rangeFrames h hend).mp hi).1
  obtain ⟨hok, htotal, hready⟩ := foldl_frames hstep _ h hlt
  refine ⟨hok, htotal, hready, fun i hi => ?_⟩
  rw [reserveRange, hbits, mem_rangeFrames h hend]
  simp [hi]

theorem freeRange_spec {p : Pmm} (h : PmmOk p) {start end_ : Nat} (hend : end_ < 2 ^ 32) :
    PmmOk (freeRange p start end_) ∧
    (freeRange p start end_).totalFrames = p.totalFrames ∧
    (freeRange p start end_).ready = p.ready ∧
    ∀ i < p.totalFrames, ((freeRange p start end_).isSet i = true ↔
      p.isSet i = true ∧ ¬ Meets i start end_) := by
  have hstep : ∀ (q : Pmm) i, PmmOk q → i < q.totalFrames →
      PmmOk (if q.isSet i then q.giveFrame i else q) ∧
      (if q.isSet i then q.giveFrame i else q).totalFrames = q.totalFrames ∧
      (if q.isSet i then q.giveFrame i else q).ready = q.ready := by
    intro q i hq hi
    by_cases hs : q.isSet i = true
    · simp only [hs, if_true]
      exact ⟨hq.giveFrame hi hs, rfl, rfl⟩
    · simp [hs, hq]
  have hbits : ∀ (frames : List Nat) (q : Pmm) i,
      (frames.foldl (fun q i => if q.isSet i then q.giveFrame i else q) q).isSet i = true ↔
        q.isSet i = true ∧ i ∉ frames := by
    intro frames
    induction frames with
    | nil => intro q i; simp
    | cons j js ih =>
        intro q i
        rw [List.foldl_cons, ih, List.mem_cons]
        by_cases hs : q.isSet j = true
        · rw [if_pos hs, isSet_giveFrame]
          by_cases hij : i = j <;> simp [hij]
        · rw [if_neg hs]
          by_cases hij : i = j
          · simp [hij, hs]
          · simp [hij]
  have hlt : ∀ i ∈ rangeFrames p start end_, i < p.totalFrames :=
    fun i hi => ((mem_rangeFrames h hend).mp hi).1
  obtain ⟨hok, htotal, hready⟩ := foldl_frames hstep _ h hlt
  refine ⟨hok, htotal, hready, fun i hi => ?_⟩
  rw [freeRange, hbits, mem_rangeFrames h hend]
  simp [hi]

/-! ## Allocation and release -/

/-- The bit scan finds the first clear managed frame of its word. -/
theorem scanBits_eq_some {p : Pmm} {i f : Nat} : ∀ {n bit : Nat}, bit + n = 32 →
    scanBits p i n bit = some f →
    f < p.totalFrames ∧ p.isSet f = false ∧
      ∀ j, i * 32 + bit ≤ j → j < f → p.isSet j = true
  | 0, _, _, h => by simp [scanBits] at h
  | n + 1, bit, hn, h => by
      have hword : (i * 32 + bit) / 32 = i := by omega
      have hmask : Bitmap.mask 32 bit = Bitmap.mask 32 (i * 32 + bit) := by
        unfold Bitmap.mask
        congr 1
        omega
      simp only [scanBits] at h
      split at h
      · simp at h
      · rename_i hlt
        split at h
        · rename_i hclear
          obtain rfl := Option.some.inj h
          refine ⟨by omega, ?_, fun j h1 h2 => absurd h1 (by omega)⟩
          rw [Pmm.isSet, Bitmap.test, hword, ← hmask, hclear]
          simp
        · rename_i hset
          obtain ⟨h1, h2, h3⟩ := scanBits_eq_some (by omega) h
          refine ⟨h1, h2, fun j hj hjf => ?_⟩
          rcases Nat.eq_or_lt_of_le hj with rfl | hj
          · rw [Pmm.isSet, Bitmap.test, hword, ← hmask]
            simpa using hset
          · exact h3 j (by omega) hjf

/-- A bit scan that finds nothing has seen only used managed frames. -/
theorem scanBits_eq_none {p : Pmm} {i : Nat} : ∀ {n bit : Nat}, bit + n = 32 →
    scanBits p i n bit = none →
    ∀ j, i * 32 + bit ≤ j → j < i * 32 + 32 → j < p.totalFrames → p.isSet j = true
  | 0, _, hn, _, j, h1, h2, _ => absurd h1 (by omega)
  | n + 1, bit, hn, h, j, h1, h2, h3 => by
      have hword : (i * 32 + bit) / 32 = i := by omega
      have hmask : Bitmap.mask 32 bit = Bitmap.mask 32 (i * 32 + bit) := by
        unfold Bitmap.mask
        congr 1
        omega
      simp only [scanBits] at h
      split at h
      · omega
      · split at h
        · simp at h
        · rename_i hset
          rcases Nat.eq_or_lt_of_le h1 with rfl | h1
          · rw [Pmm.isSet, Bitmap.test, hword, ← hmask]
            simpa using hset
          · exact scanBits_eq_none (by omega) h j (by omega) h2 h3

/-- An all-ones word has no clear frame. -/
theorem isSet_of_word_eq_allOnes {p : Pmm} {i : Nat} (h : p.bitmap i = BitVec.allOnes 32)
    {j : Nat} (h1 : i * 32 ≤ j) (h2 : j < i * 32 + 32) : p.isSet j = true := by
  have := (Bitmap.eq_allOnes_iff p.bitmap i).mp h (j - i * 32) (by omega)
  rwa [show i * 32 + (j - i * 32) = j by omega] at this

/-- The word scan finds the first clear managed frame. -/
theorem scanWords_eq_some {p : Pmm} {f : Nat} : ∀ {n i : Nat},
    scanWords p n i = some f →
    f < p.totalFrames ∧ p.isSet f = false ∧ ∀ j, i * 32 ≤ j → j < f → p.isSet j = true
  | 0, _, h => by simp [scanWords] at h
  | n + 1, i, h => by
      -- the words before the frame's own: this one has no clear managed frame
      have hskip : ∀ (hrest : scanWords p n (i + 1) = some f),
          (∀ j, i * 32 ≤ j → j < i * 32 + 32 → j < p.totalFrames → p.isSet j = true) →
          f < p.totalFrames ∧ p.isSet f = false ∧
            ∀ j, i * 32 ≤ j → j < f → p.isSet j = true := by
        intro hrest hword
        obtain ⟨h1, h2, h3⟩ := scanWords_eq_some hrest
        refine ⟨h1, h2, fun j hj hjf => ?_⟩
        by_cases hw : j < i * 32 + 32
        · exact hword j hj hw (by omega)
        · exact h3 j (by omega) hjf
      simp only [scanWords] at h
      split at h
      · split at h
        · rename_i hfound
          obtain rfl := Option.some.inj h
          obtain ⟨h1, h2, h3⟩ := scanBits_eq_some (by decide) hfound
          exact ⟨h1, h2, fun j hj hjf => h3 j (by omega) hjf⟩
        · rename_i hnone
          exact hskip h fun j hj hw hlt => scanBits_eq_none (by decide) hnone j hj hw hlt
      · rename_i hones
        exact hskip h fun j hj hw _ =>
          isSet_of_word_eq_allOnes (by simpa using hones) hj hw

theorem scanWords_eq_none {p : Pmm} : ∀ {n i : Nat}, scanWords p n i = none →
    ∀ j, i * 32 ≤ j → j < (i + n) * 32 → j < p.totalFrames → p.isSet j = true
  | 0, _, _, j, h1, h2, _ => absurd h1 (by omega)
  | n + 1, i, h, j, h1, h2, h3 => by
      simp only [scanWords] at h
      split at h
      · split at h
        · simp at h
        · rename_i hnone
          by_cases hw : j < i * 32 + 32
          · exact scanBits_eq_none (by decide) hnone j h1 hw h3
          · exact scanWords_eq_none h j (by omega) (by omega) h3
      · rename_i hones
        by_cases hw : j < i * 32 + 32
        · exact isSet_of_word_eq_allOnes (by simpa using hones) h1 hw
        · exact scanWords_eq_none h j (by omega) (by omega) h3

/-- `pmm_alloc_frame` takes the first free frame, or changes nothing when there is none. -/
theorem pmmAllocFrame_cases {p : Pmm} (h : PmmOk p) (hready : p.ready = true) :
    (∃ f, f < p.totalFrames ∧ p.isSet f = false ∧ (∀ j < f, p.isSet j = true) ∧
      pmmAllocFrame p = (f * pmmFrameSize, p.takeFrame f)) ∨
    (p.freeFrames = 0 ∧ pmmAllocFrame p = (0, p)) := by
  have htotal := h.total_le
  rw [pmmAllocFrame, if_neg (by simp [hready])]
  cases hscan : scanWords p pmmBitmapWords 0 with
  | some f =>
      obtain ⟨hlt, hclear, hfirst⟩ := scanWords_eq_some hscan
      refine Or.inl ⟨f, hlt, hclear, fun j hj => hfirst j (by omega) hj, ?_⟩
      simp only [pmmMaxFrames, pmmMaxPhysAddr, pmmFrameSize] at htotal
      show (mul32 f pmmFrameSize, p.takeFrame f) = _
      rw [mul32_of_lt (by simp only [pmmFrameSize]; omega)]
  | none =>
      have hall := scanWords_eq_none hscan
      refine Or.inr ⟨?_, rfl⟩
      rw [h.free_eq, Finset.card_eq_zero, Finset.eq_empty_iff_forall_notMem]
      intro i hi
      obtain ⟨hlt, hclear⟩ := mem_clearFrames.mp hi
      have hbound : i < (0 + pmmBitmapWords) * 32 := by
        simp only [pmmBitmapWords, pmmMaxFrames, pmmMaxPhysAddr, pmmFrameSize] at htotal ⊢
        omega
      rw [hall i (by omega) hbound hlt] at hclear
      exact absurd hclear (by decide)

/-- `pmm_free_frame` gives back a used managed frame, or changes nothing. -/
theorem pmmFreeFrame_cases (p : Pmm) (physAddr : Nat) :
    (∃ f, physAddr = f * pmmFrameSize ∧ f < p.totalFrames ∧ p.isSet f = true ∧
      p.ready = true ∧ pmmFreeFrame p physAddr = p.giveFrame f) ∨
    pmmFreeFrame p physAddr = p := by
  unfold pmmFreeFrame
  by_cases h1 : ¬ p.ready ∨ physAddr &&& (pmmFrameSize - 1) ≠ 0
  · exact Or.inr (if_pos h1)
  · rw [if_neg h1]
    rw [not_or, not_not, not_not, show pmmFrameSize - 1 = 2 ^ 12 - 1 from rfl, and_mask] at h1
    simp only
    split
    · exact Or.inr rfl
    · rename_i hlt
      split
      · rename_i hset
        refine Or.inl ⟨physAddr / pmmFrameSize, ?_, by omega, hset, h1.1, rfl⟩
        have := h1.2
        simp only [pmmFrameSize]
        omega
      · exact Or.inr rfl

/-- Freeing the address of a used managed frame gives the frame back. -/
theorem pmmFreeFrame_frame {p : Pmm} (hready : p.ready = true) {f : Nat}
    (hlt : f < p.totalFrames) (hset : p.isSet f = true) :
    pmmFreeFrame p (f * pmmFrameSize) = p.giveFrame f := by
  have haligned : f * pmmFrameSize &&& (pmmFrameSize - 1) = 0 := by
    rw [show pmmFrameSize - 1 = 2 ^ 12 - 1 from rfl, and_mask, pmmFrameSize]
    omega
  have hframe : f * pmmFrameSize / pmmFrameSize = f := Nat.mul_div_cancel f (by decide)
  rw [pmmFreeFrame, if_neg (by simp [hready, haligned])]
  simp only [hframe]
  rw [if_neg (by omega), if_pos hset]

theorem PmmOk.pmmAllocFrame {p : Pmm} (h : PmmOk p) : PmmOk (pmmAllocFrame p).2 := by
  by_cases hready : p.ready = true
  · rcases pmmAllocFrame_cases h hready with ⟨f, hlt, hclear, -, heq⟩ | ⟨-, heq⟩
    · rw [heq]
      exact h.takeFrame hlt hclear
    · rw [heq]
      exact h
  · rw [Mem.pmmAllocFrame, if_pos (by simpa using hready)]
    exact h

theorem PmmOk.pmmFreeFrame {p : Pmm} (h : PmmOk p) (physAddr : Nat) :
    PmmOk (pmmFreeFrame p physAddr) := by
  rcases pmmFreeFrame_cases p physAddr with ⟨f, -, hlt, hset, -, heq⟩ | heq
  · rw [heq]
    exact h.giveFrame hlt hset
  · rw [heq]
    exact h

/-- A frame that is taken and given back leaves the allocator as it was. -/
theorem giveFrame_takeFrame {p : Pmm} (h : PmmOk p) {f : Nat} (hlt : f < p.totalFrames)
    (hclear : p.isSet f = false) : (p.takeFrame f).giveFrame f = p := by
  have hpos : 0 < p.freeFrames := by
    rw [h.free_eq]
    exact Finset.card_pos.mpr ⟨f, mem_clearFrames.mpr ⟨hlt, hclear⟩⟩
  have htotal := h.total_lt
  have hsum := h.used_add_free
  have hfree : add32 (sub32 p.freeFrames 1) 1 = p.freeFrames := by
    rw [sub32_of_le (by omega) (by omega), add32_of_lt (by omega)]
    omega
  have hused : sub32 (add32 p.usedFrames 1) 1 = p.usedFrames := by
    rw [add32_of_lt (by omega), sub32_of_le (by omega) (by omega)]
    omega
  cases p
  simp only [Pmm.takeFrame, Pmm.giveFrame] at *
  rw [Bitmap.clear_set (by decide) _ _ hclear, hfree, hused]

end RoninOS.Mem
