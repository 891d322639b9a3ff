/-
RoninOS.Lib.Raster — pixels in memory.

A raster gives each pixel its bytes: the rows are `pitch` bytes apart, and a row of
pixels fits in that. So the bytes of two pixels never overlap, and what is stored
for one leaves all others (`pixelAt_stBytes`). A loop that plots an area
(`pixelAt_fill`) and one that moves whole rows up (`pixelAt_moveRows`) are
described pixel by pixel.
-/
import RoninOS.Lib.MemMove

namespace RoninOS.Lib

/-- `width` × `height` pixels of `pixelBytes` bytes in rows of `pitch` bytes. -/
structure Raster where
  width : Nat
  height : Nat
  pitch : Nat
  pixelBytes : Nat
  row_le : width * pixelBytes ≤ pitch

namespace Raster

/-- Where the bytes of a pixel start. -/
def offset (r : Raster) (x y : Nat) : Nat := y * r.pitch + x * r.pixelBytes

/-- The bytes of a pixel. -/
def pixelAt (r : Raster) (m : Mem) (x y : Nat) : List UInt8 := bytesAt m (r.offset x y) r.pixelBytes

/-- All pixels lie in the first `height * pitch` bytes. -/
theorem offset_add_le (r : Raster) {x y : Nat} (hx : x < r.width) :
    r.offset x y + r.pixelBytes ≤ (y + 1) * r.pitch := by
  have hrow : (x + 1) * r.pixelBytes ≤ r.pitch := (Nat.mul_le_mul_right _ hx).trans r.row_le
  rw [Nat.add_mul, Nat.one_mul] at hrow ⊢
  unfold offset
  omega

/-- The bytes of two pixels do not overlap. -/
theorem offset_disjoint (r : Raster) {x y x' y' : Nat} (hx : x < r.width) (hx' : x' < r.width)
    (hne : ¬ (x = x' ∧ y = y')) : r.offset x y + r.pixelBytes ≤ r.offset x' y' ∨
      r.offset x' y' + r.pixelBytes ≤ r.offset x y := by
  rcases Nat.lt_trichotomy y y' with hy | rfl | hy
  · have hbefore := (r.offset_add_le hx).trans (Nat.mul_le_mul_right r.pitch hy)
    exact Or.inl (hbefore.trans (Nat.le_add_right _ _))
  · have hsame : ∀ {a b : Nat}, a < b → r.offset a y + r.pixelBytes ≤ r.offset b y := by
      intro a b hab
      have hmul : (a + 1) * r.pixelBytes ≤ b * r.pixelBytes := Nat.mul_le_mul_right _ hab
      rw [Nat.add_mul, Nat.one_mul] at hmul
      unfold offset
      omega
    rcases Nat.lt_or_gt_of_ne fun hx => hne ⟨hx, rfl⟩ with hlt | hgt
    · exact Or.inl (hsame hlt)
    · exact Or.inr (hsame hgt)
  · have hbefore := (r.offset_add_le hx').trans (Nat.mul_le_mul_right r.pitch hy)
    exact Or.inr (hbefore.trans (Nat.le_add_right _ _))

section Pixels

variable (r : Raster) {m m' : Mem} {x y x' y' : Nat} {v : List UInt8}

theorem pixelAt_congr (h : ∀ k < r.pixelBytes, m' (r.offset x y + k) = m (r.offset x' y' + k)) :
    r.pixelAt m' x y = r.pixelAt m x' y' :=
  List.map_congr_left fun k hk => h k (List.mem_range.mp hk)

theorem pixelAt_zero_iff : r.pixelAt m x y = List.replicate r.pixelBytes 0 ↔
    ∀ k < r.pixelBytes, m (r.offset x y + k) = 0 := by
  unfold pixelAt bytesAt
  rw [List.eq_replicate_iff]
  simp

/-- Storing the bytes of a pixel. -/
theorem pixelAt_stBytes (hx : x < r.width) (hx' : x' < r.width) (hv : v.length = r.pixelBytes) :
    r.pixelAt (stBytes m (r.offset x' y') v) x y
      = if x = x' ∧ y = y' then v else r.pixelAt m x y := by
  by_cases hsame : x = x' ∧ y = y'
  · obtain ⟨rfl, rfl⟩ := hsame
    rw [if_pos ⟨rfl, rfl⟩, pixelAt, ← hv]
    exact bytesAt_stBytes_self m _ v
  · rw [if_neg hsame]
    have hdisjoint := r.offset_disjoint hx hx' hsame
    exact r.pixelAt_congr fun k hk => stBytes_of_disjoint m (by omega)

/-- A loop that plots the pixels of an area that are selected. -/
theorem pixelAt_fill (plot : Nat → Nat → Mem → Mem) {x0 y0 w h : Nat} {sel : Nat → Nat → Prop}
    [∀ i j, Decidable (sel i j)]
    (hplot : ∀ i < w, ∀ j < h, ∀ m, r.pixelAt (plot (x0 + i) (y0 + j) m) x y
      = if x = x0 + i ∧ y = y0 + j then v else r.pixelAt m x y) :
    r.pixelAt (forLoop h (fun j m => forLoop w (fun i m =>
        if sel i j then plot (x0 + i) (y0 + j) m else m) m) m) x y
      = if (x0 ≤ x ∧ x < x0 + w) ∧ (y0 ≤ y ∧ y < y0 + h) ∧ sel (x - x0) (y - y0) then v
        else r.pixelAt m x y := by
  have hkeep : ∀ i < w, ∀ j < h, ¬ (x = x0 + i ∧ y = y0 + j) → ∀ m,
      r.pixelAt (if sel i j then plot (x0 + i) (y0 + j) m else m) x y = r.pixelAt m x y := by
    intro i hi j hj hne m
    split
    · rw [hplot i hi j hj, if_neg hne]
    · rfl
  split
  · next hin =>
      obtain ⟨⟨hx0, hxw⟩, ⟨hy0, hyh⟩, hsel⟩ := hin
      have hi : x - x0 < w := by omega
      have hj : y - y0 < h := by omega
      refine forLoop_touched (fun m => r.pixelAt m x y) hj (fun m => ?_) fun j hj hne m => ?_
      · refine forLoop_touched (fun m => r.pixelAt m x y) hi (fun m => ?_) fun i hi hne m => ?_
        · rw [if_pos hsel, hplot _ hi _ hj, if_pos (by omega)]
        · exact hkeep i hi _ hj (by omega) m
      · exact forLoop_untouched (fun m => r.pixelAt m x y)
          fun i hi m => hkeep i hi j hj (by omega) m
  · next hout =>
      refine forLoop_untouched (fun m => r.pixelAt m x y) fun j hj m =>
        forLoop_untouched (fun m => r.pixelAt m x y) fun i hi m => ?_
      by_cases hsame : x = x0 + i ∧ y = y0 + j
      · obtain ⟨rfl, rfl⟩ := hsame
        rw [Nat.add_sub_cancel_left, Nat.add_sub_cancel_left] at hout
        rw [if_neg fun hsel => hout ⟨by omega, by omega, hsel⟩]
      · exact hkeep i hi j hj hsame m

/-- Moving all rows up by `n` and clearing what is left below. -/
theorem pixelAt_moveRows {n : Nat} (hx : x < r.width) (hy : y < r.height)
    (hmove : ∀ a < (r.height - n) * r.pitch, m' a = m (n * r.pitch + a))
    (hclear : ∀ a < r.height * r.pitch, (r.height - n) * r.pitch ≤ a → m' a = 0) :
    r.pixelAt m' x y = if y + n < r.height then r.pixelAt m x (y + n)
      else List.replicate r.pixelBytes 0 := by
  have hend : r.offset x y + r.pixelBytes ≤ (y + 1) * r.pitch := r.offset_add_le hx
  split
  · next hlt =>
      refine r.pixelAt_congr fun k hk => ?_
      have hrow : (y + 1) * r.pitch ≤ (r.height - n) * r.pitch :=
        Nat.mul_le_mul_right _ (by omega)
      have hoffset : r.offset x (y + n) = n * r.pitch + r.offset x y := by
        unfold offset
        rw [Nat.add_mul]
        omega
      rw [hmove _ (by omega), hoffset, Nat.add_assoc]
  · next hge =>
      refine r.pixelAt_zero_iff.mpr fun k hk => ?_
      have hlast : (y + 1) * r.pitch ≤ r.height * r.pitch := Nat.mul_le_mul_right _ hy
      have hfirst : (r.height - n) * r.pitch ≤ y * r.pitch := Nat.mul_le_mul_right _ (by omega)
      refine hclear _ (by omega) (hfirst.trans ?_)
      unfold offset
      omega

end Pixels

end Raster

end RoninOS.Lib
