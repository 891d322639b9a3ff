/-
RoninOS.Console.Drawing — what the drawing functions do to each pixel.

On a geometry that `fb_init` accepts no address wraps, and `g_fb` is a raster.
-/
import RoninOS.Console.Shadow
import RoninOS.Lib.Raster

namespace RoninOS.Console

open RoninOS.Lib

/-- A geometry that `fb_init` sets up, with its cells tracked, over a framebuffer
that lies in the address space. -/
structure Accepted (geo : FbGeometry) : Prop where
  addr : geo.addr ≠ 0
  bpp : geo.bpp = 32 ∨ geo.bpp = 24
  font : geo.fontW = 8 ∧ geo.fontH = 16 ∨ geo.fontW = 16 ∧ geo.fontH = 32
  cols : geo.cols = geo.width / geo.fontW
  rows : geo.rows = geo.height / geo.fontH
  cols_pos : 0 < geo.cols
  rows_pos : 0 < geo.rows
  cols_le : geo.cols ≤ maxFbCols
  rows_le : geo.rows ≤ maxFbRows
  track : geo.trackCells = true
  row_le : geo.width * (geo.bpp / 8) ≤ geo.pitch
  memory : geo.pitch * geo.height < 2 ^ 32

section Geometry

variable {geo : FbGeometry} (h : Accepted geo)

include h

theorem Accepted.fontW_pos : 0 < geo.fontW := by
  rcases h.font with ⟨hw, -⟩ | ⟨hw, -⟩ <;> omega

theorem Accepted.fontH_pos : 0 < geo.fontH := by
  rcases h.font with ⟨-, hh⟩ | ⟨-, hh⟩ <;> omega

theorem Accepted.cells_width : geo.cols * geo.fontW ≤ geo.width := by
  rw [h.cols]
  exact Nat.div_mul_le_self _ _

theorem Accepted.cells_height : geo.rows * geo.fontH ≤ geo.height := by
  rw [h.rows]
  exact Nat.div_mul_le_self _ _

theorem Accepted.block_le {n : Nat} (hn : n < geo.cols) :
    n * geo.fontW + geo.fontW ≤ geo.width := by
  have hmul : (n + 1) * geo.fontW ≤ geo.cols * geo.fontW := Nat.mul_le_mul_right _ hn
  rw [Nat.add_mul, Nat.one_mul] at hmul
  exact hmul.trans h.cells_width

theorem Accepted.band_le {n : Nat} (hn : n < geo.rows) :
    n * geo.fontH + geo.fontH ≤ geo.height := by
  have hmul : (n + 1) * geo.fontH ≤ geo.rows * geo.fontH := Nat.mul_le_mul_right _ hn
  rw [Nat.add_mul, Nat.one_mul] at hmul
  exact hmul.trans h.cells_height

/-- The pixels of the framebuffer. -/
def Accepted.raster : Raster where
  width := geo.width
  height := geo.height
  pitch := geo.pitch
  pixelBytes := geo.bpp / 8
  row_le := h.row_le

theorem Accepted.length_colourBytes (fmt : FbFormat) (rgb : Nat) :
    (colourBytes fmt geo rgb).length = geo.bpp / 8 := by
  unfold colourBytes
  rcases h.bpp with hbpp | hbpp <;> rw [hbpp] <;> rfl

/-- The address that `fb_plot` computes. -/
theorem Accepted.offset_eq {x y : Nat} (hx : x < geo.width) (hy : y < geo.height) :
    add32 (mul32 y geo.pitch) (mul32 x (geo.bpp / 8)) = h.raster.offset x y := by
  have hend : h.raster.offset x y + geo.bpp / 8 ≤ (y + 1) * geo.pitch :=
    h.raster.offset_add_le hx
  have hlast : (y + 1) * geo.pitch ≤ geo.pitch * geo.height := by
    rw [Nat.mul_comm geo.pitch]
    exact Nat.mul_le_mul_right _ hy
  have hmemory := h.memory
  have hsum : y * geo.pitch + x * (geo.bpp / 8) < 2 ^ 32 := by
    have hpos : 0 < geo.bpp / 8 := by rcases h.bpp with hbpp | hbpp <;> omega
    exact lt_of_lt_of_le (Nat.lt_add_of_pos_right hpos) (hend.trans (hlast.trans hmemory.le))
  rw [mul32, mul32, Nat.mod_eq_of_lt (by omega), Nat.mod_eq_of_lt (by omega), add32_of_lt hsum]
  rfl

end Geometry

/-! ## Plotting -/

section Plot

variable {geo : FbGeometry} (h : Accepted geo) (fmt : FbFormat)

/-- `fb_plot` stores the bytes of the colour. -/
theorem fbPlot_eq {x y : Nat} (hx : x < geo.width) (hy : y < geo.height) (rgb : Nat) (fb : Mem) :
    fbPlot fmt geo x y rgb fb = stBytes fb (h.raster.offset x y) (colourBytes fmt geo rgb) := by
  unfold fbPlot colourBytes
  rw [if_neg (by omega)]
  simp only [h.offset_eq hx hy]
  rcases h.bpp with hbpp | hbpp
  · simp only [hbpp, if_true, List.cons_append, List.nil_append, stBytes_cons, stBytes_nil]
  · simp only [hbpp, if_true, Nat.reduceEqDiff, if_false, stBytes_cons, stBytes_nil]

theorem pixelAt_fbPlot {x y x' y' : Nat} (hx : x < geo.width) (hx' : x' < geo.width)
    (hy' : y' < geo.height) (rgb : Nat) (fb : Mem) :
    h.raster.pixelAt (fbPlot fmt geo x' y' rgb fb) x y
      = if x = x' ∧ y = y' then colourBytes fmt geo rgb else h.raster.pixelAt fb x y := by
  rw [fbPlot_eq h fmt hx' hy']
  exact h.raster.pixelAt_stBytes hx hx' (h.length_colourBytes fmt rgb)

/-- Plotting the selected pixels of an area. -/
theorem pixelAt_fbPlots {x y x0 y0 w k : Nat} (hx : x < geo.width) (hw : x0 + w ≤ geo.width)
    (hk : y0 + k ≤ geo.height) (sel : Nat → Nat → Prop) [∀ i j, Decidable (sel i j)] (rgb : Nat)
    (fb : Mem) : h.raster.pixelAt (forLoop k (fun j fb => forLoop w (fun i fb =>
        if sel i j then fbPlot fmt geo (x0 + i) (y0 + j) rgb fb else fb) fb) fb) x y
      = if (x0 ≤ x ∧ x < x0 + w) ∧ (y0 ≤ y ∧ y < y0 + k) ∧ sel (x - x0) (y - y0) then
          colourBytes fmt geo rgb
        else h.raster.pixelAt fb x y :=
  h.raster.pixelAt_fill (fun x y fb => fbPlot fmt geo x y rgb fb) fun i hi j hj fb =>
    pixelAt_fbPlot h fmt hx (by omega) (by omega) rgb fb

end Plot

/-! ## Cells -/

section Cell

variable {geo : FbGeometry} (h : Accepted geo) (fmt : FbFormat)

/-- The pixels of a block of `w` are those with its number. -/
theorem block_iff {w x n : Nat} (hw : 0 < w) : n * w ≤ x ∧ x < n * w + w ↔ x / w = n := by
  rw [Nat.div_eq_iff hw]
  omega

/-- Their place in the block. -/
theorem sub_block {w x n : Nat} (hn : x / w = n) : x - n * w = x % w := by
  rw [← hn, Nat.mod_eq_sub_div_mul]

/-- Plotting the selected pixels of a block. -/
theorem pixelAt_block {cx cy x y : Nat} (hcx : cx < geo.cols) (hcy : cy < geo.rows)
    (hx : x < geo.width) (sel : Nat → Nat → Prop) [∀ i j, Decidable (sel i j)] (rgb : Nat)
    (fb : Mem) : h.raster.pixelAt (forLoop geo.fontH (fun j fb => forLoop geo.fontW (fun i fb =>
        if sel i j then fbPlot fmt geo (cx * geo.fontW + i) (cy * geo.fontH + j) rgb fb
        else fb) fb) fb) x y
      = if (x / geo.fontW = cx ∧ y / geo.fontH = cy) ∧ sel (x % geo.fontW) (y % geo.fontH) then
          colourBytes fmt geo rgb
        else h.raster.pixelAt fb x y := by
  rw [pixelAt_fbPlots h fmt hx (h.block_le hcx) (h.band_le hcy) sel]
  refine if_congr ?_ rfl rfl
  rw [block_iff h.fontW_pos, block_iff h.fontH_pos, ← and_assoc]
  refine and_congr_right fun hblock => ?_
  rw [sub_block hblock.1, sub_block hblock.2]

/-- `draw_cell` draws its own block. -/
theorem pixelAt_drawCell {c : UInt8} {cx cy x y : Nat} {s : FbState} (hgeo : s.geo = geo)
    (hcx : cx < geo.cols) (hcy : cy < geo.rows) (hx : x < geo.width) :
    h.raster.pixelAt (drawCell fmt c cx cy s).fb x y =
      if x / geo.fontW = cx ∧ y / geo.fontH = cy then
        colourBytes fmt geo (if IsDot geo c (x % geo.fontW) (y % geo.fontH) then 0xE0E0E0
          else 0x000000)
      else h.raster.pixelAt s.fb x y := by
  have hbg := pixelAt_block (y := y) h fmt hcx hcy hx (fun _ _ => True) 0 s.fb
  have hfg := pixelAt_block (y := y) h fmt hcx hcy hx (IsDot geo c) 0xE0E0E0
  simp only [if_true, and_true] at hbg
  have hdrawn : (drawCell fmt c cx cy s).fb = forLoop geo.fontH (fun j fb =>
      forLoop geo.fontW (fun i fb => if IsDot geo c i j then
        fbPlot fmt geo (cx * geo.fontW + i) (cy * geo.fontH + j) 0xE0E0E0 fb else fb) fb)
      (forLoop geo.fontH (fun j fb => forLoop geo.fontW (fun i fb =>
        fbPlot fmt geo (cx * geo.fontW + i) (cy * geo.fontH + j) 0 fb) fb) s.fb) := by
    unfold drawCell IsDot
    simp only [hgeo]
    rw [if_neg (by omega)]
    rcases h.font with ⟨hw, hh⟩ | ⟨hw, hh⟩
    · simp only [hw, hh, and_self, if_true]
    · simp only [hw, hh, Nat.reduceEqDiff, and_self, if_false]
  rw [hdrawn, hfg, hbg]
  by_cases hblock : x / geo.fontW = cx ∧ y / geo.fontH = cy
  · simp only [hblock, true_and, and_self, if_true]
    split <;> rfl
  · rw [if_neg fun hin => hblock hin.1, if_neg hblock, if_neg hblock]

/-- `draw_cursor` draws its bar. -/
theorem pixelAt_drawCursor {x y : Nat} {s : FbState} (hgeo : s.geo = geo)
    (hcx : s.cursorX < geo.cols) (hcy : s.cursorY < geo.rows) (hx : x < geo.width) :
    h.raster.pixelAt (drawCursor fmt s).fb x y =
      if InBar geo s.cursorX s.cursorY x y then colourBytes fmt geo 0x50A0FF
      else h.raster.pixelAt s.fb x y := by
  have hwidth := h.block_le hcx
  have hheight := h.band_le hcy
  have hbar : geo.fontH / 8 ≤ geo.fontH := Nat.div_le_self _ _
  have hdrawn : (drawCursor fmt s).fb = forLoop (geo.fontH / 8) (fun j fb =>
      forLoop geo.fontW (fun i fb => if True then fbPlot fmt geo (s.cursorX * geo.fontW + i)
        (s.cursorY * geo.fontH + (geo.fontH - geo.fontH / 8) + j) 0x50A0FF fb
        else fb) fb) s.fb := by
    unfold drawCursor
    simp only [hgeo, if_true, Nat.add_sub_cancel_left]
    rw [if_neg (not_or.mpr ⟨h.addr, by omega⟩),
      show s.cursorY * geo.fontH + geo.fontH
        - (s.cursorY * geo.fontH + (geo.fontH - geo.fontH / 8)) = geo.fontH / 8 by omega]
  rw [hdrawn, pixelAt_fbPlots h fmt hx hwidth (by omega) (fun _ _ => True)]
  refine if_congr ?_ rfl rfl
  rw [and_true, InBar, block_iff h.fontW_pos, ← block_iff h.fontH_pos]
  refine and_congr_right fun _ => ⟨fun hy => ?_, fun hy => ?_⟩
  · have hrow := (block_iff h.fontH_pos).mp (show s.cursorY * geo.fontH ≤ y ∧
      y < s.cursorY * geo.fontH + geo.fontH by omega)
    rw [← sub_block hrow]
    omega
  · rw [← sub_block ((block_iff h.fontH_pos).mp hy.1)] at hy
    omega

end Cell

end RoninOS.Console
