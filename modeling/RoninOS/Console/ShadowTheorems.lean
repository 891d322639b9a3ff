/-
RoninOS.Console.ShadowTheorems — the framebuffer shows its cells.

Between two calls the screen shows the cursor; within one the cursor is erased
first and drawn last. `Bare` is what holds in between, and the characters are
followed through it. Moving the rows of pixels and moving the cells is the
same only where both are done: on a screen of one row it has to be blank.
-/
import RoninOS.Console.Drawing

namespace RoninOS.Console

open RoninOS.Lib

variable {fmt : FbFormat} {geo : FbGeometry} {s : FbState} {t : Teletype UInt8 geo.cols geo.rows}

/-! ## What is kept -/

/-- The statics are those of the page. -/
structure Follows (s : FbState) (t : Teletype UInt8 geo.cols geo.rows) : Prop where
  sameGeo : s.geo = geo
  cursorX : s.cursorX = t.x
  cursorY : s.cursorY = t.y
  cells : ∀ cx < geo.cols, ∀ cy < geo.rows, cellAt s cx cy = t.grid cx cy

/-- The screen shows the page without a cursor. -/
structure Bare (fmt : FbFormat) (h : Accepted geo) (s : FbState)
    (t : Teletype UInt8 geo.cols geo.rows) : Prop extends Follows s t where
  pixels : ∀ x < geo.width, ∀ y < geo.height,
    h.raster.pixelAt s.fb x y = colourBytes fmt geo (cellColour geo t.grid x y)

theorem Shows.follows (hs : Shows fmt s t) : Follows s t :=
  ⟨hs.sameGeo, hs.cursorX, hs.cursorY, hs.cells⟩

/-- Drawing changes pixels only. -/
theorem Follows.withFb (hs : Follows s t) (fb : Mem) : Follows { s with fb := fb } t :=
  ⟨hs.sameGeo, hs.cursorX, hs.cursorY, hs.cells⟩

theorem drawCell_frame (fmt : FbFormat) (c : UInt8) (cx cy : Nat) (s : FbState) :
    ∃ fb, drawCell fmt c cx cy s = { s with fb := fb } := by
  unfold drawCell
  dsimp only
  split
  · exact ⟨s.fb, rfl⟩
  · exact ⟨_, rfl⟩

theorem drawCursor_frame (fmt : FbFormat) (s : FbState) :
    ∃ fb, drawCursor fmt s = { s with fb := fb } := by
  unfold drawCursor
  dsimp only
  split
  · exact ⟨s.fb, rfl⟩
  · exact ⟨_, rfl⟩

theorem drawCell_cursorX (c : UInt8) (cx cy : Nat) (s : FbState) :
    (drawCell fmt c cx cy s).cursorX = s.cursorX := by
  obtain ⟨fb, heq⟩ := drawCell_frame fmt c cx cy s
  rw [heq]

theorem drawCell_cursorY (c : UInt8) (cx cy : Nat) (s : FbState) :
    (drawCell fmt c cx cy s).cursorY = s.cursorY := by
  obtain ⟨fb, heq⟩ := drawCell_frame fmt c cx cy s
  rw [heq]

theorem cellAt_drawCursor (s : FbState) (cx cy : Nat) :
    cellAt (drawCursor fmt s) cx cy = cellAt s cx cy := by
  obtain ⟨fb, heq⟩ := drawCursor_frame fmt s
  rw [heq]
  rfl

theorem Follows.drawCell (hs : Follows s t) (c : UInt8) (cx cy : Nat) :
    Follows (drawCell fmt c cx cy s) t := by
  obtain ⟨fb, heq⟩ := drawCell_frame fmt c cx cy s
  rw [heq]
  exact hs.withFb fb

theorem Follows.drawCursor (hs : Follows s t) : Follows (drawCursor fmt s) t := by
  obtain ⟨fb, heq⟩ := drawCursor_frame fmt s
  rw [heq]
  exact hs.withFb fb

/-! ## Colours -/

theorem cellColour_congr {cell cell' : Nat → Nat → UInt8}
    (hcell : ∀ cx < geo.cols, ∀ cy < geo.rows, cell cx cy = cell' cx cy) (x y : Nat) :
    cellColour geo cell x y = cellColour geo cell' x y := by
  unfold cellColour
  dsimp only
  refine if_congr (and_congr_right fun hin => ?_) rfl rfl
  rw [hcell _ hin.1 _ hin.2]

theorem isDot_space (i j : Nat) : ¬ IsDot geo 32 i j := by
  unfold IsDot
  rw [glyph8x16Row_space, glyph16x32Row_space]
  split <;> simp

/-- Below the cells everything is background. -/
theorem cellColour_below {cell : Nat → Nat → UInt8} {x y : Nat} (hy : geo.rows ≤ y / geo.fontH) :
    cellColour geo cell x y = 0 :=
  if_neg fun hdot => by omega

theorem cellColour_blank {cell : Nat → Nat → UInt8}
    (hcell : ∀ cx < geo.cols, ∀ cy < geo.rows, cell cx cy = 32) (x y : Nat) :
    cellColour geo cell x y = 0 := by
  refine if_neg fun hdot => ?_
  rw [hcell _ hdot.1.1 _ hdot.1.2] at hdot
  exact isDot_space _ _ hdot.2

section Screen

variable (h : Accepted geo)

include h

theorem Accepted.pixelBytes_eq (hgeo : s.geo = geo) (x y : Nat) :
    pixelBytes s x y = h.raster.pixelAt s.fb x y := by
  subst hgeo
  rfl

/-- Background is stored as zeros. -/
theorem Accepted.colourBytes_zero (fmt : FbFormat) :
    colourBytes fmt geo 0 = List.replicate (geo.bpp / 8) 0 := by
  unfold colourBytes packColor
  rcases h.bpp with hbpp | hbpp
  · rw [hbpp]
    cases fmt <;> rfl
  · rw [hbpp]
    cases fmt <;> rfl

/-- The page that has moved up is what was below. -/
theorem cellColour_scroll (t : Teletype UInt8 geo.cols geo.rows) {x y : Nat} :
    cellColour geo (t.scroll 32).grid x y
      = if y + geo.fontH < geo.height then cellColour geo t.grid x (y + geo.fontH) else 0 := by
  have hH := h.fontH_pos
  have hdiv : (y + geo.fontH) / geo.fontH = y / geo.fontH + 1 := Nat.add_div_right y hH
  have hmod : (y + geo.fontH) % geo.fontH = y % geo.fontH := Nat.add_mod_right y _
  have hscroll : cellColour geo (t.scroll 32).grid x y
      = cellColour geo t.grid x (y + geo.fontH) := by
    unfold cellColour Teletype.scroll
    simp only [hdiv, hmod]
    refine if_congr ?_ rfl rfl
    by_cases hnext : y / geo.fontH + 1 < geo.rows
    · rw [if_pos hnext]
      exact and_congr_left fun _ => by omega
    · rw [if_neg hnext]
      exact iff_of_false (fun hdot => isDot_space _ _ hdot.2) fun hdot => hnext hdot.1.2
  rw [hscroll]
  split
  · rfl
  · next hge =>
      refine cellColour_below ?_
      rw [h.rows]
      exact Nat.div_le_div_right (not_lt.mp hge)

end Screen

/-! ## The cursor -/

section Cursor

variable {h : Accepted geo}

/-- Erasing the cursor draws the character under it. -/
theorem Shows.erase (hs : Shows fmt s t) : Bare fmt h (eraseCursor fmt s) t := by
  have hfollows := hs.follows
  obtain ⟨hx, hy⟩ := hs.inside
  have hget : cellGet s.cursorX s.cursorY s = t.grid t.x t.y := by
    have hcell := hs.cells t.x t.x_lt t.y t.y_lt
    rw [cellAt, hs.sameGeo] at hcell
    rw [cellGet, hs.sameGeo, if_neg (by rw [h.track]; simp; omega), hs.cursorX, hs.cursorY]
    exact hcell
  unfold eraseCursor
  refine { hfollows.drawCell _ _ _ with pixels := fun x hx' y hy' => ?_ }
  rw [pixelAt_drawCell h fmt hs.sameGeo hx hy hx', hget]
  split
  · next hblock =>
      rw [cellColour, hblock.1, hblock.2, hs.cursorX, hs.cursorY]
      have hin : t.x < geo.cols ∧ t.y < geo.rows := ⟨t.x_lt, t.y_lt⟩
      simp only [hin, and_self, true_and]
  · next hblock =>
      rw [← h.pixelBytes_eq hs.sameGeo, hs.pixels x hx' y hy', rendering,
        if_neg fun hbar => hblock ⟨hbar.1, hbar.2.1⟩, cellColour_congr hs.cells]

theorem Follows.shows (hs : Follows s t) (hpixels : ∀ x < geo.width, ∀ y < geo.height,
    h.raster.pixelAt s.fb x y = colourBytes fmt geo (rendering geo t.grid t.x t.y x y)) :
    Shows fmt s t where
  sameGeo := hs.sameGeo
  cursorX := hs.cursorX
  cursorY := hs.cursorY
  inside := ⟨hs.cursorX ▸ t.x_lt, hs.cursorY ▸ t.y_lt⟩
  cells := hs.cells
  pixels x hx y hy := by
    rw [h.pixelBytes_eq hs.sameGeo, hpixels x hx y hy, hs.cursorX, hs.cursorY, rendering, rendering,
      cellColour_congr hs.cells]

/-- Drawing the cursor. -/
theorem Bare.draw (hs : Bare fmt h s t) : Shows fmt (drawCursor fmt s) t := by
  have hx : s.cursorX < geo.cols := hs.cursorX ▸ t.x_lt
  have hy : s.cursorY < geo.rows := hs.cursorY ▸ t.y_lt
  refine hs.toFollows.drawCursor.shows (h := h) fun x hx' y hy' => ?_
  rw [pixelAt_drawCursor h fmt hs.sameGeo hx hy hx', hs.cursorX, hs.cursorY, rendering]
  split
  · rfl
  · exact hs.pixels x hx' y hy'

/-- Drawing it again changes nothing. -/
theorem Shows.draw (hs : Shows fmt s t) (h : Accepted geo) : Shows fmt (drawCursor fmt s) t := by
  obtain ⟨hx, hy⟩ := hs.inside
  refine hs.follows.drawCursor.shows (h := h) fun x hx' y hy' => ?_
  rw [pixelAt_drawCursor h fmt hs.sameGeo hx hy hx', hs.cursorX, hs.cursorY]
  split
  · next hbar => rw [rendering, if_pos hbar]
  · rw [← h.pixelBytes_eq hs.sameGeo, hs.pixels x hx' y hy', hs.cursorX, hs.cursorY, rendering,
      rendering, cellColour_congr hs.cells]

end Cursor

/-! ## Writing -/

section Write

variable {h : Accepted geo}

theorem cell_index_inj {cols cx cy cx' cy' : Nat} (hcx : cx < cols) (hcx' : cx' < cols)
    (heq : cy * cols + cx = cy' * cols + cx') : cx = cx' ∧ cy = cy' := by
  have hpos : 0 < cols := Nat.lt_of_le_of_lt (Nat.zero_le _) hcx
  have hmod := congrArg (· % cols) heq
  have hdiv := congrArg (· / cols) heq
  simp only [Nat.mul_comm _ cols, Nat.mul_add_mod, Nat.mod_eq_of_lt hcx,
    Nat.mod_eq_of_lt hcx', Nat.mul_add_div hpos, Nat.div_eq_of_lt hcx,
    Nat.div_eq_of_lt hcx'] at hmod hdiv
  exact ⟨hmod, hdiv⟩

/-- Drawing a character and setting its cell. -/
theorem Bare.write (hs : Bare fmt h s t) (c : UInt8) :
    Bare fmt h (cellSet s.cursorX s.cursorY c (drawCell fmt c s.cursorX s.cursorY s))
      (t.write c) := by
  have hdrawn : Follows (drawCell fmt c s.cursorX s.cursorY s) t := hs.toFollows.drawCell c _ _
  have hpixel := fun x y (hx : x < geo.width) => pixelAt_drawCell (y := y) (c := c) h fmt hs.sameGeo
    (hs.cursorX ▸ t.x_lt) (hs.cursorY ▸ t.y_lt) hx
  rw [hs.cursorX, hs.cursorY] at hdrawn hpixel ⊢
  generalize drawCell fmt c t.x t.y s = s' at hdrawn hpixel ⊢
  have hset : cellSet t.x t.y c s'
      = { s' with cells := Function.update s'.cells (t.y * geo.cols + t.x) c } := by
    have hx := t.x_lt
    have hy := t.y_lt
    rw [cellSet, hdrawn.sameGeo, if_neg (by rw [h.track]; simp; omega)]
  rw [hset]
  refine ⟨⟨hdrawn.sameGeo, hdrawn.cursorX, hdrawn.cursorY, fun cx hcx cy hcy => ?_⟩,
    fun x hx y hy => ?_⟩
  · rw [Teletype.write_grid, ← hdrawn.cells cx hcx cy hcy, cellAt, cellAt, hdrawn.sameGeo]
    by_cases hsame : cx = t.x ∧ cy = t.y
    · obtain ⟨rfl, rfl⟩ := hsame
      rw [if_pos ⟨rfl, rfl⟩]
      exact Function.update_self ..
    · rw [if_neg hsame]
      exact Function.update_of_ne (fun heq => hsame (cell_index_inj hcx t.x_lt heq)) ..
  · rw [hpixel x y hx]
    unfold cellColour
    dsimp only
    rw [Teletype.write_grid]
    by_cases hblock : x / geo.fontW = t.x ∧ y / geo.fontH = t.y
    · have hin : x / geo.fontW < geo.cols ∧ y / geo.fontH < geo.rows :=
        ⟨hblock.1 ▸ t.x_lt, hblock.2 ▸ t.y_lt⟩
      rw [if_pos hblock, if_pos hblock]
      simp only [hin, and_self, true_and]
    · rw [if_neg hblock, if_neg hblock]
      exact hs.pixels x hx y hy

end Write

/-! ## Scrolling -/

section Scroll

variable {h : Accepted geo}

/-- `scroll_up` moves all rows of pixels up by a row of text. -/
theorem pixelAt_scrollUp (fmt : FbFormat) (hgeo : s.geo = geo) (hmore : geo.fontH < geo.height)
    {x y : Nat} (hx : x < geo.width) (hy : y < geo.height) :
    h.raster.pixelAt (scrollUp s).fb x y = if y + geo.fontH < geo.height then
        h.raster.pixelAt s.fb x (y + geo.fontH)
      else colourBytes fmt geo 0 := by
  have hmemory := h.memory
  have hrow : geo.pitch * geo.fontH ≤ geo.pitch * geo.height := Nat.mul_le_mul_left _ hmore.le
  have hmove : geo.pitch * (geo.height - geo.fontH) + geo.pitch * geo.fontH
      = geo.pitch * geo.height := by
    rw [← Nat.mul_add, Nat.sub_add_cancel hmore.le]
  have hfb : (scrollUp s).fb = memset (memmove s.fb 0 (geo.pitch * geo.fontH)
      (geo.pitch * (geo.height - geo.fontH))) (geo.pitch * (geo.height - geo.fontH)) 0
      (geo.pitch * geo.fontH) := by
    have hpx : mul32 geo.pitch geo.fontH = geo.pitch * geo.fontH := mul32_of_lt (by omega)
    have hbytes : mul32 geo.pitch (geo.height - geo.fontH)
        = geo.pitch * (geo.height - geo.fontH) := mul32_of_lt (by omega)
    unfold scrollUp
    simp only [hgeo]
    rw [if_neg (not_or.mpr ⟨h.addr, not_le.mpr hmore⟩), hpx, hbytes]
  rw [hfb, h.colourBytes_zero]
  refine h.raster.pixelAt_moveRows hx hy (fun a ha => ?_) fun a ha hclear => ?_
  · have hlow : a < geo.pitch * (geo.height - geo.fontH) := by rwa [Nat.mul_comm]
    rw [memset_apply, if_neg (by omega), memmove_apply, if_pos (by omega), Nat.sub_zero,
      Nat.mul_comm geo.pitch]
    rfl
  · have hhigh : geo.pitch * (geo.height - geo.fontH) ≤ a := by rwa [Nat.mul_comm]
    have hend : a < geo.pitch * geo.height := by rwa [Nat.mul_comm]
    rw [memset_apply, if_pos (by omega)]

theorem scrollUp_geo (s : FbState) : (scrollUp s).geo = s.geo := by
  unfold scrollUp
  dsimp only
  split <;> rfl

theorem scrollUp_cursorX (s : FbState) : (scrollUp s).cursorX = s.cursorX := by
  unfold scrollUp
  dsimp only
  split <;> rfl

/-- Two rows of text or more are higher than one. -/
theorem Accepted.fontH_lt (h : Accepted geo) (hrows : 1 < geo.rows) : geo.fontH < geo.height := by
  have htwo : 2 * geo.fontH ≤ geo.rows * geo.fontH := Nat.mul_le_mul_right _ hrows
  have hH := h.fontH_pos
  have hheight := h.cells_height
  omega

/-- The cells move up where there are two rows or more. -/
theorem cellAt_scrollUp (h : Accepted geo) (hgeo : s.geo = geo) (hrows : 1 < geo.rows) {cx cy : Nat}
    (hcx : cx < geo.cols) (hcy : cy < geo.rows) :
    cellAt (scrollUp s) cx cy = if cy + 1 < geo.rows then cellAt s cx (cy + 1) else 32 := by
  have hcols := h.cols_le
  have hrowsLe := h.rows_le
  simp only [maxFbCols, maxFbRows] at hcols hrowsLe
  have hsize : (geo.rows - 1) * geo.cols ≤ 256 * 512 := Nat.mul_le_mul (by omega) hcols
  have hbytes : mul32 (geo.rows - 1) geo.cols = (geo.rows - 1) * geo.cols :=
    mul32_of_lt (by omega)
  have hcells : (scrollUp s).cells = memset (memmove s.cells 0 geo.cols ((geo.rows - 1) * geo.cols))
      ((geo.rows - 1) * geo.cols) 32 geo.cols := by
    unfold scrollUp
    simp only [hgeo]
    rw [if_neg (not_or.mpr ⟨h.addr, not_le.mpr (h.fontH_lt hrows)⟩), hbytes]
    exact if_pos ⟨h.track, hrows⟩
  have hnext : (cy + 1) * geo.cols = cy * geo.cols + geo.cols := Nat.succ_mul _ _
  rw [cellAt, scrollUp_geo, hcells, cellAt, hgeo]
  split
  · next hlt =>
      have hrow : (cy + 1) * geo.cols ≤ (geo.rows - 1) * geo.cols :=
        Nat.mul_le_mul_right _ (by omega)
      rw [memset_apply, if_neg (by omega), memmove_apply, if_pos (by omega)]
      exact congrArg s.cells (by omega)
  · next hge =>
      obtain rfl : cy = geo.rows - 1 := by omega
      rw [memset_apply, if_pos (by omega)]

/-- One row of cells stays as it is. -/
theorem scrollUp_cells_oneRow (hgeo : s.geo = geo) (hrows : geo.rows = 1) :
    (scrollUp s).cells = s.cells := by
  unfold scrollUp
  simp only [hgeo, hrows, lt_irrefl, and_false, if_false]
  split <;> rfl

/-- The cells after scrolling are those of the page that has moved up. -/
theorem cells_scroll (h : Accepted geo) (hgeo : s.geo = geo)
    (hcells : ∀ cx < geo.cols, ∀ cy < geo.rows, cellAt s cx cy = t.grid cx cy)
    (hkeep : geo.rows = 1 → t.Blank 32) : ∀ cx < geo.cols, ∀ cy < geo.rows,
      cellAt (scrollUp s) cx cy = (t.scroll 32).grid cx cy := by
  intro cx hcx cy hcy
  rw [Teletype.scroll_grid]
  by_cases hone : geo.rows = 1
  · rw [if_neg (by omega), cellAt, scrollUp_cells_oneRow hgeo hone, scrollUp_geo]
    exact (hcells cx hcx cy hcy).trans (hkeep hone cx hcx cy hcy)
  · have hrows := h.rows_pos
    rw [cellAt_scrollUp h hgeo (by omega) hcx hcy]
    split
    · next hnext => exact hcells cx hcx (cy + 1) hnext
    · rfl

/-- So are the pixels. -/
theorem pixels_scroll (hgeo : s.geo = geo)
    (hpixels : ∀ x < geo.width, ∀ y < geo.height,
      h.raster.pixelAt s.fb x y = colourBytes fmt geo (cellColour geo t.grid x y))
    (hkeep : geo.rows = 1 → t.Blank 32) : ∀ x < geo.width, ∀ y < geo.height,
      h.raster.pixelAt (scrollUp s).fb x y
        = colourBytes fmt geo (cellColour geo (t.scroll 32).grid x y) := by
  intro x hx y hy
  by_cases hmore : geo.fontH < geo.height
  · rw [cellColour_scroll h, pixelAt_scrollUp fmt hgeo hmore hx hy]
    split
    · next hnext => exact hpixels x hx _ hnext
    · rfl
  · -- the screen is one row high, and nothing moves
    have hone : geo.rows = 1 := by
      by_contra hne
      have hrows := h.rows_pos
      exact hmore (h.fontH_lt (by omega))
    have hheight : s.geo.height ≤ s.geo.fontH := by
      rw [hgeo]
      exact not_lt.mp hmore
    have hnone : scrollUp s = s := if_pos (Or.inr hheight)
    rw [hnone, hpixels x hx y hy, cellColour_blank (hkeep hone), cellColour_blank (hkeep hone).scroll]

/-- `fb_newline` within the page. -/
theorem fbNewline_of_lt (h : Accepted geo) (hs : Follows s t) (hlt : t.y + 1 < geo.rows) :
    fbNewline s = { s with cursorX := 0, cursorY := t.y + 1 } := by
  have hrows := h.rows_le
  simp only [maxFbRows] at hrows
  have hadd : add32 s.cursorY 1 = t.y + 1 := by
    rw [hs.cursorY, add32_of_lt (by omega)]
  unfold fbNewline
  simp only [hadd, hs.sameGeo]
  exact if_neg (by omega)

/-- `fb_newline` on the last line. -/
theorem fbNewline_of_last (h : Accepted geo) (hs : Follows s t) (hlast : t.y + 1 = geo.rows) :
    fbNewline s =
      { scrollUp { s with cursorX := 0, cursorY := t.y + 1 } with cursorY := t.y } := by
  have hrows := h.rows_le
  simp only [maxFbRows] at hrows
  have hadd : add32 s.cursorY 1 = t.y + 1 := by
    rw [hs.cursorY, add32_of_lt (by omega)]
  have hsub : sub32 geo.rows 1 = t.y := by
    rw [sub32_of_le h.rows_pos (by omega)]
    omega
  unfold fbNewline
  simp only [hadd, hs.sameGeo, scrollUp_geo, hsub]
  exact if_pos hlast.ge

/-- A new line; one row of text has to be blank. -/
theorem Bare.newline (hs : Bare fmt h s t) (hkeep : geo.rows = 1 → t.Blank 32) :
    Bare fmt h (fbNewline s) (t.newline 32) := by
  by_cases hlt : t.y + 1 < geo.rows
  · rw [fbNewline_of_lt h hs.toFollows hlt]
    obtain ⟨hy, hgrid⟩ := t.newline_of_lt 32 hlt
    exact {
      sameGeo := hs.sameGeo
      cursorX := (t.newline_x 32).symm
      cursorY := hy.symm
      cells := by
        rw [hgrid]
        exact hs.cells
      pixels := by
        rw [hgrid]
        exact hs.pixels }
  · have hlast : t.y + 1 = geo.rows := by
      have hy := t.y_lt
      omega
    obtain ⟨hy, hgrid⟩ := t.newline_of_last 32 hlast
    rw [fbNewline_of_last h hs.toFollows hlast]
    have hgeo : { s with cursorX := 0, cursorY := t.y + 1 }.geo = geo := hs.sameGeo
    exact {
      sameGeo := (scrollUp_geo _).trans hgeo
      cursorX := (scrollUp_cursorX _).trans (t.newline_x 32).symm
      cursorY := hy.symm
      cells := by
        rw [hgrid]
        exact cells_scroll h hgeo hs.cells hkeep
      pixels := by
        rw [hgrid]
        exact pixels_scroll hgeo hs.pixels hkeep }

end Scroll

/-! ## Characters -/

section Step

variable {h : Accepted geo}

/-- The cursor moves on. -/
theorem Bare.advance (hs : Bare fmt h s t)
    (hkeep : geo.rows = 1 → t.x + 1 = geo.cols → t.Blank 32) :
    Bare fmt h (if add32 s.cursorX 1 ≥ s.geo.cols then
        fbNewline { s with cursorX := add32 s.cursorX 1 }
      else { s with cursorX := add32 s.cursorX 1 }) (t.advance 32) := by
  have hcols := h.cols_le
  have hx := t.x_lt
  simp only [maxFbCols] at hcols
  rw [hs.cursorX, add32_of_lt (by omega), show s.geo.cols = geo.cols by rw [hs.sameGeo]]
  unfold Teletype.advance
  by_cases hlt : t.x + 1 < geo.cols
  · rw [if_neg (by omega), dif_pos hlt]
    exact { hs with cursorX := rfl }
  · rw [if_pos (by omega), dif_neg hlt]
    exact hs.newline fun hone => hkeep hone (by omega)

/-- The cursor moves back. -/
theorem Bare.back (hs : Bare fmt h s t) :
    Bare fmt h (if s.cursorX > 0 then { s with cursorX := s.cursorX - 1 }
      else if s.cursorY > 0 then
        { s with cursorY := s.cursorY - 1, cursorX := sub32 s.geo.cols 1 }
      else s) t.back := by
  have hcols := h.cols_le
  have hX := hs.cursorX
  have hY := hs.cursorY
  simp only [maxFbCols] at hcols
  have hsub : sub32 s.geo.cols 1 = geo.cols - 1 := by
    rw [hs.sameGeo, sub32_of_le h.cols_pos (by omega)]
  unfold Teletype.back
  by_cases hx : 0 < t.x
  · rw [if_pos (by omega), if_pos hx]
    exact { hs with cursorX := congrArg (· - 1) hX }
  · rw [if_neg (by omega), if_neg hx]
    by_cases hy : 0 < t.y
    · rw [if_pos (by omega), if_pos hy, hsub]
      exact { hs with cursorX := rfl, cursorY := congrArg (· - 1) hY }
    · rw [if_neg (by omega), if_neg hy]
      exact hs

/-- `fb_putc` types its character. -/
theorem Shows.putc (hs : Shows fmt s t) (h : Accepted geo) {c : UInt8}
    (hkeep : KeepsRow t (.putc c)) : Shows fmt (fbPutc fmt c s) (typed t c) := by
  have hbare : Bare fmt h (eraseCursor fmt s) t := hs.erase
  have haddr : s.geo.addr ≠ 0 := by
    rw [hs.sameGeo]
    exact h.addr
  unfold fbPutc typed
  rw [if_neg haddr]
  simp only [drawCell_cursorX, drawCell_cursorY]
  generalize eraseCursor fmt s = erased at hbare ⊢
  by_cases hreturn : c = 13
  · rw [if_pos hreturn, if_pos hreturn]
    exact Bare.draw (h := h) { hbare with cursorX := rfl }
  · rw [if_neg hreturn, if_neg hreturn]
    by_cases hnewline : c = 10
    · rw [if_pos hnewline, if_pos hnewline]
      exact (hbare.newline fun hone => (hkeep hone).1 hnewline).draw
    · rw [if_neg hnewline, if_neg hnewline]
      by_cases hback : c = 8
      · rw [if_pos hback, if_pos hback]
        exact (hbare.back.write 32).draw
      · rw [if_neg hback, if_neg hback]
        exact ((hbare.write c).advance fun hone hend =>
          (hkeep hone).2 hback hnewline hreturn hend).draw

/-- With one row of text that is not blank, a new line leaves the cells. -/
theorem Bare.newline_breaks (hs : Bare fmt h s t) (hone : geo.rows = 1) (hblank : ¬ t.Blank 32) :
    ¬ Shows fmt (drawCursor fmt (fbNewline s)) (t.newline 32) := by
  intro hshows
  refine hblank fun cx hcx cy hcy => ?_
  have hlast : t.y + 1 = geo.rows := by
    have hy := t.y_lt
    omega
  have hcell := hshows.cells cx hcx cy hcy
  rw [t.blank_newline_of_oneRow 32 hone cx hcx cy hcy, cellAt_drawCursor,
    fbNewline_of_last h hs.toFollows hlast, cellAt] at hcell
  have hcells := scrollUp_cells_oneRow (s := { s with cursorX := 0, cursorY := t.y + 1 })
    hs.sameGeo hone
  dsimp only at hcell
  rw [hcells, scrollUp_geo] at hcell
  exact (hs.cells cx hcx cy hcy).symm.trans hcell

theorem Shows.putc_breaks (hs : Shows fmt s t) (h : Accepted geo) {c : UInt8}
    (hbreak : ¬ KeepsRow t (.putc c)) : ¬ Shows fmt (fbPutc fmt c s) (typed t c) := by
  have hbare : Bare fmt h (eraseCursor fmt s) t := hs.erase
  have haddr : s.geo.addr ≠ 0 := by
    rw [hs.sameGeo]
    exact h.addr
  simp only [KeepsRow, Classical.not_imp, not_and_or] at hbreak
  obtain ⟨hone, ⟨hnewline, hblank⟩ | ⟨hback, hnewline, hreturn, hend, hblank⟩⟩ := hbreak
  · have hreturn : c ≠ 13 := by
      rintro rfl
      exact absurd hnewline (by decide)
    unfold fbPutc typed
    rw [if_neg haddr, if_neg hreturn, if_neg hreturn, if_pos hnewline, if_pos hnewline]
    exact hbare.newline_breaks hone hblank
  · have hwritten := hbare.write c
    have hcols := h.cols_le
    simp only [maxFbCols] at hcols
    unfold fbPutc typed
    rw [if_neg haddr]
    simp only [if_neg hreturn, if_neg hnewline, if_neg hback, drawCell_cursorX, drawCell_cursorY]
    generalize cellSet _ _ c _ = written at hwritten ⊢
    have hadd : add32 written.cursorX 1 = geo.cols := by
      rw [hwritten.cursorX, add32_of_lt]
      · exact hend
      · have hx := (t.write c).x_lt
        omega
    rw [hadd, if_pos (show geo.cols ≥ written.geo.cols by rw [hwritten.sameGeo])]
    have hadvance : (t.write c).advance 32 = (t.write c).newline 32 :=
      dif_neg (Nat.not_lt.mpr (Nat.le_of_eq hend.symm))
    rw [hadvance]
    exact hwritten.newline_breaks hone hblank

end Step

end RoninOS.Console
