/-
RoninOS.Console.FbRuns — the framebuffer console from `fb_init` on.

`fb_clear` clears the framebuffer by words or by bytes. What it leaves is behind the
last word, so below the cells: such a pixel has to be background already.
-/
import RoninOS.Console.ShadowTheorems

namespace RoninOS.Console

open RoninOS.Lib

variable {fmt : FbFormat} {geo : FbGeometry} {s : FbState} {t : Teletype UInt8 geo.cols geo.rows}

/-! ## Clearing -/

/-- How far `fb_clear` clears. -/
def clearedBytes (geo : FbGeometry) : Nat :=
  if geo.bpp = 32 then 4 * (geo.pitch * geo.height / 4) else geo.pitch * geo.height

/-- What `fb_clear` sets. -/
def clearedState (s : FbState) : FbState :=
  { s with
    fb := fun a => if a < clearedBytes s.geo then 0 else s.fb a
    cells := memset s.cells 0 32 (s.geo.cols * s.geo.rows)
    cursorX := 0
    cursorY := 0 }

/-- All pixels that `fb_clear` leaves, or a part of them, are background. -/
def MarginBlank (h : Accepted geo) (fb : Mem) : Prop :=
  ∀ x < geo.width, ∀ y < geo.height, ∀ k < geo.bpp / 8,
    clearedBytes geo ≤ h.raster.offset x y + k → fb (h.raster.offset x y + k) = 0

section Clear

variable (h : Accepted geo)

include h

theorem fbClear_eq (hgeo : s.geo = geo) : fbClear fmt s = drawCursor fmt (clearedState s) := by
  subst hgeo
  have hcols := h.cols_le
  have hrows := h.rows_le
  simp only [maxFbCols, maxFbRows] at hcols hrows
  have hsize : s.geo.cols * s.geo.rows ≤ 512 * 256 := Nat.mul_le_mul hcols hrows
  have hcells : mul32 s.geo.cols s.geo.rows = s.geo.cols * s.geo.rows := mul32_of_lt (by omega)
  have hbytes : mul32 s.geo.pitch s.geo.height = s.geo.pitch * s.geo.height := mul32_of_lt h.memory
  unfold fbClear clearedState clearedBytes
  simp only [hcells, hbytes, if_neg h.addr, h.track, if_true]
  congr 2
  funext a
  split
  · exact zeroWords_apply ..
  · rw [memset_apply]
    exact if_congr (by omega) rfl rfl

/-- Such pixels are below the cells. -/
theorem Accepted.rows_le_of_uncleared {x y k : Nat} (hx : x < geo.width) (hy : y < geo.height)
    (hk : k < geo.bpp / 8) (hafter : clearedBytes geo ≤ h.raster.offset x y + k) :
    geo.rows ≤ y / geo.fontH := by
  have hend : h.raster.offset x y + geo.bpp / 8 ≤ (y + 1) * geo.pitch := h.raster.offset_add_le hx
  have hlast : (y + 1) * geo.pitch ≤ geo.height * geo.pitch := Nat.mul_le_mul_right _ hy
  have hswap := Nat.mul_comm geo.pitch geo.height
  unfold clearedBytes at hafter
  rcases h.bpp with hbpp | hbpp
  · rw [if_pos hbpp] at hafter
    by_contra hin
    have hcell : y < geo.rows * geo.fontH := (Nat.div_lt_iff_lt_mul h.fontH_pos).mp (not_le.mp hin)
    have hheight := h.cells_height
    by_cases hbottom : y + 1 = geo.height
    · -- the cells reach down to the last row, so that no byte is left
      have hall : geo.height = geo.rows * geo.fontH := by omega
      have hfour : 4 ∣ geo.fontH := by rcases h.font with ⟨-, hH⟩ | ⟨-, hH⟩ <;> omega
      have hwords : 4 ∣ geo.pitch * geo.height := by
        rw [hall]
        exact (hfour.mul_left _).mul_left _
      have hexact := Nat.mul_div_cancel' hwords
      omega
    · have hrow : (y + 1) * geo.pitch + geo.pitch ≤ geo.height * geo.pitch := by
        rw [← Nat.succ_mul]
        exact Nat.mul_le_mul_right _ (by omega)
      have hpitch := h.row_le
      rw [hbpp] at hpitch
      omega
  · rw [if_neg (by omega)] at hafter
    omega

theorem Accepted.clearedState_bare (hgeo : s.geo = geo) (hmargin : MarginBlank h s.fb) :
    Bare fmt h (clearedState s) (Teletype.start 32 h.cols_pos h.rows_pos) := by
  subst hgeo
  refine ⟨⟨rfl, rfl, rfl, fun cx hcx cy hcy => ?_⟩, fun x hx y hy => ?_⟩
  · have hindex : (cy + 1) * s.geo.cols ≤ s.geo.rows * s.geo.cols := Nat.mul_le_mul_right _ hcy
    rw [Nat.succ_mul, Nat.mul_comm s.geo.rows] at hindex
    show memset s.cells 0 32 (s.geo.cols * s.geo.rows) (cy * s.geo.cols + cx) = 32
    rw [memset_apply, if_pos (by omega)]
  · have hblank : cellColour s.geo (fun _ _ => 32) x y = 0 := cellColour_blank (fun _ _ _ _ => rfl) x y
    rw [show (Teletype.start (32 : UInt8) h.cols_pos h.rows_pos).grid = fun _ _ => 32 from rfl, hblank,
      h.colourBytes_zero]
    refine h.raster.pixelAt_zero_iff.mpr fun k hk => ?_
    by_cases hcleared : h.raster.offset x y + k < clearedBytes s.geo
    · exact if_pos hcleared
    · exact (if_neg hcleared).trans (hmargin x hx y hy k hk (not_lt.mp hcleared))

/-- Where the screen shows a page, it is background below the cells. -/
theorem Shows.pixelAt_below (hs : Shows fmt s t) {x y : Nat} (hx : x < geo.width)
    (hy : y < geo.height) (hbelow : geo.rows ≤ y / geo.fontH) :
    h.raster.pixelAt s.fb x y = List.replicate (geo.bpp / 8) 0 := by
  have hbar : ¬ InBar geo s.cursorX s.cursorY x y := by
    intro hbar
    have hinside := hs.inside.2
    have hrow := hbar.2.1
    omega
  rw [← h.pixelBytes_eq hs.sameGeo, hs.pixels x hx y hy, rendering, if_neg hbar,
    cellColour_below hbelow, h.colourBytes_zero]

theorem Shows.marginBlank (hs : Shows fmt s t) : MarginBlank h s.fb := by
  intro x hx y hy k hk hafter
  have hbelow := h.rows_le_of_uncleared hx hy hk hafter
  exact h.raster.pixelAt_zero_iff.mp (hs.pixelAt_below h hx hy hbelow) k hk

/-- Only at 32 bits is anything left, and in the last row of pixels. -/
theorem Accepted.marginBlank_iff (fb : Mem) :
    MarginBlank h fb ↔ TailBlank geo.width geo.height geo.pitch geo.bpp fb := by
  have hheight : 0 < geo.height :=
    (Nat.mul_pos h.rows_pos h.fontH_pos).trans_le h.cells_height
  have hsplit : geo.pitch * geo.height = (geo.height - 1) * geo.pitch + geo.pitch := by
    rw [← Nat.succ_mul, Nat.succ_eq_add_one, Nat.sub_add_cancel hheight, Nat.mul_comm]
  have hwidth : 0 < geo.width := (Nat.mul_pos h.cols_pos h.fontW_pos).trans_le h.cells_width
  have hpitch := h.row_le
  unfold MarginBlank TailBlank clearedBytes
  rcases h.bpp with hbpp | hbpp
  · simp only [hbpp, if_true, true_imp_iff] at hpitch ⊢
    constructor
    · intro hmargin a hfirst hlast
      -- the byte is in the last row: byte `b % 4` of pixel `b / 4`
      obtain ⟨b, rfl⟩ : ∃ b, a = (geo.height - 1) * geo.pitch + b :=
        ⟨a - (geo.height - 1) * geo.pitch, by omega⟩
      have hoffset : h.raster.offset (b / 4) (geo.height - 1) + b % 4
          = (geo.height - 1) * geo.pitch + b := by
        show (geo.height - 1) * geo.pitch + b / 4 * (geo.bpp / 8) + b % 4 = _
        rw [hbpp]
        omega
      have hbyte := hmargin (b / 4) (by omega) (geo.height - 1) (by omega) (b % 4) (by omega)
      rw [hoffset] at hbyte
      exact hbyte hfirst
    · intro htail x hx y hy k hk hafter
      refine htail _ hafter ?_
      have hrow : y * geo.pitch ≤ (geo.height - 1) * geo.pitch :=
        Nat.mul_le_mul_right _ (by omega)
      show y * geo.pitch + x * (geo.bpp / 8) + k < _
      rw [hbpp]
      omega
  · refine iff_of_true (fun x hx y hy k hk hafter => ?_) fun h32 => by omega
    rw [if_neg (by omega)] at hafter
    have hend : h.raster.offset x y + geo.bpp / 8 ≤ (y + 1) * geo.pitch := h.raster.offset_add_le hx
    have hlast : (y + 1) * geo.pitch ≤ geo.height * geo.pitch := Nat.mul_le_mul_right _ hy
    have hswap := Nat.mul_comm geo.pitch geo.height
    omega

/-- Drawing the cursor leaves what is below the cells. -/
theorem Accepted.pixelAt_below (fmt : FbFormat) {s : FbState} {x y : Nat} (hgeo : s.geo = geo)
    (hcx : s.cursorX < geo.cols) (hcy : s.cursorY < geo.rows) (hx : x < geo.width)
    (hbelow : geo.rows ≤ y / geo.fontH) :
    h.raster.pixelAt (drawCursor fmt s).fb x y = h.raster.pixelAt s.fb x y := by
  rw [pixelAt_drawCursor h fmt hgeo hcx hcy hx, if_neg]
  intro hbar
  have hrow := hbar.2.1
  omega

/-- `fb_clear` blanks the page. -/
theorem Shows.clear (hs : Shows fmt s t) : Shows fmt (fbClear fmt s) (t.clear 32) := by
  rw [fbClear_eq h hs.sameGeo]
  exact (h.clearedState_bare hs.sameGeo (hs.marginBlank h)).draw

end Clear

/-! ## Initialisation -/

section Init

variable {font : FbFont} {addr width height pitch bpp : Nat} {fb : Mem} {s₀ : FbState}

/-- Neither drawing nor clearing changes the geometry. -/
theorem drawCursor_geo (s : FbState) : (drawCursor fmt s).geo = s.geo := by
  obtain ⟨fb, heq⟩ := drawCursor_frame fmt s
  rw [heq]

theorem fbClear_geo (s : FbState) : (fbClear fmt s).geo = s.geo := by
  unfold fbClear
  dsimp only
  split
  · rfl
  · exact drawCursor_geo _

/-- The geometry of a font. -/
def geometryOf (font : FbFont) (addr width height pitch bpp : Nat) : FbGeometry :=
  let fontW := if font = .f816 then 8 else 16
  let fontH := if font = .f816 then 16 else 32
  { addr := addr, width := width, height := height, pitch := pitch, bpp := bpp
    cols := width / fontW, rows := height / fontH, fontW := fontW, fontH := fontH
    trackCells := width / fontW ≤ maxFbCols ∧ height / fontH ≤ maxFbRows }

/-- What `fb_init` has checked and set when it returns 1. -/
theorem fbInit_inv (hinit : fbInit fmt font addr width height pitch bpp fb s₀ = (true, s)) :
    s.geo = geometryOf font addr width height pitch bpp ∧ addr ≠ 0 ∧ (bpp = 32 ∨ bpp = 24) ∧
      0 < s.geo.cols ∧ 0 < s.geo.rows ∧
      ∃ s₁ : FbState, s = drawCursor fmt (fbClear fmt s₁) ∧ s₁.fb = fb ∧ s₁.geo = s.geo := by
  unfold fbInit at hinit
  unfold geometryOf
  dsimp only at hinit ⊢
  generalize (if font = .f816 then 8 else 16) = fontW at hinit ⊢
  generalize (if font = .f816 then 16 else 32) = fontH at hinit ⊢
  split at hinit
  · cases hinit
  · next hargs =>
      split at hinit
      · cases hinit
      · next hbpp =>
          split at hinit
          · cases hinit
          · next hgrid =>
              obtain rfl := (Prod.mk.inj hinit).2
              rw [drawCursor_geo, fbClear_geo]
              refine ⟨rfl, fun haddr => hargs (Or.inl haddr), not_not.mp hbpp, ?_, ?_, _, rfl, rfl,
                rfl⟩
              · exact Nat.pos_of_ne_zero fun hcols => hgrid (Or.inl hcols)
              · exact Nat.pos_of_ne_zero fun hrows => hgrid (Or.inr hrows)

/-- The page that the console starts with. -/
def blankPage (hinit : fbInit fmt font addr width height pitch bpp fb s₀ = (true, s)) :
    Teletype UInt8 s.geo.cols s.geo.rows :=
  Teletype.start 32 (fbInit_inv hinit).2.2.2.1 (fbInit_inv hinit).2.2.2.2.1

theorem fbInit_accepted (hinit : fbInit fmt font addr width height pitch bpp fb s₀ = (true, s))
    (htrack : s.geo.trackCells = true) (hpitch : width * bpp / 8 ≤ pitch)
    (hmem : addr + pitch * height ≤ 2 ^ 32) : Accepted s.geo := by
  obtain ⟨hgeo, haddr, hbpp, hcols, hrows, -⟩ := fbInit_inv hinit
  have hgrid : width / (geometryOf font addr width height pitch bpp).fontW ≤ maxFbCols ∧
      height / (geometryOf font addr width height pitch bpp).fontH ≤ maxFbRows := by
    rw [hgeo] at htrack
    exact of_decide_eq_true htrack
  rw [hgeo] at hcols hrows htrack ⊢
  exact {
    addr := haddr
    bpp := hbpp
    font := by
      cases font
      · exact Or.inl ⟨rfl, rfl⟩
      · exact Or.inr ⟨rfl, rfl⟩
    cols := rfl
    rows := rfl
    cols_pos := hcols
    rows_pos := hrows
    cols_le := hgrid.1
    rows_le := hgrid.2
    track := htrack
    row_le := by
      show width * (bpp / 8) ≤ pitch
      rcases hbpp with rfl | rfl <;> omega
    memory := by
      show pitch * height < 2 ^ 32
      omega }

/-- After `fb_init` the screen shows the blank page exactly if what was not cleared
is background. -/
theorem fbInit_shows_iff (hinit : fbInit fmt font addr width height pitch bpp fb s₀ = (true, s))
    (h : Accepted s.geo) : Shows fmt s (blankPage hinit) ↔ TailBlank width height pitch bpp fb := by
  obtain ⟨hgeo, -, -, -, -, s₁, hs, rfl, hgeo₁⟩ := fbInit_inv hinit
  have htail := h.marginBlank_iff s₁.fb
  rw [show s.geo.width = width by rw [hgeo]; rfl, show s.geo.height = height by rw [hgeo]; rfl,
    show s.geo.pitch = pitch by rw [hgeo]; rfl, show s.geo.bpp = bpp by rw [hgeo]; rfl] at htail
  have hdrawn : s = drawCursor fmt (drawCursor fmt (clearedState s₁)) := by
    rw [← fbClear_eq h hgeo₁]
    exact hs
  rw [← htail]
  constructor
  · intro hshows x hx y hy k hk hafter
    have hbelow := h.rows_le_of_uncleared hx hy hk hafter
    obtain ⟨fb, hfb⟩ := drawCursor_frame fmt (clearedState s₁)
    have honce := h.pixelAt_below fmt (s := clearedState s₁) hgeo₁ h.cols_pos h.rows_pos hx hbelow
    have htwice := h.pixelAt_below fmt (s := drawCursor fmt (clearedState s₁))
      ((drawCursor_geo _).trans hgeo₁) (by rw [hfb]; exact h.cols_pos)
      (by rw [hfb]; exact h.rows_pos) hx hbelow
    have hpixel := hshows.pixelAt_below h hx hy hbelow
    rw [congrArg FbState.fb hdrawn, htwice, honce] at hpixel
    have hbyte := h.raster.pixelAt_zero_iff.mp hpixel k hk
    have hleft : clearedBytes s₁.geo ≤ h.raster.offset x y + k :=
      (congrArg clearedBytes hgeo₁).le.trans hafter
    exact (if_neg (not_lt.mpr hleft)).symm.trans hbyte
  · intro hmargin
    have hbare : Bare fmt h (clearedState s₁) (blankPage hinit) :=
      h.clearedState_bare hgeo₁ hmargin
    have hshows := hbare.draw.draw h
    rwa [← hdrawn] at hshows

end Init

/-! ## Runs -/

/-- A step that keeps its row shows the next page, and no other does. -/
theorem Shows.step (h : Accepted geo) (hs : Shows fmt s t) {step : FbStep}
    (hkeep : KeepsRow t step) : Shows fmt (fbStep fmt s step) (pageStep t step) := by
  cases step with
  | putc c => exact hs.putc h hkeep
  | clear => exact hs.clear h

theorem Shows.step_breaks (h : Accepted geo) (hs : Shows fmt s t) {step : FbStep}
    (hbreak : ¬ KeepsRow t step) : ¬ Shows fmt (fbStep fmt s step) (pageStep t step) := by
  cases step with
  | putc c => exact hs.putc_breaks h hbreak
  | clear => exact absurd trivial hbreak

theorem shownThroughout_iff (h : Accepted geo) (hs : Shows fmt s t) (steps : List FbStep) :
    ShownThroughout fmt steps s t ↔ KeepsRows fmt steps s t := by
  refine allStates_iff (R := fun _ => True)
    (fun p : FbState × Teletype UInt8 geo.cols geo.rows => Shows fmt p.1 p.2) (fun _ hp => hp)
    (fun _ _ _ _ => ⟨_, rfl⟩) (fun p step p' hp _ hkeep hnext => ?_)
    (fun p step p' hp _ hbreak hnext => ?_) hs fun _ _ => trivial
  · obtain rfl := Option.some.inj hnext
    exact hp.step h hkeep
  · obtain rfl := Option.some.inj hnext
    exact hp.step_breaks h hbreak

theorem printLoop_eq (cs : List UInt8) (s : FbState) :
    printLoop fmt cs s = (cs.map FbStep.putc).foldl (fbStep fmt) s := by
  induction cs generalizing s with
  | nil => rfl
  | cons c cs ih => exact ih (fbPutc fmt c s)

/-- A call takes its steps. -/
theorem fbCall_eq (s : FbState) (call : FbCall) :
    fbCall fmt s call = call.steps.foldl (fbStep fmt) s := by
  cases call with
  | putc c => rfl
  | print str =>
      cases str with
      | none => rfl
      | some str => exact printLoop_eq str.bytes s
  | clear => rfl

theorem foldl_fbCall (calls : List FbCall) (s : FbState) :
    calls.foldl (fbCall fmt) s = (calls.flatMap FbCall.steps).foldl (fbStep fmt) s := by
  induction calls generalizing s with
  | nil => rfl
  | cons call calls ih => rw [List.foldl_cons, ih, fbCall_eq, List.flatMap_cons, List.foldl_append]

/-- The state that a run shown throughout starts in. -/
theorem ShownThroughout.head {steps : List FbStep} (h : ShownThroughout fmt steps s t) :
    Shows fmt s t :=
  AllStates.head (P := fun p : FbState × Teletype UInt8 geo.cols geo.rows => Shows fmt p.1 p.2) h

/-- The state that it ends in. -/
theorem ShownThroughout.last {steps : List FbStep} (h : ShownThroughout fmt steps s t) :
    Shows fmt (steps.foldl (fbStep fmt) s) (steps.foldl pageStep t) := by
  have hrun : ∀ (steps : List FbStep) (s : FbState) (t : Teletype UInt8 geo.cols geo.rows),
      steps.foldlM (fun p step => some (shadowStep fmt p step)) (s, t)
        = some (steps.foldl (fbStep fmt) s, steps.foldl pageStep t) := by
    intro steps
    induction steps with
    | nil => exact fun s t => rfl
    | cons step steps ih => exact fun s t => ih (fbStep fmt s step) (pageStep t step)
  exact AllStates.last
    (P := fun p : FbState × Teletype UInt8 geo.cols geo.rows => Shows fmt p.1 p.2) h
    (hrun steps s t)

section Main

variable {font : FbFont} {addr width height pitch bpp : Nat} {fb : Mem} {s₀ : FbState}

/-- The console shows a teletype's page after each character of its calls exactly if
no screen of one row ends a row that is not blank, and what `fb_clear` does not reach
is background. -/
theorem screen_shadows_iff (hinit : fbInit fmt font addr width height pitch bpp fb s₀ = (true, s))
    (htrack : s.geo.trackCells = true) (hpitch : width * bpp / 8 ≤ pitch)
    (hmem : addr + pitch * height ≤ 2 ^ 32) (calls : List FbCall) :
    (ShownThroughout fmt (calls.flatMap FbCall.steps) s (blankPage hinit) ↔
      TailBlank width height pitch bpp fb ∧
        KeepsRows fmt (calls.flatMap FbCall.steps) s (blankPage hinit)) ∧
    (TailBlank width height pitch bpp fb →
      KeepsRows fmt (calls.flatMap FbCall.steps) s (blankPage hinit) →
      Shows fmt (calls.foldl (fbCall fmt) s)
        ((calls.flatMap FbCall.steps).foldl pageStep (blankPage hinit))) := by
  have h := fbInit_accepted hinit htrack hpitch hmem
  have hiff : ShownThroughout fmt (calls.flatMap FbCall.steps) s (blankPage hinit) ↔
      TailBlank width height pitch bpp fb ∧
        KeepsRows fmt (calls.flatMap FbCall.steps) s (blankPage hinit) := by
    rw [← fbInit_shows_iff hinit h]
    constructor
    · intro hshown
      have hfirst := hshown.head
      exact ⟨hfirst, (shownThroughout_iff h hfirst _).mp hshown⟩
    · rintro ⟨hfirst, hkeeps⟩
      exact (shownThroughout_iff h hfirst _).mpr hkeeps
  refine ⟨hiff, fun htail hkeeps => ?_⟩
  rw [foldl_fbCall]
  exact (hiff.mpr ⟨htail, hkeeps⟩).last

end Main

/-- A screen with two rows of text. -/
def twoRowScreen : FbState :=
  (fbInit .bgra .f816 0xE0000000 64 40 256 32 (fun _ => 0) fbStatics).2

theorem twoRowScreen_init :
    fbInit .bgra .f816 0xE0000000 64 40 256 32 (fun _ => 0) fbStatics = (true, twoRowScreen) := rfl

theorem screen_shadows_twoRows :
    Shows .bgra
      ([.print (some ⟨ascii "a\nb\nc", by decide⟩), .putc 8].foldl (fbCall .bgra) twoRowScreen)
      (([.print (some ⟨ascii "a\nb\nc", by decide⟩), .putc 8].flatMap FbCall.steps).foldl pageStep
        (blankPage twoRowScreen_init)) := by
  refine (screen_shadows_iff twoRowScreen_init rfl (by decide) (by decide) _).2
    (fun _ _ _ _ => rfl) (allCalls_of_mem (fun step _ p => ?_) _)
  cases step with
  | putc c => exact fun hone => absurd hone (by decide)
  | clear => exact trivial

/-- A screen with one row of text and a margin below. -/
def oneRowScreen : FbState :=
  (fbInit .bgra .f1632 0xE0000000 640 40 2560 32 (fun _ => 0) fbStatics).2

theorem oneRowScreen_init :
    fbInit .bgra .f1632 0xE0000000 640 40 2560 32 (fun _ => 0) fbStatics = (true, oneRowScreen) :=
  rfl

/-- The row is scrolled, and its cells are not. -/
theorem oneRow_cells_stay : oneRowScreen.geo.trackCells = true ∧
    ¬ Shows .bgra ([.putc 65, .putc 10].foldl (fbCall .bgra) oneRowScreen)
      (([.putc 65, .putc 10].flatMap FbCall.steps).foldl pageStep
        (blankPage oneRowScreen_init)) := by
  refine ⟨rfl, ?_⟩
  have h : Accepted oneRowScreen.geo :=
    fbInit_accepted oneRowScreen_init rfl (by decide) (by decide)
  have hfirst : Shows .bgra oneRowScreen (blankPage oneRowScreen_init) :=
    (fbInit_shows_iff oneRowScreen_init h).mpr fun _ _ _ _ => rfl
  have hkeep : KeepsRow (blankPage oneRowScreen_init) (.putc 65) :=
    fun _ => ⟨fun hnewline => absurd hnewline (by decide),
      fun _ _ _ hend => absurd hend (by decide)⟩
  have hsecond := hfirst.step h hkeep
  have hbreak : ¬ KeepsRow (typed (blankPage oneRowScreen_init) 65) (.putc 10) := by
    intro hkeeps
    have hblank := (hkeeps (by decide)).1 rfl 0 (by decide) 0 (by decide)
    exact absurd hblank (by decide)
  exact hsecond.step_breaks h hbreak

end RoninOS.Console
