/-
RoninOS.Console.Shadow — what the framebuffer console is to show.

The characters are those of a teletype, kept in `g_cells`. Each of its cells
covers a block of pixels, the cursor is a bar at the bottom of its cell, and all
other pixels are background.
-/
import RoninOS.Console.FbConsole
import RoninOS.Lib.Runs
import RoninOS.Lib.Teletype

namespace RoninOS.Console

open RoninOS.Lib

/-! ## Pixels -/

/-- The glyph of a character has a dot there. -/
def IsDot (geo : FbGeometry) (c : UInt8) (i j : Nat) : Prop :=
  if geo.fontW = 8 ∧ geo.fontH = 16 then (glyph8x16Row c j).toNat &&& 1 <<< (7 - i) ≠ 0
  else (glyph16x32Row c j).toNat &&& 1 <<< (15 - i) ≠ 0

instance (geo : FbGeometry) (c : UInt8) (i j : Nat) : Decidable (IsDot geo c i j) := by
  unfold IsDot
  infer_instance

/-- The colour of a pixel that is not the cursor's. -/
def cellColour (geo : FbGeometry) (cell : Nat → Nat → UInt8) (x y : Nat) : Nat :=
  let cx := x / geo.fontW
  let cy := y / geo.fontH
  if (cx < geo.cols ∧ cy < geo.rows) ∧ IsDot geo (cell cx cy) (x % geo.fontW) (y % geo.fontH) then
    0xE0E0E0
  else 0x000000

/-- A pixel of the bar of a cursor in the cell `cx`, `cy`. -/
def InBar (geo : FbGeometry) (cx cy x y : Nat) : Prop :=
  x / geo.fontW = cx ∧ y / geo.fontH = cy ∧ geo.fontH - geo.fontH / 8 ≤ y % geo.fontH

instance (geo : FbGeometry) (cx cy x y : Nat) : Decidable (InBar geo cx cy x y) := by
  unfold InBar
  infer_instance

/-- The colour of a pixel. -/
def rendering (geo : FbGeometry) (cell : Nat → Nat → UInt8) (cursorX cursorY x y : Nat) : Nat :=
  if InBar geo cursorX cursorY x y then 0x50A0FF else cellColour geo cell x y

/-- The bytes of a colour. -/
def colourBytes (fmt : FbFormat) (geo : FbGeometry) (rgb : Nat) : List UInt8 :=
  let pix := packColor fmt rgb
  let bytes := [UInt8.ofNat (pix &&& 0xFF), UInt8.ofNat (pix >>> 8 &&& 0xFF),
    UInt8.ofNat (pix >>> 16 &&& 0xFF)]
  if geo.bpp = 32 then bytes ++ [0] else bytes

/-- The bytes of a pixel. -/
def pixelBytes (s : FbState) (x y : Nat) : List UInt8 :=
  bytesAt s.fb (y * s.geo.pitch + x * (s.geo.bpp / 8)) (s.geo.bpp / 8)

/-! ## The screen -/

/-- `g_cells` by column and row. -/
def cellAt (s : FbState) (cx cy : Nat) : UInt8 := s.cells (cy * s.geo.cols + cx)

/-- The console shows the page of a teletype. -/
structure Shows (fmt : FbFormat) {geo : FbGeometry} (s : FbState)
    (t : Teletype UInt8 geo.cols geo.rows) : Prop where
  sameGeo : s.geo = geo
  cursorX : s.cursorX = t.x
  cursorY : s.cursorY = t.y
  inside : s.cursorX < geo.cols ∧ s.cursorY < geo.rows
  cells : ∀ cx < geo.cols, ∀ cy < geo.rows, cellAt s cx cy = t.grid cx cy
  pixels : ∀ x < geo.width, ∀ y < geo.height, pixelBytes s x y
    = colourBytes fmt geo (rendering geo (cellAt s) s.cursorX s.cursorY x y)

/-! ## Runs -/

/-- A character or a clear; `fb_print` is a character after another. -/
inductive FbStep
  | putc (c : UInt8)
  | clear

/-- The steps of a call. -/
def FbCall.steps : FbCall → List FbStep
  | .putc c => [.putc c]
  | .print none => []
  | .print (some str) => str.bytes.map .putc
  | .clear => [.clear]

/-- The console after a step. -/
def fbStep (fmt : FbFormat) (s : FbState) : FbStep → FbState
  | .putc c => fbPutc fmt c s
  | .clear => fbClear fmt s

section Page

variable {cols rows : Nat} (t : Teletype UInt8 cols rows)

/-- The page after a character. -/
def typed (c : UInt8) : Teletype UInt8 cols rows :=
  if c = 13 then t.carriageReturn
  else if c = 10 then t.newline 32
  else if c = 8 then t.back.write 32
  else (t.write c).advance 32

/-- The page after a step. -/
def pageStep : FbStep → Teletype UInt8 cols rows
  | .putc c => typed t c
  | .clear => t.clear 32

/-- On a screen of one row, a step ends the row only if the row, with the character
that was written last, is blank. -/
def KeepsRow : FbStep → Prop
  | .putc c => rows = 1 →
      (c = 10 → t.Blank 32) ∧
      (c ≠ 8 → c ≠ 10 → c ≠ 13 → t.x + 1 = cols → (t.write c).Blank 32)
  | .clear => True

end Page

/-- The console and the page after a step. -/
def shadowStep (fmt : FbFormat) {geo : FbGeometry} (p : FbState × Teletype UInt8 geo.cols geo.rows)
    (step : FbStep) : FbState × Teletype UInt8 geo.cols geo.rows :=
  (fbStep fmt p.1 step, pageStep p.2 step)

/-- The bytes of a 32-bit pixel behind the last whole word of the framebuffer are 0;
`fb_clear` leaves them as they are. -/
def TailBlank (width height pitch bpp : Nat) (fb : Mem) : Prop :=
  bpp = 32 → ∀ a, 4 * (pitch * height / 4) ≤ a → a < (height - 1) * pitch + 4 * width → fb a = 0

section Runs

variable (fmt : FbFormat) {geo : FbGeometry} (steps : List FbStep) (s : FbState)
  (t : Teletype UInt8 geo.cols geo.rows)

/-- The console shows the page in every state of a run. -/
def ShownThroughout : Prop :=
  AllStates (fun p step => some (shadowStep fmt p step)) (fun p => Shows fmt p.1 p.2) steps (s, t)

/-- In each step a screen of one row ends it only while it is blank. -/
def KeepsRows : Prop :=
  AllCalls (fun p step => some (shadowStep fmt p step)) (fun p step => KeepsRow p.2 step) steps
    (s, t)

end Runs

end RoninOS.Console
