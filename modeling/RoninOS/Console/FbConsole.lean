/-
RoninOS.Console.FbConsole — the framebuffer console of `kernel/fb_console.c`.

The statics that only `fb_init` sets are the geometry. The memory at `g_fb` and
`g_cells` are memories of their own, addressed from their start. Coordinates of
pixels and cells stay below the width and height, so that they are added and
multiplied plainly; what is computed with the pitch wraps.
-/
import RoninOS.Console.Font
import RoninOS.Lib.CString
import RoninOS.Lib.MemMove
import RoninOS.Lib.Word32

namespace RoninOS.Console

open RoninOS.Lib

/-! ## Statics -/

/-- `fb_format_t`. -/
inductive FbFormat
  | bgra
  | rgba
  deriving DecidableEq

/-- `FB_FONT`. -/
inductive FbFont
  | f816
  | f1632
  deriving DecidableEq

/-- The statics that `fb_init` sets. -/
structure FbGeometry where
  addr : Nat
  width : Nat
  height : Nat
  pitch : Nat
  bpp : Nat
  cols : Nat
  rows : Nat
  fontW : Nat
  fontH : Nat
  trackCells : Bool

/-- The statics of `fb_console.c` and the memory at `g_fb`. -/
structure FbState where
  geo : FbGeometry
  cursorX : Nat
  cursorY : Nat
  cells : Mem
  fb : Mem

/-- The statics before any call. -/
def fbStatics : FbState where
  geo := ⟨0, 0, 0, 0, 0, 0, 0, 0, 0, false⟩
  cursorX := 0
  cursorY := 0
  cells := fun _ => 0
  fb := fun _ => 0

/-- `MAX_FB_COLS`. -/
def maxFbCols : Nat := 512
/-- `MAX_FB_ROWS`. -/
def maxFbRows : Nat := 256

/-! ## Pixels -/

/-- `pack_color`. -/
def packColor (fmt : FbFormat) (rgb : Nat) : Nat :=
  let r := rgb >>> 16 &&& 0xFF
  let g := rgb >>> 8 &&& 0xFF
  let b := rgb &&& 0xFF
  if fmt = .bgra then b ||| g <<< 8 ||| r <<< 16 else r ||| g <<< 8 ||| b <<< 16

/-- `fb_plot`. -/
def fbPlot (fmt : FbFormat) (geo : FbGeometry) (x y rgb : Nat) (fb : Mem) : Mem :=
  if x ≥ geo.width ∨ y ≥ geo.height then fb
  else
    let p := add32 (mul32 y geo.pitch) (mul32 x (geo.bpp / 8))
    let pix := packColor fmt rgb
    if geo.bpp = 32 then
      let fb := Function.update fb p (UInt8.ofNat (pix &&& 0xFF))
      let fb := Function.update fb (p + 1) (UInt8.ofNat (pix >>> 8 &&& 0xFF))
      let fb := Function.update fb (p + 2) (UInt8.ofNat (pix >>> 16 &&& 0xFF))
      Function.update fb (p + 3) 0
    else if geo.bpp = 24 then
      let fb := Function.update fb p (UInt8.ofNat (pix &&& 0xFF))
      let fb := Function.update fb (p + 1) (UInt8.ofNat (pix >>> 8 &&& 0xFF))
      Function.update fb (p + 2) (UInt8.ofNat (pix >>> 16 &&& 0xFF))
    else fb

/-! ## Cells -/

/-- `cell_get`. -/
def cellGet (cx cy : Nat) (s : FbState) : UInt8 :=
  if ¬ s.geo.trackCells ∨ cx ≥ s.geo.cols ∨ cy ≥ s.geo.rows then 32
  else s.cells (cy * s.geo.cols + cx)

/-- `cell_set`. -/
def cellSet (cx cy : Nat) (c : UInt8) (s : FbState) : FbState :=
  if ¬ s.geo.trackCells ∨ cx ≥ s.geo.cols ∨ cy ≥ s.geo.rows then s
  else { s with cells := Function.update s.cells (cy * s.geo.cols + cx) c }

/-- `draw_cell`. -/
def drawCell (fmt : FbFormat) (c : UInt8) (cx cy : Nat) (s : FbState) : FbState :=
  let geo := s.geo
  let x0 := cx * geo.fontW
  let y0 := cy * geo.fontH
  let fg := 0xE0E0E0
  let bg := 0x000000
  if cx ≥ geo.cols ∨ cy ≥ geo.rows then s
  else
    let fb := forLoop geo.fontH (fun y fb =>
      forLoop geo.fontW (fun x fb => fbPlot fmt geo (x0 + x) (y0 + y) bg fb) fb) s.fb
    let fb :=
      if geo.fontW = 8 ∧ geo.fontH = 16 then
        forLoop 16 (fun y fb =>
          let bits := glyph8x16Row c y
          forLoop 8 (fun x fb =>
            if bits.toNat &&& 1 <<< (7 - x) ≠ 0 then fbPlot fmt geo (x0 + x) (y0 + y) fg fb
            else fb) fb) fb
      else
        forLoop 32 (fun y fb =>
          let bits := glyph16x32Row c y
          forLoop 16 (fun x fb =>
            if bits.toNat &&& 1 <<< (15 - x) ≠ 0 then fbPlot fmt geo (x0 + x) (y0 + y) fg fb
            else fb) fb) fb
    { s with fb := fb }

/-- `draw_cursor`. -/
def drawCursor (fmt : FbFormat) (s : FbState) : FbState :=
  let geo := s.geo
  if geo.addr = 0 ∨ s.cursorX ≥ geo.cols ∨ s.cursorY ≥ geo.rows then s
  else
    let x0 := s.cursorX * geo.fontW
    let y0 := s.cursorY * geo.fontH + (geo.fontH - geo.fontH / 8)
    let fb := forLoop (s.cursorY * geo.fontH + geo.fontH - y0) (fun y fb =>
      forLoop (x0 + geo.fontW - x0) (fun x fb =>
        fbPlot fmt geo (x0 + x) (y0 + y) 0x50A0FF fb) fb) s.fb
    { s with fb := fb }

/-- `erase_cursor`. -/
def eraseCursor (fmt : FbFormat) (s : FbState) : FbState :=
  drawCell fmt (cellGet s.cursorX s.cursorY s) s.cursorX s.cursorY s

/-! ## Scrolling -/

/-- `scroll_up`. -/
def scrollUp (s : FbState) : FbState :=
  let geo := s.geo
  if geo.addr = 0 ∨ geo.height ≤ geo.fontH then s
  else
    let pxRowBytes := mul32 geo.pitch geo.fontH
    let moveBytes := mul32 geo.pitch (geo.height - geo.fontH)
    let fb := memmove s.fb 0 pxRowBytes moveBytes
    let fb := memset fb moveBytes 0 pxRowBytes
    let cells :=
      if geo.trackCells ∧ geo.rows > 1 then
        let cells := memmove s.cells 0 geo.cols (mul32 (geo.rows - 1) geo.cols)
        memset cells (mul32 (geo.rows - 1) geo.cols) 32 geo.cols
      else s.cells
    let clearY := sub32 geo.rows 1
    { s with fb := fb, cells := cells, cursorY := clearY }

/-- `fb_newline`. -/
def fbNewline (s : FbState) : FbState :=
  let s := { s with cursorX := 0, cursorY := add32 s.cursorY 1 }
  if s.cursorY ≥ s.geo.rows then
    let s := scrollUp s
    { s with cursorY := sub32 s.geo.rows 1 }
  else s

/-! ## Calls -/

/-- `fb_clear`. -/
def fbClear (fmt : FbFormat) (s : FbState) : FbState :=
  let geo := s.geo
  if geo.addr = 0 then s
  else
    let fbBytes := mul32 geo.pitch geo.height
    let fb :=
      if geo.bpp = 32 then forLoop (fbBytes / 4) (fun i fb => st32 fb (4 * i) 0) s.fb
      else memset s.fb 0 0 fbBytes
    let cells := if geo.trackCells then memset s.cells 0 32 (mul32 geo.cols geo.rows) else s.cells
    drawCursor fmt { s with fb := fb, cells := cells, cursorX := 0, cursorY := 0 }

/-- `fb_init`: the result and the statics, where `fb` is the memory at the address. -/
def fbInit (fmt : FbFormat) (font : FbFont) (addr width height pitch bpp : Nat) (fb : Mem)
    (s : FbState) : Bool × FbState :=
  if addr = 0 ∨ width = 0 ∨ height = 0 ∨ pitch = 0 then (false, s)
  else if ¬ (bpp = 32 ∨ bpp = 24) then (false, s)
  else
    let fontW := if font = .f816 then 8 else 16
    let fontH := if font = .f816 then 16 else 32
    let cols := width / fontW
    let rows := height / fontH
    let geo := { s.geo with
      addr := addr, width := width, height := height, pitch := pitch, bpp := bpp
      fontW := fontW, fontH := fontH, cols := cols, rows := rows }
    if cols = 0 ∨ rows = 0 then (false, { s with geo := geo, fb := fb })
    else
      let geo := { geo with trackCells := cols ≤ maxFbCols ∧ rows ≤ maxFbRows }
      let s := { s with geo := geo, fb := fb, cursorX := 0, cursorY := 0 }
      (true, drawCursor fmt (fbClear fmt s))

/-- `fb_putc`. -/
def fbPutc (fmt : FbFormat) (c : UInt8) (s : FbState) : FbState :=
  if s.geo.addr = 0 then s
  else
    let s := eraseCursor fmt s
    if c = 13 then drawCursor fmt { s with cursorX := 0 }
    else if c = 10 then drawCursor fmt (fbNewline s)
    else if c = 8 then
      let s :=
        if s.cursorX > 0 then { s with cursorX := s.cursorX - 1 }
        else if s.cursorY > 0 then
          { s with cursorY := s.cursorY - 1, cursorX := sub32 s.geo.cols 1 }
        else s
      let s := drawCell fmt 32 s.cursorX s.cursorY s
      let s := cellSet s.cursorX s.cursorY 32 s
      drawCursor fmt s
    else
      let s := drawCell fmt c s.cursorX s.cursorY s
      let s := cellSet s.cursorX s.cursorY c s
      let s := { s with cursorX := add32 s.cursorX 1 }
      let s := if s.cursorX ≥ s.geo.cols then fbNewline s else s
      drawCursor fmt s

/-- `while (*s) fb_putc(*s++)`. -/
def printLoop (fmt : FbFormat) : List UInt8 → FbState → FbState
  | [], s => s
  | c :: rest, s => printLoop fmt rest (fbPutc fmt c s)

/-- `fb_print`; no string is a null pointer. -/
def fbPrint (fmt : FbFormat) (str : Option CString) (s : FbState) : FbState :=
  match str with
  | none => s
  | some str => printLoop fmt str.bytes s

/-- A call that writes or clears. -/
inductive FbCall
  | putc (c : UInt8)
  | print (str : Option CString)
  | clear

/-- The console after a call. -/
def fbCall (fmt : FbFormat) (s : FbState) : FbCall → FbState
  | .putc c => fbPutc fmt c s
  | .print str => fbPrint fmt str s
  | .clear => fbClear fmt s

end RoninOS.Console
