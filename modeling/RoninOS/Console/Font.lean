/-
RoninOS.Console.Font — the glyphs of `kernel/fb_console.c`.

Each glyph is drawn in 5 × 7 dots. The two fonts stretch it: to 8 × 16 by a table of
rows, and from there to 16 × 32 by doubling.
-/
import RoninOS.Lib.Loops

namespace RoninOS.Console

open RoninOS.Lib

/-- The cases of `glyph5x7_row`. -/
def glyphs : List (Char × List UInt8) :=
  [('A', [14, 17, 17, 31, 17, 17, 17]), ('B', [30, 17, 17, 30, 17, 17, 30]),
    ('C', [14, 17, 16, 16, 16, 17, 14]), ('D', [30, 17, 17, 17, 17, 17, 30]),
    ('E', [31, 16, 16, 30, 16, 16, 31]), ('F', [31, 16, 16, 30, 16, 16, 16]),
    ('G', [14, 17, 16, 23, 17, 17, 14]), ('H', [17, 17, 17, 31, 17, 17, 17]),
    ('I', [31, 4, 4, 4, 4, 4, 31]), ('J', [7, 2, 2, 2, 2, 18, 12]),
    ('K', [17, 18, 20, 24, 20, 18, 17]), ('L', [16, 16, 16, 16, 16, 16, 31]),
    ('M', [17, 27, 21, 21, 17, 17, 17]), ('N', [17, 25, 21, 19, 17, 17, 17]),
    ('O', [14, 17, 17, 17, 17, 17, 14]), ('P', [30, 17, 17, 30, 16, 16, 16]),
    ('Q', [14, 17, 17, 17, 21, 18, 13]), ('R', [30, 17, 17, 30, 20, 18, 17]),
    ('S', [15, 16, 16, 14, 1, 1, 30]), ('T', [31, 4, 4, 4, 4, 4, 4]),
    ('U', [17, 17, 17, 17, 17, 17, 14]), ('V', [17, 17, 17, 17, 17, 10, 4]),
    ('W', [17, 17, 17, 21, 21, 21, 10]), ('X', [17, 17, 10, 4, 10, 17, 17]),
    ('Y', [17, 17, 10, 4, 4, 4, 4]), ('Z', [31, 1, 2, 4, 8, 16, 31]),
    ('0', [14, 17, 19, 21, 25, 17, 14]), ('1', [4, 12, 4, 4, 4, 4, 14]),
    ('2', [14, 17, 1, 2, 4, 8, 31]), ('3', [30, 1, 1, 14, 1, 1, 30]),
    ('4', [2, 6, 10, 18, 31, 2, 2]), ('5', [31, 16, 16, 30, 1, 1, 30]),
    ('6', [14, 16, 16, 30, 17, 17, 14]), ('7', [31, 1, 2, 4, 8, 8, 8]),
    ('8', [14, 17, 17, 14, 17, 17, 14]), ('9', [14, 17, 17, 15, 1, 1, 14]),
    ('-', [0, 0, 0, 31, 0, 0, 0]), ('_', [0, 0, 0, 0, 0, 0, 31]),
    ('.', [0, 0, 0, 0, 0, 6, 6]), (',', [0, 0, 0, 0, 0, 6, 4]),
    (':', [0, 6, 6, 0, 6, 6, 0]), (';', [0, 6, 6, 0, 6, 4, 0]),
    ('/', [1, 2, 2, 4, 8, 8, 16]), ('\\', [16, 8, 8, 4, 2, 2, 1]),
    ('(', [2, 4, 8, 8, 8, 4, 2]), (')', [8, 4, 2, 2, 2, 4, 8]),
    ('[', [14, 8, 8, 8, 8, 8, 14]), (']', [14, 2, 2, 2, 2, 2, 14]),
    ('=', [0, 31, 0, 31, 0, 0, 0]), ('+', [0, 4, 4, 31, 4, 4, 0]),
    ('*', [0, 17, 10, 4, 10, 17, 0]), ('!', [4, 4, 4, 4, 4, 0, 4]),
    ('?', [14, 17, 1, 2, 4, 0, 4]), ('|', [4, 4, 4, 4, 4, 4, 4])]

/-- The glyph of a character that has none. -/
def noGlyph : List UInt8 := [14, 17, 1, 2, 4, 0, 4]

/-- `glyph5x7_row`. -/
def glyph5x7Row (c : UInt8) (row : Nat) : UInt8 :=
  if row ≥ 7 then 0
  else
    let c := if c ≥ 97 ∧ c ≤ 122 then c - 32 else c
    if c = 32 then 0
    else ((glyphs.lookup (Char.ofUInt8 c)).getD noGlyph).getD row 0

/-- `row_map`. -/
def rowMap : List UInt8 := [255, 0, 0, 1, 1, 2, 2, 3, 3, 4, 4, 5, 5, 6, 6, 255]

/-- `glyph8x16_row`. -/
def glyph8x16Row (c : UInt8) (row : Nat) : UInt8 :=
  if row ≥ 16 then 0
  else
    let src := rowMap.getD row 0
    if src = 255 then 0
    else glyph5x7Row c src.toNat <<< 1

/-- `glyph16x32_row`. -/
def glyph16x32Row (c : UInt8) (row : Nat) : UInt16 :=
  if row ≥ 32 then 0
  else
    let bits8 := glyph8x16Row c (row >>> 1)
    forLoop 8 (fun x bits16 =>
      if bits8.toNat &&& 1 <<< (7 - x) ≠ 0 then bits16 ||| UInt16.ofNat (3 <<< (14 - x * 2))
      else bits16) 0

theorem glyph5x7Row_space (row : Nat) : glyph5x7Row 32 row = 0 := by
  unfold glyph5x7Row
  split
  · rfl
  · rfl

theorem glyph8x16Row_space (row : Nat) : glyph8x16Row 32 row = 0 := by
  unfold glyph8x16Row
  simp only [glyph5x7Row_space]
  split
  · rfl
  · split <;> rfl

theorem glyph16x32Row_space (row : Nat) : glyph16x32Row 32 row = 0 := by
  unfold glyph16x32Row
  split
  · rfl
  · refine forLoop_untouched (fun bits : UInt16 => bits) fun x _ bits => ?_
    rw [glyph8x16Row_space]
    simp

end RoninOS.Console
