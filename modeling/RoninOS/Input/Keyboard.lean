/-
RoninOS.Input.Keyboard — the PS/2 keyboard driver of
`kernel/input/keyboard.c`: the two key maps, `map_ascii`, `on_key_press`
and `keyboard_isr`.

The driver's two globals `g_mods` and `g_e0` are the state; every call of
`keyboardIsr` takes the byte that `inb(0x60)` returned and yields the key
events it delivered to `shell_handle_key`, in order. The end-of-interrupt
message to the PIC has no effect on either and is left out.
-/
import RoninOS.Lib.CString

namespace RoninOS.Input

open RoninOS.Lib

/-! ## Key events (`keyboard.h`) -/

/-- `key_code_t`. -/
inductive KeyCode
  | none | char | enter | backspace | delete
  | left | right | up | down | home | «end» | pageUp | pageDown | tab
  deriving DecidableEq, Repr

/-- `KEYMOD_SHIFT`. -/
def keymodShift : UInt8 := 1
/-- `KEYMOD_CTRL`. -/
def keymodCtrl : UInt8 := 2
/-- `KEYMOD_ALT`. -/
def keymodAlt : UInt8 := 4

/-- `key_event_t`. -/
structure KeyEvent where
  code : KeyCode
  ch : UInt8
  modifiers : UInt8
  deriving DecidableEq, Repr

/-! ## Key maps -/

/-- `keymap`; the entries past the initialiser are 0. -/
def keymap : List UInt8 :=
  [0, 27] ++ ascii "1234567890-=" ++ [0] ++
  [9] ++ ascii "qwertyuiop[]" ++ [10, 0] ++
  ascii "asdfghjkl;'`" ++ [0] ++ ascii "\\" ++
  ascii "zxcvbnm,./" ++ [0] ++ ascii "*" ++ [0] ++ ascii " "

/-- `keymap_shift`; the entries past the initialiser are 0. -/
def keymapShift : List UInt8 :=
  [0, 27] ++ ascii "!@#$%^&*()_+" ++ [0] ++
  [9] ++ ascii "QWERTYUIOP\x7b\x7d" ++ [10, 0] ++
  ascii "ASDFGHJKL:\"~" ++ [0] ++ ascii "|" ++
  ascii "ZXCVBNM<>?" ++ [0] ++ ascii "*" ++ [0] ++ ascii " "

/-! ## The driver -/

/-- The driver's globals. -/
structure Keyboard where
  mods : UInt8
  e0 : UInt8
  deriving DecidableEq, Repr

/-- `keyboard_init`. -/
def keyboardInit : Keyboard := { mods := 0, e0 := 0 }

/-- `map_ascii`. -/
def mapAscii (mods sc : UInt8) : UInt8 :=
  if sc ≥ 128 then 0
  else if mods &&& keymodShift ≠ 0 then keymapShift.getD sc.toNat 0
  else keymap.getD sc.toNat 0

/-- The first `switch` of `on_key_press`: the code of a key after `0xE0`. -/
def extendedCode (sc : UInt8) : KeyCode :=
  if sc = 0x4B then .left
  else if sc = 0x4D then .right
  else if sc = 0x48 then .up
  else if sc = 0x50 then .down
  else if sc = 0x47 then .home
  else if sc = 0x4F then .end
  else if sc = 0x49 then .pageUp
  else if sc = 0x51 then .pageDown
  else if sc = 0x53 then .delete
  else .none

/-- The second `switch` of `on_key_press`: the keys without a character. -/
def plainCode (sc : UInt8) : KeyCode :=
  if sc = 0x1C then .enter
  else if sc = 0x0E then .backspace
  else if sc = 0x0F then .tab
  else if sc = 0x48 then .up
  else if sc = 0x50 then .down
  else if sc = 0x47 then .home
  else if sc = 0x4F then .end
  else if sc = 0x49 then .pageUp
  else if sc = 0x51 then .pageDown
  else .none

/-- The events of an extended press: `on_key_press` with `g_e0` set. -/
def extendedEvents (mods sc : UInt8) : List KeyEvent :=
  if extendedCode sc ≠ .none then
    [{ code := extendedCode sc, ch := 0, modifiers := mods }]
  else []

/-- The events of an ordinary press: `on_key_press` with `g_e0` clear. -/
def plainEvents (mods sc : UInt8) : List KeyEvent :=
  if plainCode sc ≠ .none then
    [{ code := plainCode sc, ch := 0, modifiers := mods }]
  else
    let c := mapAscii mods sc
    if 32 ≤ c ∧ c ≤ 126 then [{ code := .char, ch := c, modifiers := mods }]
    else []

/-- `on_key_press`: the extended branch clears the prefix flag. -/
def onKeyPress (k : Keyboard) (sc : UInt8) : Keyboard × List KeyEvent :=
  if k.e0 ≠ 0 then ({ k with e0 := 0 }, extendedEvents k.mods sc)
  else (k, plainEvents k.mods sc)

/-- The release branch of `keyboard_isr`; `rel` is the code without its top
bit. The three tests are independent `if`s in the source. -/
def releaseMods (mods rel : UInt8) : UInt8 :=
  let m := if rel = 0x2A ∨ rel = 0x36 then mods &&& ~~~keymodShift else mods
  let m := if rel = 0x1D then m &&& ~~~keymodCtrl else m
  if rel = 0x38 then m &&& ~~~keymodAlt else m

/-- The modifier bit that a press of `sc` sets in `keyboard_isr`, if any. -/
def pressMod (sc : UInt8) : Option UInt8 :=
  if sc = 0x2A ∨ sc = 0x36 then some keymodShift
  else if sc = 0x1D then some keymodCtrl
  else if sc = 0x38 then some keymodAlt
  else none

/-- `keyboard_isr`, for the byte `sc` read from port 0x60. -/
def keyboardIsr (k : Keyboard) (sc : UInt8) : Keyboard × List KeyEvent :=
  if sc = 0xE0 then ({ k with e0 := 1 }, [])
  else if sc &&& 0x80 ≠ 0 then
    ({ k with mods := releaseMods k.mods (sc &&& 0x7F) }, [])
  else
    match pressMod sc with
    | some m => ({ k with mods := k.mods ||| m }, [])
    | none => onKeyPress k sc

/-- The key events delivered while the bytes of a stream arrive one by one. -/
def keyboardRun : Keyboard → List UInt8 → List KeyEvent
  | _, [] => []
  | k, sc :: rest => (keyboardIsr k sc).2 ++ keyboardRun (keyboardIsr k sc).1 rest

end RoninOS.Input
