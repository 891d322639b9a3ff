/-
RoninOS.Apps.AppDisk — `disk read` of `kernel/apps/app_disk.c`.

`parse_u32` returns `none` where the source returns -1. `cmd_read` takes the
devices and the ports, and leaves its return value, what it prints and the
ports. The buffer of a sector is its words before the read.
-/
import RoninOS.Apps.AppFs
import RoninOS.Drivers.AtaPio

namespace RoninOS.Apps.AppDisk

open RoninOS.Lib RoninOS.Drivers

/-! ## Numbers -/

/-- The loop of `parse_u32`, with the value so far. -/
def parseLoop : List UInt8 → Nat → Option Nat
  | [], value => some value
  | c :: s, value =>
      if c < 48 ∨ c > 57 then none
      else parseLoop s (add32 (mul32 value 10) (c.toNat - 48))

/-- `parse_u32`; no string is a null pointer. -/
def parseU32 : Option CString → Option Nat
  | none => none
  | some s => if s.bytes = [] then none else parseLoop s.bytes 0

/-! ## The command -/

/-- `block_find`. -/
def blockFind (devs : List AtaDev) (name : CString) : Option AtaDev :=
  devs.find? fun dev => strcmp dev.name name.bytes = 0

/-- A digit of `hexdig`. -/
def hexDigit (n : Nat) : UInt8 := (ascii "0123456789ABCDEF").getD n 0

/-- `print_hex_byte`. -/
def printHexByte (b : UInt8) : List UInt8 :=
  [hexDigit (b.toNat >>> 4 &&& 0x0F), hexDigit (b.toNat &&& 0x0F)]

/-- Byte `i` of the buffer of words. -/
def bufByte (words : Nat → UInt16) (i : Nat) : UInt8 := byteOf (words (i / 2)).toNat (i % 2)

/-- The loop of `cmd_read` that prints the bytes. -/
def printBytes (words : Nat → UInt16) (maxPrint : Nat) : List UInt8 :=
  (List.range maxPrint).flatMap fun i =>
    (if i % 16 = 0 then printU32 i ++ ascii ": " else []) ++
    printHexByte (bufByte words i) ++ ascii " " ++ (if i % 16 = 15 then ascii "\n" else [])

/-- `cmd_read`; `dev->read` is `ata_pio_read` for every device there is. -/
def cmdRead (devs : List AtaDev) (name lbaS countS : CString) (buf : Nat → UInt16) (p : PortIo) :
    Int × List UInt8 × PortIo :=
  match blockFind devs name with
  | none => (1, ascii "disk not found\n", p)
  | some dev =>
      match parseU32 (some lbaS), parseU32 (some countS) with
      | some lba, some count =>
          if count = 0 ∨ count > 1 then (1, ascii "count must be 1 for now\n", p)
          else if dev.sectorSize > 512 then (1, ascii "sector size unsupported\n", p)
          else
            let (rc, words, p) := ataPioRead (some dev) lba count (some buf) p
            if rc ≠ 0 then (1, ascii "read failed\n", p)
            else (0, printBytes (words.getD buf) (min dev.sectorSize 256), p)
      | _, _ => (1, ascii "invalid lba/count\n", p)

end RoninOS.Apps.AppDisk
