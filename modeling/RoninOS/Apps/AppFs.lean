/-
RoninOS.Apps.AppFs — the `fs` command of `kernel/apps/app_fs.c`.

A command takes the node table and its arguments, and leaves the return value,
the table and the bytes that it prints. `none` stands for a call of
`ramfs_write` that leaves the kernel undefined.
-/
import RoninOS.Fs.Ramfs
import RoninOS.Lib.Memory

namespace RoninOS.Apps

open RoninOS.Lib RoninOS.Fs

/-! ## Printing -/

/-- The digits that the two loops of `print_u32` print, from the last one on. -/
def digitsOf : Nat → Nat → List UInt8 → List UInt8
  | 0, _, printed => printed
  | rounds + 1, n, printed =>
      if n > 0 then digitsOf rounds (n / 10) (UInt8.ofNat (48 + n % 10) :: printed) else printed

/-- `print_u32`. -/
def printU32 (n : Nat) : List UInt8 := if n = 0 then ascii "0" else digitsOf 11 n []

/-- `streq`. -/
def streq : List UInt8 → List UInt8 → Bool
  | a :: as, b :: bs => a == b && streq as bs
  | [], [] => true
  | _, _ => false

/-- `print_usage`. -/
def printUsage : List UInt8 :=
  ascii "legacy: fs arbeitet direkt auf RAMFS-root\n" ++ ascii "fs ls\n" ++
  ascii "fs touch <name>\n" ++ ascii "fs write <name> <text>\n" ++
  ascii "fs append <name> <text>\n" ++ ascii "fs cat <name>\n" ++ ascii "fs cp <src> <dst>\n" ++
  ascii "fs mv <src> <dst>\n" ++ ascii "fs rm <name>\n"

/-! ## Commands -/

/-- The return value, the table and what is printed. -/
abbrev FsResult := Int × RamfsTable × List UInt8

/-- The string at the pointer that `ramfs_read` returns: `size` follows `data`
in a node, and its high bytes are zero. -/
def dataString (data : Buffer ramfsMaxContent) (size : Nat) : List UInt8 :=
  (data.bytes ++ [byteOf size 0, byteOf size 1, byteOf size 2, byteOf size 3]).takeWhile (· ≠ 0)

/-- `cmd_ls`. -/
def cmdLs (t : RamfsTable) : Int × List UInt8 :=
  let count := ramfsCount t
  if count = 0 then (0, ascii "ramfs empty\n")
  else
    (0, (List.range count).flatMap fun i =>
      match ramfsGetEntry t i with
      | some (name, size) => name ++ ascii " (" ++ printU32 size ++ ascii " B)\n"
      | none => [])

/-- What a failed `ramfs_touch` or `ramfs_write` prints; `invalid` is for -1. -/
def failText (rc : Int) (invalid : String) : Option (List UInt8) :=
  if rc = -1 then some (ascii invalid) else if rc = -2 then some (ascii "ramfs is full\n") else none

/-- `fs touch`. -/
def touchCommand (t : RamfsTable) (name : List UInt8) : FsResult :=
  let (rc, t) := ramfsTouch t name
  match failText rc "invalid file name\n" with
  | some text => (1, t, text)
  | none => (0, t, [])

/-- `fs write` and `fs append`. -/
def writeCommand (t : RamfsTable) (name text : List UInt8) (append : Bool) : Option FsResult :=
  (ramfsWrite t name (some text) append).map fun (rc, t) =>
    match failText rc "invalid file name\n" with
    | some text => (1, t, text)
    | none => (0, t, if rc = 1 then ascii "warning: text truncated\n" else [])

/-- `fs cat`. -/
def catCommand (t : RamfsTable) (name : List UInt8) : FsResult :=
  match ramfsRead t name with
  | none => (1, t, ascii "file not found\n")
  | some (data, size) => (0, t, dataString data size ++ ascii "\n")

/-- `fs rm`. -/
def rmCommand (t : RamfsTable) (name : List UInt8) : FsResult :=
  let (rc, t) := ramfsRemove t name
  if rc < 0 then (1, t, ascii "file not found\n") else (0, t, [])

/-- `fs cp` and `fs mv`. `ramfs_write` reads the string while it writes `dst`:
only its first 511 bytes count, and it puts them where they are if `dst` is `src`. -/
def copyCommand (t : RamfsTable) (src dst : List UInt8) (move : Bool) : Option FsResult :=
  match ramfsRead t src with
  | none => some (1, t, ascii "source file not found\n")
  | some (data, size) =>
      (ramfsWrite t dst (some (dataString data size)) false).map fun (rc, t) =>
        match failText rc "invalid destination file name\n" with
        | some text => (1, t, text)
        | none =>
            let warned := if rc = 1 then ascii "warning: text truncated\n" else []
            if move then
              let (rc, t) := ramfsRemove t src
              (0, t, warned ++
                if rc < 0 then ascii "warning: source cleanup failed\n" else [])
            else (0, t, warned)

/-- `app_fs_main`; the command is `argv[1]`. -/
def appFsMain (t : RamfsTable) (argv : List (List UInt8)) : Option FsResult :=
  let arg := fun i => argv.getD i []
  if argv.length < 2 then some (1, t, printUsage)
  else if streq (arg 1) (ascii "ls") then
    let (rc, text) := cmdLs t
    some (rc, t, text)
  else if streq (arg 1) (ascii "touch") then
    if argv.length < 3 then some (1, t, ascii "usage: fs touch <name>\n")
    else some (touchCommand t (arg 2))
  else if streq (arg 1) (ascii "write") || streq (arg 1) (ascii "append") then
    if argv.length < 4 then some (1, t, ascii "usage: fs write|append <name> <text>\n")
    else writeCommand t (arg 2) (arg 3) (streq (arg 1) (ascii "append"))
  else if streq (arg 1) (ascii "cat") then
    if argv.length < 3 then some (1, t, ascii "usage: fs cat <name>\n")
    else some (catCommand t (arg 2))
  else if streq (arg 1) (ascii "rm") then
    if argv.length < 3 then some (1, t, ascii "usage: fs rm <name>\n")
    else some (rmCommand t (arg 2))
  else if streq (arg 1) (ascii "cp") || streq (arg 1) (ascii "mv") then
    if argv.length < 4 then some (1, t, ascii "usage: fs cp|mv <src> <dst>\n")
    else copyCommand t (arg 2) (arg 3) (streq (arg 1) (ascii "mv"))
  else some (1, t, printUsage)

end RoninOS.Apps
