/-
RoninOS.Shell.Commands — the command line of `kernel/shell/commands.c`:
`parse_args` and the beginning of `shell_execute_line`.

The arguments are pointers into the copy of the line, which `parse_args` cuts by
overwriting blanks and closing quotes. Pointers are places in that array, a
memory that starts at 0. A loop takes fuel and returns `none` where it runs out;
it ends at the latest at the NUL of the line.
-/
import RoninOS.Shell.Shell

namespace RoninOS.Shell

open RoninOS.Lib

/-- `sizeof(buf)` in `shell_execute_line`. -/
def commandBufSize : Nat := 128
/-- The number of entries of `argv` there. -/
def commandMaxArgv : Nat := 16

/-- `'"'`. -/
def quote : UInt8 := 34

/-- `*p == ' ' || *p == '\t'`. -/
def isBlank (c : UInt8) : Bool := c == 32 || c == 9

/-- `while (*p == ' ' || *p == '\t') *p++ = 0;`. -/
def skipBlanks : Nat → Mem → Nat → Option (Mem × Nat)
  | 0, _, _ => none
  | fuel + 1, m, p =>
      if isBlank (m p) then skipBlanks fuel (Function.update m p 0) (p + 1) else some (m, p)

/-- `while (*p && !stop(*p)) p++;`. -/
def scanTo (stop : UInt8 → Bool) : Nat → Mem → Nat → Option Nat
  | 0, _, _ => none
  | fuel + 1, m, p =>
      if m p ≠ 0 ∧ stop (m p) = false then scanTo stop fuel m (p + 1) else some p

/-- The `if (*p == '"')` of `parse_args`: the pointer that goes to `argv`, and the
array and `p` behind the argument. -/
def takeArg (fuel : Nat) (m : Mem) (p : Nat) : Option (Nat × Mem × Nat) :=
  if m p = quote then
    (scanTo (· == quote) fuel m (p + 1)).map fun q =>
      if m q = quote then (p + 1, Function.update m q 0, q + 1) else (p + 1, m, q)
  else
    (scanTo isBlank fuel m p).map fun q =>
      if m q ≠ 0 then (p, Function.update m q 0, q + 1) else (p, m, q)

/-- `while (*p && argc < max_argv)`, with the arguments so far. -/
def parseLoop (maxArgv : Nat) : Nat → Mem → List Nat → Nat → Option (List Nat × Mem)
  | 0, _, _, _ => none
  | fuel + 1, m, argv, p =>
      if m p ≠ 0 ∧ argv.length < maxArgv then
        (skipBlanks fuel m p).bind fun (m, p) =>
          if m p = 0 then some (argv, m)
          else (takeArg fuel m p).bind fun (arg, m, p) => parseLoop maxArgv fuel m (argv ++ [arg]) p
      else some (argv, m)

/-- `parse_args`: the entries of `argv`, and the line as they see it. -/
def parseArgs (fuel : Nat) (line : Mem) (maxArgv : Nat) : Option (List Nat × Mem) :=
  parseLoop maxArgv fuel line [] 0

/-- `shell_execute_line` up to `parse_args`: `buf` is what the array holds before. -/
def executeArgs (fuel : Nat) (line buf : Mem) : Option (List Nat × Mem) :=
  let (buf, i) := loadBytes line (commandBufSize - 1) 0 buf
  parseArgs fuel (Function.update buf i 0) commandMaxArgv

/-- The string that an argument points to. -/
def argString (m : Mem) (arg : Nat) : List UInt8 :=
  strAt (fun i => m (arg + i)) (commandBufSize - arg)

end RoninOS.Shell
