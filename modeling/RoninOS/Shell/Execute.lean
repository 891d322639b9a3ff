/-
RoninOS.Shell.Execute — `shell_execute_line` of `kernel/shell/commands.c` with its table
`g_cmds` and the table `g_apps` of `kernel/apps/apps.c`.

A program of the tables gets `argv` and acts on the state of the kernel; `none` stands for
a program that does not return. What it returns is not used.
-/
import RoninOS.Shell.Commands
import RoninOS.Lib.CString

namespace RoninOS.Shell

open RoninOS.Lib

/-! ## The tables -/

/-- The functions of `g_cmds` and `g_apps`. -/
inductive Program
  | cmdHelp | cmdClear | cmdClean | cmdEcho | cmdUname | cmdMem | cmdUptime | cmdReboot
  | appEcho | appClear | appAbout | appMeminfo | appHeapTest | appSpawn | appYield | appPs
  | appPreempt | appFs | appFat32 | appLs | appCat | appPwd | appCd | appDisk
  deriving DecidableEq

/-- The names and functions of `g_cmds`. -/
def gCmds : List (List UInt8 × Program) :=
  [(ascii "help", .cmdHelp), (ascii "clear", .cmdClear), (ascii "clean", .cmdClean),
    (ascii "echo", .cmdEcho), (ascii "uname", .cmdUname), (ascii "mem", .cmdMem),
    (ascii "uptime", .cmdUptime), (ascii "reboot", .cmdReboot)]

/-- The names of `g_apps` and their `main`, which is null for the first. -/
def gApps : List (List UInt8 × Option Program) :=
  [(ascii "help", none), (ascii "echo", some .appEcho), (ascii "clear", some .appClear),
    (ascii "about", some .appAbout), (ascii "meminfo", some .appMeminfo),
    (ascii "heap_test", some .appHeapTest), (ascii "spawn", some .appSpawn),
    (ascii "yield", some .appYield), (ascii "ps", some .appPs),
    (ascii "preempt", some .appPreempt), (ascii "fs", some .appFs),
    (ascii "fat32", some .appFat32), (ascii "ls", some .appLs), (ascii "cat", some .appCat),
    (ascii "pwd", some .appPwd), (ascii "cd", some .appCd), (ascii "disk", some .appDisk)]

/-- The program that `shell_execute_line` finds for `argv[0]`. -/
def findProgram (name : List UInt8) : Option Program :=
  match gCmds.find? fun cmd => strcmp name cmd.1 = 0 with
  | some cmd => some cmd.2
  | none => (gApps.find? fun app => strcmp name app.1 = 0).bind (·.2)

/-! ## One line -/

/-- What `terminal_write_error` prints for a name that is in neither table. -/
def unknownCommand : List UInt8 := ascii "Unknown command. Type 'help'.\n"

/-- A program of the tables: what it prints and leaves of the state. -/
abbrev Programs (S : Type) := Program → List (List UInt8) → S → Option (List UInt8 × S)

/-- `shell_execute_line`: what it prints, and the state after it. -/
def shellExecuteLine {S : Type} (programs : Programs S) (fuel : Nat) (line buf : Mem) (s : S) :
    Option (List UInt8 × S) :=
  (executeArgs fuel line buf).bind fun (argv, m) =>
    match argv.map (argString m) with
    | [] => some ([], s)
    | name :: args =>
        match findProgram name with
        | some program => programs program (name :: args) s
        | none => some (unknownCommand, s)

end RoninOS.Shell
