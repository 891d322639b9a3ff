/-
RoninOS.Shell.FileSession — the files that a user sees.

`bootFiles` is what `kmain` does with the file systems. After it a path leads to `/`,
to `/initrd` or to a boot module, and to nothing else: the mount of RAMFS at `/` matches
no path below it. So the working directory is one of two (`Place`), `locate` says where
a path leads from there, and `answer` what the commands on paths print.
-/
import RoninOS.Apps.AppFiles
import RoninOS.Apps.AppFs
import RoninOS.Fs.InitrdFiles
import RoninOS.Fs.RamfsCalls
import RoninOS.Fs.VfsTree
import RoninOS.Shell.Execute
import RoninOS.Shell.Words

namespace RoninOS.Shell

open RoninOS.Lib RoninOS.Fs RoninOS.Mem RoninOS.Apps

/-! ## The machine -/

/-- What the commands on files act on. -/
structure Machine where
  vfs : FsVfs (BootState RamfsTable) Unit (BootNode Nat)
  files : BootState RamfsTable

/-- `kmain` from `ramfs_init` to `initrd_mount_from_multiboot`. -/
def bootFiles (fuel : Nat) (mem : Mem) (mbMagic mbInfoAddr : Nat) : Option Machine :=
  let v := kernelVfs (bootOps ramfsOps)
  let s := (vfsMkdir v { mem, initrd := zeroCtx, other := ramfsInit } initrdPath.bytes).2
  (initrdMountFromMultiboot fuel v s mbMagic mbInfoAddr).map fun (v, s) => ⟨v, s⟩

/-- What a program that uses no file system prints, and the memory that it leaves. -/
abbrev Others := Program → List (List UInt8) → Machine → Option (List UInt8 × Mem)

/-- What a command on paths leaves of the machine. -/
def fileResult (r : FileResult (BootState RamfsTable) Unit (BootNode Nat)) : List UInt8 × Machine :=
  (r.2.1, ⟨r.2.2.1, r.2.2.2⟩)

/-- The programs. Only `ls`, `cat`, `pwd`, `cd` and `fs` use a file system. -/
def filePrograms (fuel : Nat) (others : Others) : Programs Machine
  | .appLs, argv, m => (appLsMain fuel argv m.vfs m.files).map fileResult
  | .appCat, argv, m => (appCatMain fuel argv m.vfs m.files).map fileResult
  | .appPwd, _, m => some (fileResult (appPwdMain m.vfs m.files))
  | .appCd, argv, m => some (fileResult (appCdMain argv m.vfs m.files))
  | .appFs, argv, m => (appFsMain m.files.other argv).map fun (_, other, out) =>
      (out, { m with files := { m.files with other } })
  | program, argv, m => (others program argv m).map fun (out, mem) =>
      (out, { m with files := { m.files with mem } })

/-- A call of `shell_execute_line`: the line in memory, and what the buffer holds. -/
structure LineCall where
  line : CString
  src : Mem
  buf : Mem
  holds : HoldsStr src line.bytes

/-- What a call prints, and the machine after it. -/
def LineCall.run (fuel : Nat) (others : Others) (m : Machine) (c : LineCall) :
    Option (List UInt8 × Machine) :=
  shellExecuteLine (filePrograms fuel others) fuel c.src c.buf m

/-! ## What the user sees -/

/-- The directories. -/
inductive Place
  | root
  | initrd

/-- The components of a directory. -/
def Place.comps : Place → List (List UInt8)
  | .root => []
  | .initrd => [initrdSegment]

/-- The path of a directory. -/
def Place.path (p : Place) : List UInt8 := render p.comps

/-- Where a path leads. -/
inductive Target
  | dir (p : Place)
  | file (m : BootModule)
  | nothing

/-- The first module with a name. -/
def findModule (mods : List BootModule) (name : List UInt8) : Option BootModule :=
  (mods.zipIdx.find? fun (m, i) => m.name i = name).map (·.1)

/-- Where the components lead. -/
def locateComps (mods : List BootModule) : List (List UInt8) → Target
  | [] => .dir .root
  | [c] => if c = initrdSegment then .dir .initrd else .nothing
  | [c, name] =>
      if c = initrdSegment then
        match findModule mods name with
        | some m => .file m
        | none => .nothing
      else .nothing
  | _ => .nothing

/-- Where a path leads from a directory. -/
def locate (mods : List BootModule) (p : Place) (path : List UInt8) : Target :=
  match normalizePath p.path path with
  | some norm => locateComps mods (components norm)
  | none => .nothing

/-- The path that a command is given, or its default. -/
def pathArg (argv : List (List UInt8)) (default : String) : List UInt8 :=
  if argv.length > 1 then argv.getD 1 [] else ascii default

/-- What `cd` prints. -/
def cdText : Target → List UInt8
  | .dir _ => []
  | _ => ascii "cd: no such directory\n"

/-- What `vfs_listdir` lists: `root` are the entries of RAMFS. -/
def listing (mods : List BootModule) (root : List VfsDirent) : Target → Option (List VfsDirent)
  | .dir .root => some root
  | .dir .initrd => some (mods.mapIdx moduleDirent)
  | _ => none

/-- What `ls` prints. -/
def lsText : Option (List VfsDirent) → List UInt8
  | some ents => ents.flatMap printDirent
  | none => ascii "ls: cannot open directory\n"

/-- What `cat` prints of a path: `bytes` are the data of the modules. -/
def catText (bytes : BootModule → List UInt8) : Target → List UInt8
  | .file m => bytes m ++ ascii "\n"
  | _ => ascii "cat: file not found\n"

/-- What the commands on paths print. -/
def answer (mods : List BootModule) (bytes : BootModule → List UInt8) (root : List VfsDirent)
    (p : Place) (argv : List (List UInt8)) : Program → Option (List UInt8)
  | .appPwd => some (p.path ++ ascii "\n")
  | .appCd => some (cdText (locate mods p (pathArg argv "/")))
  | .appLs => some (lsText (listing mods root (locate mods p (pathArg argv "."))))
  | .appCat => some (if argv.length < 2 then ascii "usage: cat <path>\n"
      else catText bytes (locate mods p (argv.getD 1 [])))
  | _ => none

/-- The arguments of a call. -/
def LineCall.argv (c : LineCall) : List (List UInt8) := (words (c.line.bytes.take 127)).take 16

/-- The program of a call. -/
def LineCall.program (c : LineCall) : Option Program := c.argv.head?.bind findProgram

/-- The working directory after `vfs_chdir`. -/
def chdirPlace (p : Place) : Target → Place
  | .dir q => q
  | _ => p

/-- The working directory after a program. -/
def placeAfter (mods : List BootModule) (p : Place) (argv : List (List UInt8)) : Program → Place
  | .appCd => chdirPlace p (locate mods p (pathArg argv "/"))
  | _ => p

/-- The working directory after a call. -/
def LineCall.place (mods : List BootModule) (p : Place) (c : LineCall) : Place :=
  (c.program.map (placeAfter mods p c.argv)).getD p

end RoninOS.Shell
