/-
RoninOS.Apps.AppFiles — the commands on paths: `app_ls.c`, `app_cat.c`, `app_pwd.c` and
`app_cd.c` in `kernel/apps`.

A command gets `argv` and leaves its return value, what it prints and the VFS. A loop
takes fuel and returns `none` where it runs out.
-/
import RoninOS.Fs.VfsOps

namespace RoninOS.Apps

open RoninOS.Lib RoninOS.Fs

section Commands

variable {σ Ctx Node : Type}

/-- The return value, what is printed, and the VFS with the state behind it. -/
abbrev FileResult (σ Ctx Node : Type) := Int × List UInt8 × FsVfs σ Ctx Node × σ

/-- `print_dirent`, which never stops the listing. -/
def printDirent (ent : VfsDirent) : List UInt8 :=
  ent.name ++ (if ent.isDir then ascii "/" else []) ++ ascii "\n"

/-- `app_ls_main`. -/
def appLsMain (fuel : Nat) (argv : List (List UInt8)) (v : FsVfs σ Ctx Node) (s : σ) :
    Option (FileResult σ Ctx Node) :=
  let path := if argv.length > 1 then argv.getD 1 [] else ascii "."
  (vfsListdir fuel v s path fun _ => 0).map fun (rc, ents) =>
    if rc < 0 then (1, ents.flatMap printDirent ++ ascii "ls: cannot open directory\n", v, s)
    else (0, ents.flatMap printDirent, v, s)

/-- `while ((n = vfs_read(fd, buf, sizeof(buf))) > 0)` with the loop that prints. -/
def catLoop (s : σ) (fd : Int) : Nat → FsVfs σ Ctx Node → Option (List UInt8 × FsVfs σ Ctx Node)
  | 0, _ => none
  | fuel + 1, v =>
      let (n, buf, v) := vfsRead v s fd 64
      if n > 0 then (catLoop s fd fuel v).map fun (out, v) => (buf.take n.toNat ++ out, v)
      else some ([], v)

/-- `app_cat_main`. -/
def appCatMain (fuel : Nat) (argv : List (List UInt8)) (v : FsVfs σ Ctx Node) (s : σ) :
    Option (FileResult σ Ctx Node) :=
  if argv.length < 2 then some (1, ascii "usage: cat <path>\n", v, s)
  else
    let (fd, v, s) := vfsOpen v s (argv.getD 1 []) vfsORdonly
    if fd < 0 then some (1, ascii "cat: file not found\n", v, s)
    else
      (catLoop s fd fuel v).map fun (out, v) => (0, out ++ ascii "\n", (vfsClose v fd).2, s)

/-- `app_pwd_main`. -/
def appPwdMain (v : FsVfs σ Ctx Node) (s : σ) : FileResult σ Ctx Node :=
  (0, v.cwd ++ ascii "\n", v, s)

/-- `app_cd_main`. -/
def appCdMain (argv : List (List UInt8)) (v : FsVfs σ Ctx Node) (s : σ) : FileResult σ Ctx Node :=
  let path := if argv.length > 1 then argv.getD 1 [] else ascii "/"
  let (rc, v) := vfsChdir v s path
  if rc < 0 then (1, ascii "cd: no such directory\n", v, s) else (0, [], v, s)

end Commands

end RoninOS.Apps
