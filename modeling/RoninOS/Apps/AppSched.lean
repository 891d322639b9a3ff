/-
RoninOS.Apps.AppSched — `spawn` of `kernel/apps/app_sched.c`.

`parse_u32` is a copy of the one in `app_disk.c` with other return values: it
returns `none` where the source returns 0. Call number `i` of `thread_create`
gets the stack `stackOf i` from `kmalloc`.
-/
import RoninOS.Apps.AppFs
import RoninOS.Sched.Thread

namespace RoninOS.Apps.AppSched

open RoninOS.Lib RoninOS.Sched

/-! ## Numbers -/

/-- The loop of `parse_u32`: `seen` and `v`, or `none` where it returns 0. -/
def parseLoop : List UInt8 → Bool → Nat → Option (Bool × Nat)
  | [], seen, v => some (seen, v)
  | c :: s, _, v =>
      if c < 48 ∨ c > 57 then none
      else parseLoop s true (add32 (mul32 v 10) (c.toNat - 48))

/-- `parse_u32`. -/
def parseU32 (s : CString) : Option Nat :=
  (parseLoop s.bytes false 0).bind fun (seen, v) => if seen then some v else none

/-! ## The command -/

/-- The loop of `app_spawn_main`, from thread `i` on; `some i` where thread `i`
is not created. -/
def spawnLoop (bootstrap workerEntry : Nat) (stackOf : Nat → Nat) :
    Nat → Nat → Scheduler → Option Nat × Scheduler
  | 0, _, s => (none, s)
  | rounds + 1, i, s =>
      match threadCreate bootstrap (some ⟨ascii "worker", by decide⟩) workerEntry (add32 i 1)
        (stackOf i) s with
      | (none, s) => (some i, s)
      | (some _, s) => spawnLoop bootstrap workerEntry stackOf rounds (i + 1) s

/-- `app_spawn_main`: the return value, what is printed and the scheduler. -/
def appSpawnMain (bootstrap workerEntry : Nat) (stackOf : Nat → Nat) (argv : List CString)
    (s : Scheduler) : Int × List UInt8 × Scheduler :=
  match argv[1]?.bind parseU32 with
  | none => (1, ascii "usage: spawn <n>\n", s)
  | some count =>
      match spawnLoop bootstrap workerEntry stackOf count 0 s with
      | (some i, s) =>
          (1, ascii "spawn failed at thread " ++ printU32 (add32 i 1) ++ ascii "\n", s)
      | (none, s) => (0, ascii "spawned " ++ printU32 count ++ ascii " thread(s)\n", s)

end RoninOS.Apps.AppSched
