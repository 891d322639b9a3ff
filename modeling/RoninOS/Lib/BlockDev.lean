/-
RoninOS.Lib.BlockDev — a block device whose requests may fail.

A `Disk` is the sectors of a device and the number of requests it has served.
`fails` decides for every request, by its number, whether it fails although it
is in range; a failing request changes nothing. A sector is a buffer of which
the first `sectorSize` bytes count. Every schedule of failures is a function of
the request number, so a statement for every `fails` holds for any order of
failures, and `fails = fun _ => false` is the device that works.

`orFail` is the C idiom `if (call != 0) { set_error(msg); return -1; }`.
-/
import RoninOS.Lib.Memory
import Mathlib.Tactic.Common

namespace RoninOS.Lib

/-- A block device; its sector count is a 32-bit number. -/
structure BlockDev where
  sectorSize : Nat
  sectorCount : Nat
  sectorCount_lt : sectorCount < 2 ^ 32
  writable : Bool
  fails : Nat → Bool

/-- The contents of a device and the number of requests it has served. -/
structure Disk where
  sectors : Nat → Mem
  requests : Nat

/-- The disk after `k` more requests. -/
def Disk.tick (d : Disk) (k : Nat) : Disk := { d with requests := d.requests + k }

/-- The disk with other contents in one sector. -/
def Disk.put (d : Disk) (lba : Nat) (sec : Mem) : Disk :=
  { d with sectors := Function.update d.sectors lba sec }

/-- A request for one sector that is in range and does not fail. -/
def BlockDev.Serves (dev : BlockDev) (lba n : Nat) : Prop :=
  dev.fails n = false ∧ lba < dev.sectorCount

instance (dev : BlockDev) (lba n : Nat) : Decidable (dev.Serves lba n) :=
  inferInstanceAs (Decidable (_ ∧ _))

/-- Read one sector. -/
def BlockDev.read (dev : BlockDev) (lba : Nat) (d : Disk) : Option Mem × Disk :=
  if dev.Serves lba d.requests then (some (d.sectors lba), d.tick 1) else (none, d.tick 1)

/-- Write one sector. -/
def BlockDev.write (dev : BlockDev) (lba : Nat) (sec : Mem) (d : Disk) : Option Unit × Disk :=
  if dev.Serves lba d.requests then (some (), (d.put lba sec).tick 1) else (none, d.tick 1)

/-- Go on with the result of a call, or return its failure with a message. -/
def orFail {α β : Type} (r : Option α × Disk) (msg : String)
    (next : α → Disk → Except String β × Disk) : Except String β × Disk :=
  match r with
  | (none, d) => (.error msg, d)
  | (some a, d) => next a d

/-! ## Disks -/

@[simp] theorem Disk.sectors_tick (d : Disk) (k : Nat) : (d.tick k).sectors = d.sectors := rfl

@[simp] theorem Disk.requests_tick (d : Disk) (k : Nat) :
    (d.tick k).requests = d.requests + k := rfl

@[simp] theorem Disk.requests_put (d : Disk) (lba : Nat) (sec : Mem) :
    (d.put lba sec).requests = d.requests := rfl

@[simp] theorem Disk.sectors_put (d : Disk) (lba : Nat) (sec : Mem) :
    (d.put lba sec).sectors = Function.update d.sectors lba sec := rfl

@[simp] theorem Disk.tick_tick (d : Disk) (j k : Nat) : (d.tick j).tick k = d.tick (j + k) := by
  simp [Disk.tick, Nat.add_assoc]

@[simp] theorem Disk.put_tick (d : Disk) (lba k : Nat) (sec : Mem) :
    (d.tick k).put lba sec = (d.put lba sec).tick k := rfl

@[simp] theorem Disk.tick_zero (d : Disk) : d.tick 0 = d := rfl

/-! ## Requests -/

section Requests

variable {dev : BlockDev} {lba : Nat} {d : Disk}

theorem BlockDev.read_ok (h : dev.Serves lba d.requests) :
    dev.read lba d = (some (d.sectors lba), d.tick 1) := if_pos h

theorem BlockDev.read_fail (h : ¬ dev.Serves lba d.requests) :
    dev.read lba d = (none, d.tick 1) := if_neg h

theorem BlockDev.write_ok {sec : Mem} (h : dev.Serves lba d.requests) :
    dev.write lba sec d = (some (), (d.put lba sec).tick 1) := if_pos h

theorem BlockDev.write_fail {sec : Mem} (h : ¬ dev.Serves lba d.requests) :
    dev.write lba sec d = (none, d.tick 1) := if_neg h

/-- In range, a request is served unless the device fails it. -/
theorem BlockDev.serves_iff {n : Nat} (hlba : lba < dev.sectorCount) :
    dev.Serves lba n ↔ dev.fails n = false := and_iff_left hlba

theorem BlockDev.read_sectors (dev : BlockDev) (lba : Nat) (d : Disk) :
    (dev.read lba d).2.sectors = d.sectors := by
  unfold BlockDev.read
  split <;> rfl

/-- A write changes one sector at most. -/
theorem BlockDev.write_of_ne {lba' : Nat} (h : lba' ≠ lba) (sec : Mem) :
    (dev.write lba sec d).2.sectors lba' = d.sectors lba' := by
  unfold BlockDev.write
  split
  · exact Function.update_of_ne h _ _
  · rfl

/-- On a device that works every request in range is served. -/
theorem BlockDev.serves_of_works (hworks : ∀ n, dev.fails n = false)
    (hlba : lba < dev.sectorCount) (n : Nat) : dev.Serves lba n := ⟨hworks n, hlba⟩

end Requests

section OrFail

variable {α β : Type} {msg : String} {next : α → Disk → Except String β × Disk}

@[simp] theorem orFail_some (a : α) (d : Disk) : orFail (some a, d) msg next = next a d := rfl

@[simp] theorem orFail_none (d : Disk) :
    orFail ((none, d) : Option α × Disk) msg next = (.error msg, d) := rfl

/-- A call that succeeds went through each of its parts. -/
theorem orFail_ok {r : Option α × Disk} {b : β} {d' : Disk}
    (h : orFail r msg next = (.ok b, d')) : ∃ a d, r = (some a, d) ∧ next a d = (.ok b, d') := by
  obtain ⟨o, d⟩ := r
  cases o with
  | none => simp [orFail] at h
  | some a => exact ⟨a, d, rfl, h⟩

/-- What each part of a call keeps, the call keeps. -/
theorem orFail_keeps {P : Disk → Prop} {r : Option α × Disk} (hr : P r.2)
    (hnext : ∀ a d, P d → P (next a d).2) : P (orFail r msg next).2 := by
  obtain ⟨o, d⟩ := r
  cases o with
  | none => exact hr
  | some a => exact hnext a d hr

/-- A call keeps the sectors if each of its parts does. -/
theorem orFail_sectors {r : Option α × Disk} {s : Nat → Mem} (hr : r.2.sectors = s)
    (hnext : ∀ a d, d.sectors = s → (next a d).2.sectors = s) :
    (orFail r msg next).2.sectors = s :=
  orFail_keeps (P := fun d => d.sectors = s) hr hnext

end OrFail

end RoninOS.Lib
