/-
RoninOS.Lib.PortIo — programs that talk to a device through ports.

What a device answers is a stream for each port: `inputs port n` is the value
of read number `n` of the port. A run over all streams is a run with any device.
The trace keeps every access, the last one first, so a property of an access
and of what came before it is a recursion over the trace (`EveryEvent`).
-/
import Mathlib.Data.List.Basic
import Mathlib.Logic.Function.Basic

namespace RoninOS.Lib

/-- An access to a port. -/
inductive PortEvent
  | inb (port : Nat) (value : UInt8)
  | inw (port : Nat) (value : UInt16)
  | outb (port : Nat) (value : UInt8)
  | outw (port : Nat) (value : UInt16)
  deriving DecidableEq

/-- The answers to come, the number of reads of each port so far, and the trace. -/
structure PortIo where
  inputs : Nat → Nat → UInt16
  reads : Nat → Nat
  trace : List PortEvent

namespace PortIo

/-- Nothing was accessed yet. -/
def start (inputs : Nat → Nat → UInt16) : PortIo := ⟨inputs, fun _ => 0, []⟩

/-- The answer to the next read of a port. -/
def answer (p : PortIo) (port : Nat) : UInt16 := p.inputs port (p.reads port)

/-- After a read. -/
def afterRead (p : PortIo) (port : Nat) (e : PortEvent) : PortIo :=
  { p with
    reads := Function.update p.reads port (p.reads port + 1)
    trace := e :: p.trace }

/-- `inb`. -/
def inb (p : PortIo) (port : Nat) : UInt8 × PortIo :=
  let value := (p.answer port).toUInt8
  (value, p.afterRead port (.inb port value))

/-- `inw`. -/
def inw (p : PortIo) (port : Nat) : UInt16 × PortIo :=
  let value := p.answer port
  (value, p.afterRead port (.inw port value))

/-- `outb`. -/
def outb (p : PortIo) (port : Nat) (value : UInt8) : PortIo :=
  { p with trace := .outb port value :: p.trace }

/-- `outw`. -/
def outw (p : PortIo) (port : Nat) (value : UInt16) : PortIo :=
  { p with trace := .outw port value :: p.trace }

end PortIo

/-! ## Traces -/

/-- `P e before` holds of every access `e` and the trace `before` it. -/
def EveryEvent (P : PortEvent → List PortEvent → Prop) : List PortEvent → Prop
  | [] => True
  | e :: before => P e before ∧ EveryEvent P before

variable {P : PortEvent → List PortEvent → Prop}

/-- What holds of every access of a trace held of every access of its beginning. -/
theorem EveryEvent.of_append {later before : List PortEvent} (h : EveryEvent P (later ++ before)) :
    EveryEvent P before := by
  induction later with
  | nil => exact h
  | cons e later ih => exact ih h.2

/-- Accesses of which the property always holds change nothing. -/
theorem everyEvent_append_iff {later before : List PortEvent}
    (hfree : ∀ e ∈ later, ∀ trace, P e trace) :
    EveryEvent P (later ++ before) ↔ EveryEvent P before := by
  induction later with
  | nil => exact Iff.rfl
  | cons e later ih =>
      rw [List.cons_append, EveryEvent, ih fun e' he' => hfree e' (List.mem_cons_of_mem _ he')]
      exact and_iff_right (hfree e (List.mem_cons_self ..) _)

/-- The last value written to a port. -/
def lastOut (port : Nat) : List PortEvent → UInt8
  | [] => 0
  | .outb port' value :: before => if port' = port then value else lastOut port before
  | _ :: before => lastOut port before

end RoninOS.Lib
