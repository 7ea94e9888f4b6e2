/-
# The machine

A machine is what evaluations change: the namespace, the world outside, and the
number of method calls in progress.  The platform is what they take as given:
the host, the bodies of methods, and the limit on nested calls.
-/

import Acpi.Host.Journal
import Acpi.Machine.Body

namespace Acpi

/-- What evaluations take as given.  `executor` is the body that runs on a
method's context. -/
structure Platform (η ν : Type) where
  host : Host η
  executor : Context → Body ν Unit
  maxCallDepth : UInt64

/-- The usual limit on nested method calls. -/
def defaultCallDepth : UInt64 := 64

/-- What evaluations change. -/
structure Machine (η ν : Type) where
  space : Namespace
  world : World η ν
  depth : Nat

/-- A computation of the machine. -/
abbrev MachineM (η ν : Type) : Type → Type := StateT (Machine η ν) (Except Fault)

namespace Machine

variable {η ν α : Type}

/-- A machine at rest over a namespace, with a host and an empty journal. -/
def start (space : Namespace) (host : η) : Machine η ν := ⟨space, ⟨host, #[]⟩, 0⟩

/-- The state of an interpreter in words. -/
def describe (limit : UInt64) (depth : Nat) : String :=
  let config := s!"InterpreterConfig \x7b max_call_depth: {limit} \x7d"
  s!"Interpreter \x7b config: {config}, depth: {depth}, .. \x7d"

/-- A computation of the world as one of the machine. -/
def onWorld (act : WorldM η ν α) : MachineM η ν α := fun ⟨space, world, depth⟩ => do
  let (result, world) ← act world
  return (result, ⟨space, world, depth⟩)

/-- What the namespace answers. -/
def onSpace (query : Namespace → Except Fault α) : MachineM η ν α := do
  query (← get).space

/-- Writes a log record. -/
def log (record : LogRecord) : MachineM η ν Unit := onWorld (World.write (.log record))

end Machine
end Acpi
