/-
# Failures

Two kinds of failure are kept apart.  An `Error` is an answer: a method body
may receive it from a nested call and carry on.  A `Fault` is not: it says that
a caller has broken a contract (a handle of another namespace, a slot that does
not exist), and nothing that happens after it is defined.
-/

import Acpi.Namespace.Handle

namespace Acpi

/-- Why an evaluation gave no value. -/
inductive Error
  /-- The object cannot be used in this way. -/
  | wrongType
  /-- A method was given another number of arguments than it declares. -/
  | argCount (expected : UInt8) (supplied : Nat)
  /-- The nesting of method calls has reached its limit. -/
  | callDepth (limit : UInt64)
  /-- The code of a body ends too early. -/
  | unexpectedEnd
  /-- The code of a body cannot be run. -/
  | invalidAml
deriving DecidableEq

namespace Error

/-- The message that goes with an error. -/
def message : Error → String
  | wrongType => "object type mismatch"
  | argCount expected supplied => s!"method takes {expected} arguments, {supplied} supplied"
  | callDepth limit => s!"method call depth limit of {limit} reached"
  | unexpectedEnd => "unexpected end of AML bytecode"
  | invalidAml => "invalid AML bytecode"

instance : ToString Error := ⟨message⟩

end Error

/-- Which contract a caller has broken. -/
inductive Fault
  /-- A handle of a node that the namespace does not have. -/
  | noSuchNode (node : NodeId)
  /-- A slot beyond the last one of its kind. -/
  | noSuchSlot
  /-- Elements were handed back to the host while one of them held a value. -/
  | uncleanRelease
  /-- A name of fewer than four bytes. -/
  | shortName
  /-- A position outside the value held in a register. -/
  | noSuchPosition
  /-- Links that lead round in a circle, so that following them has no end. -/
  | endless
deriving DecidableEq

end Acpi
