/-
# Evaluating nodes

A named value is evaluated by copying it, a field unit by reading it and
copying what was read, a method without arguments by calling it.  Other objects
have no value.

How a method is called is left open here: a `Caller` stands for it, and
everything that evaluates a node is a function of the caller.
-/

import Acpi.Machine.Basic
import Acpi.Value.Storage

namespace Acpi

/-- A way to call the method at a node with arguments. -/
abbrev Caller (η ν : Type) : Type :=
  NodeId → List Value → MachineM η ν (Except Error Value)

namespace Caller

variable {η ν : Type}

open Machine

/-- A copy of a field unit's value. -/
def readUnit (p : Platform η ν) (operand : Operand) : WorldM η ν Value := do
  let held ← p.host.ask (.readOperand operand)
  let result ← held.copy p.host
  let _empty ← held.release p.host
  return result

/-- The value of a node, which the caller is to release. -/
def evalNode (p : Platform η ν) (call : Caller η ν) (node : NodeId) :
    MachineM η ν (Except Error Value) := do
  match ← onSpace (·.object node) with
  | .method flags _ =>
    if flags.argCount = 0 then call node []
    else return .error (.argCount flags.argCount 0)
  | .name value => .ok <$> onWorld (value.copy p.host)
  | .field fieldUnit => .ok <$> onWorld (readUnit p (.field fieldUnit))
  | .indexField fieldUnit => .ok <$> onWorld (readUnit p (.indexField fieldUnit))
  | other =>
    log (.valueless (← onSpace (·.name node)) other.typeName)
    return .error .wrongType

end Caller
end Acpi
