/-
# Shutting down

When the interpreter is given up, the values that named objects below the root
still hold go back to the host, in preorder.  The objects stay, and hold the
empty value.
-/

import Acpi.Machine.Caller
import Acpi.Namespace.Walk

namespace Acpi
namespace Platform

variable {η ν : Type}

open Machine

/-- Releases the value of a node that has one, and says whether it has. -/
def releaseName (p : Platform η ν) (node : NodeId) : MachineM η ν Bool := do
  match ← onSpace (·.object node) with
  | .name value =>
    let left ← onWorld (value.release p.host)
    let m ← get
    set { m with space := ← m.space.setObject node (.name left) }
    return true
  | _ => return false

/-- Releases the values of the nodes, in order, and counts them. -/
def releaseNames (p : Platform η ν) : List NodeId → MachineM η ν Nat
  | [] => return 0
  | node :: rest => do
    let released ← p.releaseName node
    let others ← p.releaseNames rest
    return if released then others + 1 else others

/-- Releases every named value below the root. -/
def shutdown (p : Platform η ν) : MachineM η ν Unit := do
  let count ← p.releaseNames (← onSpace (·.walk))
  log (.released count)

end Platform
end Acpi
