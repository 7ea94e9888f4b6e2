/-
# A host that counts

This host counts what it is asked for.  All buffer fields hold one stored
value, and so do all field units.  It refuses to take back elements of which
one holds a value.
-/

import Acpi.Host.Call

namespace Acpi

/-- The state of a counting host. -/
structure Counters where
  allocs : Nat
  frees : Nat
  contextsAllocated : Nat
  contextsFreed : Nat
  fieldValue : UInt64
  fieldReads : Nat
  operandValue : UInt64
  operandReads : Nat
  indexFieldReads : Nat
deriving DecidableEq

namespace Counters

/-- The state in which nothing has been counted or stored. -/
def zero : Counters := ⟨0, 0, 0, 0, 0, 0, 0, 0, 0⟩

/-- How many blocks of storage are out; negative if more came back than went
out. -/
def live (c : Counters) : Int := c.allocs - c.frees

end Counters

/-- The host that counts. -/
def countingHost : Host Counters
  | .allocBytes _, c => .ok ([], { c with allocs := c.allocs + 1 })
  | .freeBytes _, c => .ok ((), { c with frees := c.frees + 1 })
  | .allocElements _, c => .ok ([], { c with allocs := c.allocs + 1 })
  | .freeElements elements, c =>
    if elements.all Value.isNull then .ok ((), { c with frees := c.frees + 1 })
    else .error .uncleanRelease
  | .allocContext, c =>
    .ok (Context.fresh, { c with contextsAllocated := c.contextsAllocated + 1 })
  | .freeContext _, c => .ok ((), { c with contextsFreed := c.contextsFreed + 1 })
  | .readBufferField _, c => .ok (c.fieldValue, { c with fieldReads := c.fieldReads + 1 })
  | .writeBufferField _ value, c => .ok ((), { c with fieldValue := value })
  | .readOperand (.field _), c =>
    .ok (.integer c.operandValue, { c with operandReads := c.operandReads + 1 })
  | .readOperand (.indexField _), c =>
    .ok (.integer c.operandValue,
      { c with operandReads := c.operandReads + 1, indexFieldReads := c.indexFieldReads + 1 })

end Acpi
