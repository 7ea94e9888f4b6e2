/-
# Execution contexts

A method runs on a context of its own: seven arguments, eight locals and the
value to return, together with the number of arguments bound, the scope in
which relative names are read, and the place of the method's code.  The sixteen
values stand in one row of cells, arguments first and the return value last;
a `Slot` addresses one of them.
-/

import Acpi.Failure
import Acpi.Object

namespace Acpi

/-- The number of argument slots. -/
def maxArgs : Nat := 7

/-- The number of local slots. -/
def maxLocals : Nat := 8

/-- The address of a value in a context.  Any index can be written down; those
from `maxArgs` or `maxLocals` on address nothing. -/
inductive Slot
  | arg (index : UInt8)
  | loc (index : UInt8)
  | ret
deriving DecidableEq

/-- The cell that a slot addresses. -/
def Slot.cell? : Slot → Option (Fin 16)
  | arg index =>
    if h : index.toNat < maxArgs then some ⟨index.toNat, Nat.lt_trans h (by decide)⟩ else none
  | loc index =>
    if h : index.toNat < maxLocals then
      some ⟨maxArgs + index.toNat, Nat.lt_trans (Nat.add_lt_add_left h maxArgs) (by decide)⟩
    else none
  | ret => some 15

/-- The state of one method call. -/
structure Context where
  cells : Vector Value 16
  argCount : UInt8
  scope : NodeId
  body : CodeRange
deriving DecidableEq

namespace Context

/-- A context in which nothing is set. -/
def fresh : Context := ⟨Vector.replicate 16 .null, 0, NodeId.first, ⟨0, 0⟩⟩

instance : Inhabited Context := ⟨fresh⟩

/-- The value in a slot. -/
def get (ctx : Context) (slot : Slot) : Except Fault Value :=
  match slot.cell? with
  | some i => .ok ctx.cells[i]
  | none => .error .noSuchSlot

/-- The context with another value in a slot. -/
def set (ctx : Context) (slot : Slot) (value : Value) : Except Fault Context :=
  match slot.cell? with
  | some i => .ok { ctx with cells := ctx.cells.set i value }
  | none => .error .noSuchSlot

/-- How many slots hold a value. -/
def live (ctx : Context) : Nat := ctx.cells.toList.countP fun v => !v.isNull

end Context
end Acpi
