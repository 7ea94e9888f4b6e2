/-
# Handles

Nodes of a namespace are numbered in order of creation, and a handle is such a
number.  It does not say which namespace it belongs to.
-/

namespace Acpi

/-- A handle to a node. -/
@[ext] structure NodeId where
  index : Nat
deriving DecidableEq

namespace NodeId

/-- The node that is there from the start. -/
def first : NodeId := ⟨0⟩

instance : ToString NodeId := ⟨fun id => toString id.index⟩

end NodeId
end Acpi
