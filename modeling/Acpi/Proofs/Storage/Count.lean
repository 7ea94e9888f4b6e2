/-
# How much storage a value has

Buffers and packages have storage of the host, one block each, at every depth of
a value; nothing else has.  Contexts have the storage of what their slots hold,
namespaces that of their named values.
-/

import Acpi.Context.Basic
import Acpi.Proofs.Tree.Columns
import Mathlib.Algebra.BigOperators.Group.List.Basic
import Mathlib.Algebra.GroupWithZero.Nat

namespace Acpi

/-- A sum over a list of which one entry changes. -/
theorem sum_map_set {α : Type} {f : α → Nat} {l : List α} {i : Nat} {a : α} (h : l[i]? = some a)
    (b : α) : ((l.set i b).map f).sum + f a = (l.map f).sum + f b := by
  induction l generalizing i with
  | nil => simp at h
  | cons c l ih =>
    cases i with
    | zero =>
      obtain rfl := Option.some.inj h
      simp only [List.set_cons_zero, List.map_cons, List.sum_cons]
      omega
    | succ i =>
      have hset := ih h
      simp only [List.set_cons_succ, List.map_cons, List.sum_cons]
      omega

namespace Value

mutual

/-- The number of buffers and packages in a value, at any depth. -/
def storage : Value → Nat
  | package elements => storageAll elements + 1
  | buffer _ => 1
  | null | integer _ | string _ | bufferField _ => 0

/-- The number of buffers and packages in a list of values. -/
def storageAll : List Value → Nat
  | [] => 0
  | v :: vs => storage v + storageAll vs

end

@[simp] theorem storage_null : storage null = 0 := by simp [storage]

@[simp] theorem storage_integer (n : UInt64) : storage (integer n) = 0 := by simp [storage]

theorem storageAll_eq_sum (vs : List Value) : storageAll vs = (vs.map storage).sum := by
  induction vs with
  | nil => simp [storageAll]
  | cons v vs ih => simp [storageAll, ih]

end Value

/-- The storage that an object holds: that of a named value. -/
def Object.storage : Object → Nat
  | name value => value.storage
  | _ => 0

/-- The storage of what the slots hold. -/
def Context.storage (ctx : Context) : Nat := Value.storageAll ctx.cells.toList

namespace Namespace

/-- The storage of all named values. -/
def storage (ns : Namespace) : Nat := (ns.objects.map Object.storage).sum

end Namespace
end Acpi
