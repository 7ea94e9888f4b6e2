/-
# Values

A value is nothing, a 64-bit integer, a text, a buffer of bytes, a reference to
a bit field inside a buffer, or a package of values.  Buffers and packages are
the values whose storage belongs to the host (`Acpi.Value.Storage`); all other
values own nothing.

Two values are equal when they have the same shape and the same contents at
every depth; `Value.same` decides it.
-/

import Acpi.Namespace.Handle

namespace Acpi

/-- A reference to a run of bits in the buffer that a node holds. -/
structure BufferField where
  source : NodeId
  bitOffset : UInt64
  bitLen : UInt64
deriving DecidableEq

/-- What a named object, a slot or an argument holds. -/
inductive Value
  | null
  | integer (n : UInt64)
  | string (text : String)
  | buffer (bytes : List UInt8)
  | bufferField (field : BufferField)
  | package (elements : List Value)

namespace Value

instance : Inhabited Value := ⟨null⟩

/-- The ACPI name of a value's type. -/
def typeName : Value → String
  | null => "Uninitialized"
  | integer _ => "Integer"
  | string _ => "String"
  | buffer _ => "Buffer"
  | bufferField _ => "BufferField"
  | package _ => "Package"

/-- The integer of an integer value; no other value counts as one. -/
def asInteger? : Value → Option UInt64
  | integer n => some n
  | _ => none

/-- Whether a value is the empty one. -/
def isNull : Value → Bool
  | null => true
  | _ => false

@[simp] theorem isNull_iff (v : Value) : v.isNull = true ↔ v = null := by
  cases v <;> simp [isNull]

mutual

/-- Whether two values have the same shape and contents. -/
def same : Value → Value → Bool
  | null, null => true
  | integer m, integer n => m == n
  | string s, string t => s == t
  | buffer b, buffer c => b == c
  | bufferField f, bufferField g => decide (f = g)
  | package xs, package ys => sameAll xs ys
  | _, _ => false

/-- Whether two lists hold the same values in the same order. -/
def sameAll : List Value → List Value → Bool
  | [], [] => true
  | x :: xs, y :: ys => same x y && sameAll xs ys
  | _, _ => false

end

mutual

theorem same_iff : (v w : Value) → (same v w = true ↔ v = w)
  | null, w => by cases w <;> simp [same]
  | integer _, w => by cases w <;> simp [same]
  | string _, w => by cases w <;> simp [same]
  | buffer _, w => by cases w <;> simp [same]
  | bufferField _, w => by cases w <;> simp [same]
  | package xs, w => by
    cases w with
    | package ys => simpa [same] using sameAll_iff xs ys
    | _ => simp [same]

theorem sameAll_iff : (xs ys : List Value) → (sameAll xs ys = true ↔ xs = ys)
  | [], ys => by cases ys <;> simp [sameAll]
  | x :: xs, ys => by
    cases ys with
    | nil => simp [sameAll]
    | cons y ys => simp [sameAll, same_iff x y, sameAll_iff xs ys]

end

instance : DecidableEq Value := fun v w => decidable_of_iff _ (same_iff v w)

end Value
end Acpi
