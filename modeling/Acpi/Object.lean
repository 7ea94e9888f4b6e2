/-
# Objects

The object of a node says what the node is: a scope, a device, a method with
the place of its code, a named value, a unit of a field, and so on.  A method's
flags are one byte:

| bits | meaning |
| --- | --- |
| 0-2 | number of arguments |
| 3 | serialized |
| 4-7 | synchronization level |
-/

import Acpi.Value.Basic

namespace Acpi

/-- The flags byte of a method. -/
structure MethodFlags where
  bits : UInt8
deriving DecidableEq

namespace MethodFlags

/-- The flags with the given parts, each cut to the bits that it has. -/
def make (argCount : UInt8) (serialized : Bool) (syncLevel : UInt8) : MethodFlags :=
  ⟨UInt8.ofNat (argCount.toNat % 8 + (if serialized then 8 else 0) + syncLevel.toNat % 16 * 16)⟩

/-- The number of arguments that the method declares. -/
def argCount (f : MethodFlags) : UInt8 := f.bits % 8

/-- Whether the method is serialized. -/
def isSerialized (f : MethodFlags) : Bool := f.bits / 8 % 2 == 1

/-- The synchronization level of the method. -/
def syncLevel (f : MethodFlags) : UInt8 := f.bits / 16

/-- A method declares at most seven arguments. -/
theorem argCount_lt (f : MethodFlags) : f.argCount.toNat < 8 := by
  simp only [argCount, UInt8.toNat_mod, UInt8.reduceToNat]
  omega

end MethodFlags

/-- The place of a method's code: from `start` up to, but without, `stop`. -/
structure CodeRange where
  start : Nat
  stop : Nat
deriving DecidableEq

/-- A unit of a field: a run of bits in an operation region (`source`) or, for
an indexed field, in the register `data` that `source` selects. -/
structure FieldUnit where
  source : NodeId
  data : Option NodeId
  bitOffset : UInt64
  bitLen : UInt64
  flags : UInt8
deriving DecidableEq

/-- What a node is. -/
inductive Object
  | scope
  | device
  | method (flags : MethodFlags) (body : CodeRange)
  | name (value : Value)
  | field (fieldUnit : FieldUnit)
  | indexField (fieldUnit : FieldUnit)
  | processor (id : UInt8)
  | powerResource
  | thermalZone
  | mutex
  | event
  | opRegion
deriving DecidableEq

namespace Object

/-- A method of the given arity that is neither serialized nor synchronized. -/
def plainMethod (argCount : UInt8) (body : CodeRange) : Object :=
  method (MethodFlags.make argCount false 0) body

/-- The ACPI name of an object's type; a named value goes by the type of the
value. -/
def typeName : Object → String
  | scope => "Scope"
  | device => "Device"
  | method _ _ => "Method"
  | name value => value.typeName
  | field _ => "FieldUnit"
  | indexField _ => "FieldUnit"
  | processor _ => "Processor"
  | powerResource => "PowerResource"
  | thermalZone => "ThermalZone"
  | mutex => "Mutex"
  | event => "Event"
  | opRegion => "OperationRegion"

end Object
end Acpi
