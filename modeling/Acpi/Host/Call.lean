/-
# The host

The environment of the interpreter supplies storage, contexts, and the contents
of buffer fields and field units.  Everything that the interpreter wants of it
is a `HostCall`, and every call has its type of answer.  A host is a function
from calls and its own state to answers and its next state; it may refuse a
call that breaks the contract between the two.

Storage that the host gives out may hold anything; whoever asks for storage
says how much is going to be put into it.
-/

import Acpi.Context.Basic

namespace Acpi

/-- A field unit that is to be read, directly or through an index register. -/
inductive Operand
  | field (fieldUnit : FieldUnit)
  | indexField (fieldUnit : FieldUnit)
deriving DecidableEq

/-- What the host can be asked for. -/
inductive HostCall
  /-- Storage for bytes. -/
  | allocBytes (length : Nat)
  /-- Taking back the storage of a buffer. -/
  | freeBytes (bytes : List UInt8)
  /-- Storage for the elements of a package. -/
  | allocElements (count : Nat)
  /-- Taking back the storage of a package; every element is to be empty. -/
  | freeElements (elements : List Value)
  /-- A context for a method call. -/
  | allocContext
  /-- Taking back a context; every slot is to be empty. -/
  | freeContext (context : Context)
  /-- The bits that a buffer field refers to. -/
  | readBufferField (field : BufferField)
  /-- Changing the bits that a buffer field refers to. -/
  | writeBufferField (field : BufferField) (value : UInt64)
  /-- The value of a field unit. -/
  | readOperand (operand : Operand)
deriving DecidableEq

namespace HostCall

/-- What the host gives back for a call. -/
abbrev Answer : HostCall → Type
  | allocBytes _ => List UInt8
  | allocElements _ => List Value
  | allocContext => Context
  | readBufferField _ => UInt64
  | readOperand _ => Value
  | freeBytes _ | freeElements _ | freeContext _ | writeBufferField _ _ => Unit

end HostCall

/-- A host whose state is of type `η`. -/
abbrev Host (η : Type) : Type := (call : HostCall) → η → Except Fault (call.Answer × η)

end Acpi
