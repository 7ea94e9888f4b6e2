/-
# Scripted bodies

A script is a list of statements that stands for the code of a method.  Its
statements name slots of the method's context and, by textual path, nodes as
seen from the method's scope.
-/

import Acpi.Context.Basic
import Acpi.Device.EisaId

namespace Acpi

/-- Where a value is taken from: a slot, or the statement itself. -/
inductive Source
  | slot (slot : Slot)
  | value (value : Value)

/-- A statement of a script.  A `target` is the slot that is to hold the result
of the statement; without one the result is released. -/
inductive Statement
  /-- Copies one slot into another. -/
  | copy (target source : Slot)
  /-- Puts a copy of a value into a slot. -/
  | store (slot : Slot) (value : Value)
  /-- Puts the value itself into a slot. -/
  | move (slot : Slot) (value : Value)
  /-- Overwrites a slot and drops what it held. -/
  | poke (slot : Slot) (value : Value)
  /-- Notes what a slot holds. -/
  | reveal (slot : Slot)
  /-- Notes the context and the depth of the call. -/
  | report
  /-- Calls a method with copies of the arguments; its error ends the script. -/
  | call (target : Option Slot) (path : String) (args : List Source)
  /-- Calls a method like `call`, but notes its error and goes on. -/
  | attempt (target : Option Slot) (path : String) (args : List Source)
  /-- Evaluates a node, which is looked for in the enclosing scopes too. -/
  | eval (target : Option Slot) (path : String)
  /-- Gives 1 if a device goes by an identifier, and 0 if not. -/
  | identify (target : Option Slot) (path : String) (id : EisaId)
  /-- Notes the devices that go by an identifier, and gives their number. -/
  | findDevices (target : Option Slot) (id : EisaId)
  /-- Adds a node, and notes it. -/
  | add (path : String) (name : List UInt8) (object : Object)
  /-- Copies a value into a named value. -/
  | assign (path : String) (source : Source)
  /-- Adds to the integer in a slot, modulo 2^64; any other value counts as 0. -/
  | increase (slot : Slot) (amount : UInt64)
  /-- Goes on with the first list if the slot holds the integer 0, and with the
  second one if not. -/
  | ifZero (slot : Slot) (yes no : List Statement)
  /-- Ends the script. -/
  | ret
  /-- Ends the script with an error. -/
  | fail (error : Error)

/-- What a script notes while it runs. -/
inductive Note
  /-- What a slot holds. -/
  | revealed (slot : Slot) (value : Value)
  /-- The context and the depth of the call. -/
  | reported (scope : NodeId) (args : UInt8) (depth : Nat) (body : CodeRange)
  /-- The devices that were found. -/
  | found (devices : List NodeId)
  /-- The node that was added. -/
  | added (node : NodeId)
  /-- The error of a call that was only attempted. -/
  | caught (error : Error)
deriving DecidableEq

end Acpi
