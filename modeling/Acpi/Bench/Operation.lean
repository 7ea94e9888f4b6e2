/-
# Operations of a bench

A bench drives one interpreter by operations.  Values that are at hand between
operations are kept in eight registers.
-/

import Acpi.Host.Call
import Acpi.Name.Path
import Acpi.Namespace.Basic
import Acpi.Script.Statement

namespace Acpi

/-- The number of a register. -/
abbrev Register : Type := Fin 8

/-- What a bench can be told to do, where its host takes settings of type `κ`. -/
inductive Operation (κ : Type)
  /-- Nothing. -/
  | pass
  /-- Adding a node. -/
  | add (parent : NodeId) (name : List UInt8) (object : Object)
  /-- Replacing the object of a node. -/
  | put (node : NodeId) (object : Object)
  /-- A node with its links. -/
  | get (node : NodeId)
  /-- All nodes of the arena with their links. -/
  | dump
  /-- The size of the namespace. -/
  | size
  /-- Rooting the namespace at a node. -/
  | reroot (node : NodeId)
  /-- The earliest child of a name. -/
  | childNamed (node : NodeId) (name : List UInt8)
  /-- Descending from a node by segments. -/
  | descend (node : NodeId) (value : List UInt8)
  /-- Searching a node and its scopes. -/
  | search (node : NodeId) (value : List UInt8)
  /-- Finding the node of a path. -/
  | find (node : NodeId) (path : Path)
  /-- Resolving a textual path by its names alone. -/
  | resolveChild (node : NodeId) (text : String)
  /-- Resolving a textual path in enclosing scopes. -/
  | resolveSearch (node : NodeId) (text : String)
  /-- Resolving a textual path with its markers. -/
  | resolvePath (node : NodeId) (text : String)
  /-- The node after a cursor. -/
  | successor (cursor : Option NodeId) (descend : Bool)
  /-- A whole walk. -/
  | walk
  /-- The first answers of a walk. -/
  | walkTake (count : Nat)
  /-- Calling a method. -/
  | evalMethod (node : NodeId) (args : List Value) (keep : Option Register)
  /-- Evaluating a node. -/
  | evalNode (node : NodeId) (keep : Option Register)
  /-- Whether a device goes by an identifier. -/
  | matchesId (device : NodeId) (id : EisaId)
  /-- The devices that go by an identifier. -/
  | findDevices (id : EisaId)
  /-- Copying a value into a register. -/
  | copy (target : Register) (value : Value)
  /-- Copying one register into another. -/
  | copyRegister (target source : Register)
  /-- Overwriting a register and dropping what it held. -/
  | setRegister (target : Register) (value : Value)
  /-- Overwriting an element of the package in a register. -/
  | pokeElement (target : Register) (position : Nat) (value : Value)
  /-- Overwriting a byte of the buffer in a register. -/
  | pokeByte (target : Register) (position : Nat) (byte : UInt8)
  /-- Releasing what a register holds. -/
  | release (target : Register)
  /-- What the registers hold. -/
  | registers
  /-- Running statements on a fresh context that is not the host's. -/
  | context (script : List Statement)
  /-- Shutting the interpreter down, and starting another one over what is left
  of the namespace. -/
  | shutdown (limit : UInt64)
  /-- The state of the interpreter. -/
  | status
  /-- A call to the host. -/
  | host (call : HostCall)
  /-- A setting of the host. -/
  | adjust (setting : κ)
  /-- The object of a node. -/
  | object (node : NodeId)

/-- What a bench answers to an operation. -/
inductive Outcome
  | nothing
  | node (id : NodeId)
  | node? (id : Option NodeId)
  | nodes (ids : List NodeId)
  | nodes? (ids : List (Option NodeId))
  | truth (b : Bool)
  | value (value : Value)
  | values (values : List Value)
  | size (count : Nat) (isEmpty : Bool)
  | links (node : Node)
  | table (nodes : List Node)
  | object (object : Object)
  /-- Whether a statement ended the script, and the return value. -/
  | ended (byStatement : Bool) (value : Value)
  | status (depth : Nat) (limit : UInt64) (dirty : Bool)
deriving DecidableEq

end Acpi
