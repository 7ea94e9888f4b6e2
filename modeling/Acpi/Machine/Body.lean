/-
# Method bodies

The interpreter does not read method code itself.  What a body does is given as
a tree of requests: each node asks the interpreter for one thing and goes on as
the answer says, until the body ends, fails with an error, or breaks a
contract.

Besides its own context a body can reach the namespace, the host, and the
interpreter, which it may ask to evaluate other methods and nodes.  It may also
leave notes of type `ν` in the journal and read what is written there, so that
bodies can carry a state of their own from one run to the next.

A body works with what it finds.  It fills slots, adds nodes, replaces objects and
calls the host, but there is no request to put another context, another namespace
or another host in the place of the one there is, to choose another root, or to
change what the host holds in any other way than by a call.  A statement about
every tree is a statement about every method that keeps to this.
-/

import Acpi.Device.EisaId
import Acpi.Host.Journal
import Acpi.Namespace.Basic

namespace Acpi

/-- What a body can ask for. -/
inductive Request (ν : Type)
  /-- The context as it is now. -/
  | context
  /-- Overwriting a slot; what it held is dropped without a call to the host. -/
  | poke (slot : Slot) (value : Value)
  /-- Putting a value into a slot. -/
  | store (slot : Slot) (value : Value)
  /-- Copying one slot into another. -/
  | copySlot (target source : Slot)
  /-- The namespace as it is now. -/
  | space
  /-- Adding a node. -/
  | addChild (parent : NodeId) (name : Segment) (object : Object)
  /-- Replacing the object of a node. -/
  | setObject (node : NodeId) (object : Object)
  /-- A call to the host. -/
  | host (call : HostCall)
  /-- Releasing a value. -/
  | release (value : Value)
  /-- Releasing the value `old` and copying `source` in its place. -/
  | overwrite (old source : Value)
  /-- The number of method calls in progress. -/
  | depth
  /-- The limit on that number. -/
  | limit
  /-- Calling a method. -/
  | evalMethod (node : NodeId) (args : List Value)
  /-- Evaluating a node. -/
  | evalNode (node : NodeId)
  /-- Whether a device goes by an identifier. -/
  | matchesId (device : NodeId) (id : EisaId)
  /-- The devices that go by an identifier. -/
  | findDevices (id : EisaId)
  /-- Leaving a note in the journal. -/
  | note (note : ν)
  /-- The journal so far. -/
  | history

/-- What the interpreter answers to a request. -/
abbrev Request.Answer {ν : Type} : Request ν → Type
  | context => Context
  | space => Namespace
  | addChild .. => NodeId
  | host call => call.Answer
  | release _ | overwrite _ _ => Value
  | depth => Nat
  | limit => UInt64
  | evalMethod .. | evalNode _ => Except Error Value
  | matchesId .. => Bool
  | findDevices _ => List NodeId
  | history => Array (Entry ν)
  | poke .. | store .. | copySlot .. | setObject .. | note _ => Unit

/-- A body that leaves notes of type `ν` and ends with an `α`. -/
inductive Body (ν α : Type)
  | done (result : α)
  | fail (error : Error)
  | fault (fault : Fault)
  | ask (request : Request ν) (next : request.Answer → Body ν α)

namespace Body

variable {ν α β : Type}

/-- One body after another, where the first one's result decides on the second. -/
def andThen (body : Body ν α) (next : α → Body ν β) : Body ν β :=
  match body with
  | done result => next result
  | fail error => fail error
  | fault f => fault f
  | ask request k => ask request fun answer => (k answer).andThen next

instance : Monad (Body ν) where
  pure := done
  bind := andThen

/-- The body that makes one request and ends with its answer. -/
def request (r : Request ν) : Body ν r.Answer := ask r done

/-- What either gives a result or breaks a contract, as a body. -/
def ofExcept : Except Fault α → Body ν α
  | .ok result => done result
  | .error f => fault f

end Body
end Acpi
