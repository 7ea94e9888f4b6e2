/-
# Finding devices

A device says what it is by the values of its objects `_HID` and `_CID`.  An
integer identifies the device with the same stored word, a text of seven bytes
with the word that it encodes, and a package with everything that one of its
elements identifies.

A device goes by an identifier if its `_HID` or else its `_CID` says so.  One
that is missing or cannot be evaluated says nothing.
-/

import Acpi.Machine.Caller
import Acpi.Namespace.Lookup
import Acpi.Namespace.Walk

namespace Acpi
namespace Value

mutual

/-- Whether a value identifies `id`. -/
def identifies (id : EisaId) : Value → Bool
  | integer n => n.toNat == id.raw.toNat
  | string text =>
    (Text.utf8 text).length == EisaId.textLength && EisaId.encode text == id
  | package elements => identifiesAny id elements
  | null | buffer _ | bufferField _ => false

/-- Whether one of the values identifies `id`. -/
def identifiesAny (id : EisaId) : List Value → Bool
  | [] => false
  | v :: vs => identifies id v || identifiesAny id vs

end

end Value

/-- The name of the object that holds a device's own identifier. -/
def hardwareId : String := "_HID"

/-- The name of the object that holds the identifiers of compatible devices. -/
def compatibleId : String := "_CID"

namespace Caller

variable {η ν : Type}

open Machine

/-- Whether the object of the given name below a device identifies `id`. -/
def objectMatches (p : Platform η ν) (call : Caller η ν) (device : NodeId) (name : String)
    (id : EisaId) : MachineM η ν Bool := do
  match ← onSpace (·.resolveChild device name) with
  | none => return false
  | some node =>
    match ← call.evalNode p node with
    | .ok value =>
      let matched := value.identifies id
      let _empty ← onWorld (value.release p.host)
      return matched
    | .error error =>
      log (.unidentified name (← onSpace (·.name device)) error)
      return false

/-- Whether a device goes by `id`. -/
def matchesId (p : Platform η ν) (call : Caller η ν) (device : NodeId) (id : EisaId) :
    MachineM η ν Bool := do
  if ← call.objectMatches p device hardwareId id then return true
  call.objectMatches p device compatibleId id

/-- Those of the devices, in order, that go by `id`. -/
def keepMatching (p : Platform η ν) (call : Caller η ν) (id : EisaId) :
    List NodeId → MachineM η ν (List NodeId)
  | [] => return []
  | device :: rest => do
    let matched ← call.matchesId p device id
    let others ← keepMatching p call id rest
    return if matched then device :: others else others

end Caller

/-- Whether a node is there and is a device. -/
def Namespace.isDevice (ns : Namespace) (id : NodeId) : Bool :=
  match ns.nodes[id.index]? with
  | some n => n.object = .device
  | none => false

/-- The devices below the root, in preorder. -/
def Namespace.devices (ns : Namespace) : Except Fault (List NodeId) := do
  return (← ns.walk).filter ns.isDevice

/-- The devices that go by `id`, in preorder.  Which nodes are devices is
settled before the first of them is evaluated. -/
def Caller.findDevices {η ν : Type} (p : Platform η ν) (call : Caller η ν) (id : EisaId) :
    MachineM η ν (List NodeId) := do
  call.keepMatching p id (← Machine.onSpace (·.devices))

end Acpi
