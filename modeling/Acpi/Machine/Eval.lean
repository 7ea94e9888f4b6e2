/-
# Calling methods

A call is admitted if the node holds a method, the number of arguments is the
one that the method declares, and fewer calls are in progress than the limit
allows; the first of these that fails decides the error.  An admitted call
runs the method's body on a context of the host, one level deeper:

1. the context is set up for the method and the arguments are copied into it;
2. the body runs;
3. its return value is copied out, unless the body failed;
4. every slot is released and the context goes back to the host.

Calls made by the body are calls of the same kind.  Each of them is one level
deeper, so the levels left below the limit decrease, and the whole evaluation
ends.
-/

import Acpi.Machine.Run

namespace Acpi
namespace Platform

variable {η ν : Type}

open Machine

/-- Decides whether the method at a node may be called with arguments. -/
def permit (p : Platform η ν) (node : NodeId) (args : List Value) :
    MachineM η ν (Except Error (MethodFlags × CodeRange)) := do
  match ← onSpace (·.object node) with
  | .method flags body =>
    if args.length ≠ flags.argCount.toNat then
      return .error (.argCount flags.argCount args.length)
    if p.maxCallDepth.toNat ≤ (← get).depth then
      log (.depthReached p.maxCallDepth (← onSpace (·.name node)))
      return .error (.callDepth p.maxCallDepth)
    return .ok (flags, body)
  | _ => return .error .wrongType

/-- A context of the host, set up for a method and its arguments. -/
def enter (p : Platform η ν) (node : NodeId) (flags : MethodFlags) (body : CodeRange)
    (args : List Value) : WorldM η ν Context := do
  let ctx ← p.host.ask .allocContext
  { ctx with argCount := flags.argCount, scope := node, body }.bindArgs p.host 0 args

/-- Takes the value out of a context whose body has ended and hands the context
back. -/
def leave (p : Platform η ν) (status : Except Error Unit) (ctx : Context) :
    WorldM η ν (Except Error Value) := do
  let result ← match status with
    | .ok () => .ok <$> (← ctx.get .ret).copy p.host
    | .error error => pure (.error error)
  p.host.ask (.freeContext (← ctx.clean p.host))
  return result

/-- Runs an admitted method, whose body calls others through `call`. -/
def invoke (p : Platform η ν) (call : Caller η ν) (node : NodeId) (flags : MethodFlags)
    (body : CodeRange) (args : List Value) : MachineM η ν (Except Error Value) := do
  let ctx ← onWorld (p.enter node flags body args)
  log (.enter (← onSpace (·.name node)) (← get).depth flags.argCount)
  modify fun m => { m with depth := m.depth + 1 }
  let (status, ctx) ← (p.executor ctx).run p call ctx
  modify fun m => { m with depth := m.depth - 1 }
  let result ← onWorld (p.leave status ctx)
  log (.leave (← onSpace (·.name node)) (result.toOption.map Value.typeName))
  return result

/-- Calls a method when `room` further levels may be entered. -/
def callWithin (p : Platform η ν) : Nat → Caller η ν
  | room, node, args => do
    match ← p.permit node args with
    | .error error => return .error error
    | .ok (flags, body) =>
      match room with
      | 0 => return .error (.callDepth p.maxCallDepth)
      | room + 1 => p.invoke (p.callWithin room) node flags body args

/-- The caller for a machine at its present depth. -/
def caller (p : Platform η ν) : Caller η ν := fun node args => do
  p.callWithin (p.maxCallDepth.toNat - (← get).depth) node args

/-- Calls the method at a node.  The arguments stay with whoever calls; the
value is the caller's to release. -/
def evalMethod (p : Platform η ν) (node : NodeId) (args : List Value) :
    MachineM η ν (Except Error Value) :=
  p.caller node args

/-- The value of a node, which is the caller's to release. -/
def evalNode (p : Platform η ν) (node : NodeId) : MachineM η ν (Except Error Value) :=
  p.caller.evalNode p node

/-- Whether a device goes by an identifier. -/
def matchesId (p : Platform η ν) (device : NodeId) (id : EisaId) : MachineM η ν Bool :=
  p.caller.matchesId p device id

/-- The devices that go by an identifier, in preorder. -/
def findDevices (p : Platform η ν) (id : EisaId) : MachineM η ν (List NodeId) :=
  p.caller.findDevices p id

end Platform
end Acpi
