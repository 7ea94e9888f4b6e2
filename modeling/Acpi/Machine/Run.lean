/-
# Running bodies

A body runs on a context and a machine.  Each request is carried out in turn,
and calls of other methods are made through the given caller.
-/

import Acpi.Context.Slots
import Acpi.Device.Search

namespace Acpi

variable {η ν α : Type}

open Machine

/-- Carries out a request of a body that runs on the context `ctx`. -/
def Request.perform (p : Platform η ν) (call : Caller η ν) (ctx : Context) :
    (r : Request ν) → MachineM η ν (r.Answer × Context)
  | .context => return (ctx, ctx)
  | .poke slot value => return ((), ← ctx.set slot value)
  | .store slot value => return ((), ← onWorld (ctx.store p.host slot value))
  | .copySlot target source => return ((), ← onWorld (ctx.copySlot p.host target source))
  | .space => return ((← get).space, ctx)
  | .addChild parent name object => do
    let m ← get
    let (id, grown) ← m.space.addChild parent name object
    set { m with space := grown }
    return (id, ctx)
  | .setObject node object => do
    let m ← get
    let changed ← m.space.setObject node object
    set { m with space := changed }
    return ((), ctx)
  | .host request => return (← onWorld (p.host.ask request), ctx)
  | .release value => return (← onWorld (value.release p.host), ctx)
  | .overwrite old source => return (← onWorld (old.overwrite p.host source), ctx)
  | .depth => return ((← get).depth, ctx)
  | .limit => return (p.maxCallDepth, ctx)
  | .evalMethod node args => return (← call node args, ctx)
  | .evalNode node => return (← call.evalNode p node, ctx)
  | .matchesId device id => return (← call.matchesId p device id, ctx)
  | .findDevices id => return (← call.findDevices p id, ctx)
  | .note line => return (← onWorld (World.write (.note line)), ctx)
  | .history => return ((← get).world.journal, ctx)

/-- Runs a body to its end; the answer is its result and its context then. -/
def Body.run (p : Platform η ν) (call : Caller η ν) :
    Body ν α → Context → MachineM η ν (Except Error α × Context)
  | .done result, ctx => return (.ok result, ctx)
  | .fail error, ctx => return (.error error, ctx)
  | .fault f, _ => throw f
  | .ask request next, ctx => do
    let (answer, ctx) ← request.perform p call ctx
    (next answer).run p call ctx

end Acpi
