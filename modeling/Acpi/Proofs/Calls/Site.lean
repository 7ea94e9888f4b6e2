/-
# What a context is for

The number of arguments, the scope and the place of the code say which call a
context belongs to.  They are set when the call begins; nothing that a body can
do, and neither the binding of arguments nor the final cleaning, changes them.
-/

import Acpi.Proofs.Evaluation
import Acpi.Proofs.Storage.Transfer

namespace Acpi

variable {η ν α : Type}

namespace Context

variable {host : Host η} {w w' : World η ν} {ctx ctx' : Context} {slot : Slot} {v : Value}

/-- The call that a context belongs to. -/
def site (ctx : Context) : UInt8 × NodeId × CodeRange := (ctx.argCount, ctx.scope, ctx.body)

theorem site_set (h : ctx.set slot v = .ok ctx') : ctx'.site = ctx.site := by
  unfold set at h
  split at h
  · obtain rfl := Except.ok.inj h
    rfl
  · cases h

theorem site_store (h : ctx.store host slot v w = .ok (ctx', w')) : ctx'.site = ctx.site := by
  obtain ⟨_, _, -, -, hset⟩ := store_eq_ok.1 h
  exact site_set hset

theorem site_copyInto (h : ctx.copyInto host slot v w = .ok (ctx', w')) :
    ctx'.site = ctx.site := by
  obtain ⟨_, _, -, -, hset⟩ := copyInto_eq_ok.1 h
  exact site_set hset

theorem site_copySlot {source : Slot} (h : ctx.copySlot host slot source w = .ok (ctx', w')) :
    ctx'.site = ctx.site := by
  rcases copySlot_eq_ok.1 h with ⟨-, rfl, -⟩ | ⟨-, _, -, hcopy⟩
  · rfl
  · exact site_copyInto hcopy

theorem site_bindArgs {first : Nat} {args : List Value}
    (h : ctx.bindArgs host first args w = .ok (ctx', w')) : ctx'.site = ctx.site := by
  induction args generalizing ctx w first with
  | nil =>
    obtain ⟨rfl, -⟩ := Prod.mk.inj (Effect.pure_eq_ok.1 (by simpa only [bindArgs] using h))
    rfl
  | cons arg rest ih =>
    obtain ⟨ctx₁, w₁, hcopy, hrest⟩ := bindArgs_cons_eq_ok.1 h
    exact (ih hrest).trans (site_copyInto hcopy)

theorem site_clean (h : ctx.clean host w = .ok (ctx', w')) : ctx'.site = ctx.site := by
  rw [(clean_eq_ok.1 h).1]
  rfl

end Context

variable {p : Platform η ν} {call : Caller η ν} {ctx ctx' : Context} {m m' : Machine η ν}

theorem Platform.site_enter {node : NodeId} {flags : MethodFlags} {body : CodeRange}
    {args : List Value} {w w' : World η ν}
    (h : p.enter node flags body args w = .ok (ctx, w')) :
    ctx.site = (flags.argCount, node, body) := by
  obtain ⟨given, state, -, hbind⟩ := enter_eq_ok.1 h
  exact Context.site_bindArgs hbind

theorem Request.site_perform {r : Request ν} {answer : r.Answer}
    (h : r.perform p call ctx m = .ok ((answer, ctx'), m')) : ctx'.site = ctx.site := by
  replace h := perform_eq_ok.1 h
  cases r with
  | poke => exact Context.site_set h.1
  | store =>
    obtain ⟨_, hstore, -⟩ := h
    exact Context.site_store hstore
  | copySlot =>
    obtain ⟨_, hcopy, -⟩ := h
    exact Context.site_copySlot hcopy
  | context | space | depth | limit | history => rw [h.2.1]
  | note => rw [h.1]
  | addChild | setObject | host | release | overwrite =>
    obtain ⟨_, -, rfl, -⟩ := h
    rfl
  | evalMethod | evalNode | matchesId | findDevices => rw [h.2]

/-- **A body cannot change which call its context belongs to.** -/
theorem Body.site_run {body : Body ν α} {status : Except Error α}
    (h : body.run p call ctx m = .ok ((status, ctx'), m')) : ctx'.site = ctx.site := by
  induction body generalizing ctx m with
  | done result => rw [(run_done_eq_ok.1 h).2.1]
  | fail e => rw [(run_fail_eq_ok.1 h).2.1]
  | fault f => exact absurd h run_fault_eq_ok
  | ask r next ih =>
    obtain ⟨answer, ctx₁, m₁, hperform, hrest⟩ := run_ask_eq_ok.1 h
    exact (ih answer hrest).trans (Request.site_perform hperform)

end Acpi
