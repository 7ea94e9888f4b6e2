/-
# What an evaluation can do

One lemma for each step of an evaluation says everything that a successful run
of the step can have done:

| step | lemma |
| --- | --- |
| evaluating a node | `Caller.evalNode_cases` |
| comparing one object of a device | `Caller.objectMatches_cases` |
| comparing a device | `Caller.matchesId_eq_ok` |
| comparing devices in turn | `Caller.keepMatching_nil_eq_ok`, `keepMatching_cons_eq_ok` |
| searching | `Caller.findDevices_eq_ok` |
| admitting a call | `Platform.permit_cases`, and with faults `permit_eq` |
| setting a context up | `Platform.enter_eq_ok` |
| handing a context back | `Platform.leave_cases` |
| running an admitted call | `Platform.invoke_eq_ok`, `invoke_of_enter_fault`, `invoke_of_run_fault` |
| a call | `Platform.callWithin_cases` |
| releasing a named value at shutdown | `Platform.releaseName_cases` |
| a request of a body | `Request.perform_eq_ok` |
| a body | `Body.run_done_eq_ok`, `run_fail_eq_ok`, `run_fault_eq_ok`, `run_ask_eq_ok` |

A refusal changes nothing but the journal, which may have got one record more.
-/

import Acpi.Machine.Eval
import Acpi.Machine.Shutdown
import Acpi.Proofs.Effect

namespace Acpi

variable {η ν : Type}

open Effect Machine

/-- The records that say why something was refused or given up. -/
def LogRecord.IsRefusal : LogRecord → Prop
  | depthReached .. | valueless .. | unidentified .. => True
  | enter .. | leave .. | released .. => False

/-- A refusal leaves the machine as it was, or with one record more. -/
def Machine.Refused (m m' : Machine η ν) : Prop :=
  m' = m ∨ ∃ record : LogRecord, record.IsRefusal ∧ m' = m.logged record

/-- An object that stands for a field unit. -/
def Object.IsUnit : Object → Prop
  | field _ | indexField _ => True
  | _ => False

namespace Caller

variable {p : Platform η ν} {call : Caller η ν} {m m' : Machine η ν}

/-- **What evaluating a node can do.**  It calls a method, or makes a value by
copying what the node holds or stands for, or refuses. -/
theorem evalNode_cases {node : NodeId} {r : Except Error Value}
    (h : call.evalNode p node m = .ok (r, m')) :
    call node [] m = .ok (r, m') ∨
      (∃ value v w, m.space.object node = .ok (.name value) ∧
        value.copy p.host m.world = .ok (v, w) ∧ r = .ok v ∧ m' = { m with world := w }) ∨
      (∃ object operand v w, m.space.object node = .ok object ∧ object.IsUnit ∧
        readUnit p operand m.world = .ok (v, w) ∧ r = .ok v ∧ m' = { m with world := w }) ∨
      ∃ e, r = .error e ∧ m.Refused m' := by
  simp only [evalNode, bind_eq_ok, onSpace_eq_ok] at h
  obtain ⟨object, t, ⟨hobject, rfl⟩, h⟩ := h
  cases object
  case method flags body =>
    dsimp only at h
    split at h
    · exact .inl h
    · obtain ⟨rfl, rfl⟩ := Prod.mk.inj (pure_eq_ok.1 h)
      exact .inr (.inr (.inr ⟨_, rfl, .inl rfl⟩))
  case name value =>
    simp only [map_eq_ok, onWorld_eq_ok] at h
    obtain ⟨v, ⟨w, hcopy, rfl⟩, rfl⟩ := h
    exact .inr (.inl ⟨value, v, w, hobject, hcopy, rfl, rfl⟩)
  case field fieldUnit =>
    simp only [map_eq_ok, onWorld_eq_ok] at h
    obtain ⟨v, ⟨w, hread, rfl⟩, rfl⟩ := h
    exact .inr (.inr (.inl ⟨_, _, v, w, hobject, trivial, hread, rfl, rfl⟩))
  case indexField fieldUnit =>
    simp only [map_eq_ok, onWorld_eq_ok] at h
    obtain ⟨v, ⟨w, hread, rfl⟩, rfl⟩ := h
    exact .inr (.inr (.inl ⟨_, _, v, w, hobject, trivial, hread, rfl, rfl⟩))
  all_goals
    simp only [bind_eq_ok, onSpace_eq_ok, log_eq_ok, pure_eq_ok, Prod.mk.injEq] at h
    obtain ⟨name, _, ⟨_, rfl⟩, _, _, ⟨_, rfl⟩, rfl, rfl⟩ := h
    exact .inr (.inr (.inr ⟨_, rfl, .inr ⟨.valueless .., trivial, rfl⟩⟩))

/-- **What comparing an object of a device can do.**  There is no such object,
or it is evaluated: its value is compared and released, an error is recorded. -/
theorem objectMatches_cases {device : NodeId} {name : String} {id : EisaId} {b : Bool}
    (h : call.objectMatches p device name id m = .ok (b, m')) :
    (b = false ∧ m' = m) ∨
      (∃ node v m₁ left w, call.evalNode p node m = .ok (.ok v, m₁) ∧
        v.release p.host m₁.world = .ok (left, w) ∧ b = v.identifies id ∧
        m' = { m₁ with world := w }) ∨
      ∃ node e m₁, ∃ record : LogRecord, call.evalNode p node m = .ok (.error e, m₁) ∧
        record.IsRefusal ∧ b = false ∧ m' = m₁.logged record := by
  simp only [objectMatches, bind_eq_ok, onSpace_eq_ok] at h
  obtain ⟨found, t, ⟨_, rfl⟩, h⟩ := h
  cases found with
  | none =>
    obtain ⟨rfl, rfl⟩ := Prod.mk.inj (pure_eq_ok.1 h)
    exact .inl ⟨rfl, rfl⟩
  | some node =>
    simp only [bind_eq_ok] at h
    obtain ⟨r, m₁, heval, h⟩ := h
    cases r with
    | ok v =>
      simp only [bind_eq_ok, onWorld_eq_ok, pure_eq_ok, Prod.mk.injEq] at h
      obtain ⟨left, _, ⟨w, hrelease, rfl⟩, rfl, rfl⟩ := h
      exact .inr (.inl ⟨node, v, _, left, w, heval, hrelease, rfl, rfl⟩)
    | error e =>
      simp only [bind_eq_ok, onSpace_eq_ok, log_eq_ok, pure_eq_ok, Prod.mk.injEq] at h
      obtain ⟨_, _, ⟨_, rfl⟩, _, _, ⟨_, rfl⟩, rfl, rfl⟩ := h
      exact .inr (.inr ⟨node, e, _, .unidentified .., heval, trivial, rfl, rfl⟩)

section Search

variable {id : EisaId} {device : NodeId} {devices found : List NodeId} {b : Bool}

/-- **What a device says.**  The second object is looked at if the first one says no. -/
theorem matchesId_eq_ok :
    call.matchesId p device id m = .ok (b, m') ↔
      (b = true ∧ call.objectMatches p device hardwareId id m = .ok (true, m')) ∨
        ∃ m₁, call.objectMatches p device hardwareId id m = .ok (false, m₁) ∧
          call.objectMatches p device compatibleId id m₁ = .ok (b, m') := by
  rw [matchesId, bind_eq_ok]
  constructor
  · rintro ⟨first, m₁, hfirst, h⟩
    cases first with
    | true =>
      obtain ⟨rfl, rfl⟩ := Prod.mk.inj (pure_eq_ok.1 h)
      exact .inl ⟨rfl, hfirst⟩
    | false => exact .inr ⟨m₁, hfirst, h⟩
  · rintro (⟨rfl, h⟩ | ⟨m₁, hfirst, h⟩)
    · exact ⟨true, m', h, pure_eq_ok.2 rfl⟩
    · exact ⟨false, m₁, hfirst, h⟩

theorem keepMatching_nil_eq_ok :
    call.keepMatching p id [] m = .ok (found, m') ↔ found = [] ∧ m' = m := by
  rw [keepMatching, pure_eq_ok, Prod.mk.injEq]

/-- The turn of the first device, and then those of the others. -/
theorem keepMatching_cons_eq_ok :
    call.keepMatching p id (device :: devices) m = .ok (found, m') ↔
      ∃ b m₁ others, call.matchesId p device id m = .ok (b, m₁) ∧
        call.keepMatching p id devices m₁ = .ok (others, m') ∧
        found = if b then device :: others else others := by
  simp only [keepMatching, bind_eq_ok, pure_eq_ok, Prod.mk.injEq]
  constructor
  · rintro ⟨b, m₁, hmatches, others, m₂, hrest, rfl, rfl⟩
    exact ⟨b, m₁, others, hmatches, hrest, rfl⟩
  · rintro ⟨b, m₁, others, hmatches, hrest, rfl⟩
    exact ⟨b, m₁, hmatches, others, m', hrest, rfl, rfl⟩

/-- **A search** is settled on the devices before the first of them has its turn. -/
theorem findDevices_eq_ok :
    call.findDevices p id m = .ok (found, m') ↔ ∃ nodes, m.space.walk = .ok nodes ∧
      call.keepMatching p id (nodes.filter m.space.isDevice) m = .ok (found, m') := by
  rw [findDevices, bind_eq_ok]
  simp only [onSpace_eq_ok]
  cases hwalk : m.space.walk with
  | error f => simp [Namespace.devices, hwalk, bind, Except.bind]
  | ok nodes =>
    have hdevices : m.space.devices = .ok (nodes.filter m.space.isDevice) := by
      rw [Namespace.devices, hwalk]
      rfl
    constructor
    · rintro ⟨devices, _, ⟨hd, rfl⟩, h⟩
      obtain rfl := Except.ok.inj (hdevices.symm.trans hd)
      exact ⟨nodes, rfl, h⟩
    · rintro ⟨_, hnodes, h⟩
      obtain rfl := Except.ok.inj hnodes
      exact ⟨_, m, ⟨hdevices, rfl⟩, h⟩

end Search

end Caller

namespace Platform

variable {p : Platform η ν} {call : Caller η ν} {m m' : Machine η ν} {node : NodeId}
  {args : List Value}

/-- **When a call is admitted.**  Either all three conditions hold and nothing
happens, or the call is refused. -/
theorem permit_cases {r : Except Error (MethodFlags × CodeRange)}
    (h : p.permit node args m = .ok (r, m')) :
    (∃ flags body, r = .ok (flags, body) ∧ m.space.object node = .ok (.method flags body) ∧
      args.length = flags.argCount.toNat ∧ m.depth < p.maxCallDepth.toNat ∧ m' = m) ∨
      ∃ e, r = .error e ∧ m.Refused m' := by
  simp only [permit, bind_eq_ok, onSpace_eq_ok] at h
  obtain ⟨object, t, ⟨hobject, rfl⟩, h⟩ := h
  cases object
  case method flags body =>
    dsimp only at h
    split at h
    · obtain ⟨rfl, rfl⟩ := Prod.mk.inj (pure_eq_ok.1 h)
      exact .inr ⟨_, rfl, .inl rfl⟩
    · rename_i hcount
      simp only [bind_eq_ok, get_eq_ok] at h
      obtain ⟨_, _, ⟨rfl, rfl⟩, h⟩ := h
      split at h
      · simp only [bind_eq_ok, onSpace_eq_ok, log_eq_ok, pure_eq_ok, Prod.mk.injEq] at h
        obtain ⟨_, _, ⟨_, rfl⟩, _, _, ⟨_, rfl⟩, rfl, rfl⟩ := h
        exact .inr ⟨_, rfl, .inr ⟨.depthReached .., trivial, rfl⟩⟩
      · rename_i hdepth
        obtain ⟨rfl, rfl⟩ := Prod.mk.inj (pure_eq_ok.1 h)
        exact .inl ⟨flags, body, rfl, hobject, Classical.not_not.1 hcount, Nat.not_le.1 hdepth,
          rfl⟩
  all_goals
    obtain ⟨rfl, rfl⟩ := Prod.mk.inj (pure_eq_ok.1 h)
    exact .inr ⟨_, rfl, .inl rfl⟩

/-- **What admitting a call comes to**, from the node that is to be called.  A handle of
no node is a fault, and nothing else is. -/
theorem permit_eq (p : Platform η ν) (node : NodeId) (args : List Value) (m : Machine η ν) :
    p.permit node args m = (m.space.node node).bind fun n => match n.object with
      | .method flags body =>
        if args.length ≠ flags.argCount.toNat then
          .ok (.error (.argCount flags.argCount args.length), m)
        else if p.maxCallDepth.toNat ≤ m.depth then
          .ok (.error (.callDepth p.maxCallDepth),
            m.logged (.depthReached p.maxCallDepth n.name))
        else .ok (.ok (flags, body), m)
      | _ => .ok (.error .wrongType, m) := by
  simp only [permit, bind_apply, onSpace_apply, Namespace.object]
  cases hnode : m.space.node node with
  | error f => rfl
  | ok n =>
    obtain ⟨name, object, _⟩ := n
    have hname : m.space.name node = .ok name := by rw [Namespace.name, hnode]; rfl
    cases object
    case method flags body =>
      simp only [Functor.map, Except.map, Except.bind, ne_eq, ite_not]
      split
      · simp only [bind_apply, get_apply, Except.bind]
        split
        · simp only [bind_apply, onSpace_apply, hname]
          rfl
        · rfl
      · rfl
    all_goals rfl

/-- A context is the host's, given its three fields and copies of the arguments. -/
theorem enter_eq_ok {flags : MethodFlags} {body : CodeRange} {w w' : World η ν} {ctx : Context} :
    p.enter node flags body args w = .ok (ctx, w') ↔
      ∃ given state, p.host .allocContext w.host = .ok (given, state) ∧
        Context.bindArgs p.host { given with argCount := flags.argCount, scope := node, body } 0
            args (w.called .allocContext state) = .ok (ctx, w') := by
  rw [enter, bind_eq_ok]
  constructor
  · rintro ⟨given, _, hask, h⟩
    obtain ⟨state, hstate, rfl⟩ := Host.ask_eq_ok.1 hask
    exact ⟨given, state, hstate, h⟩
  · rintro ⟨given, state, hstate, h⟩
    exact ⟨given, _, Host.ask_eq_ok.2 ⟨state, hstate, rfl⟩, h⟩

/-- **How a context is handed back.**  The value of a body that has ended is
copied out of it; in any case it is cleaned and given to the host. -/
theorem leave_cases {status : Except Error Unit} {ctx : Context} {w w' : World η ν}
    {r : Except Error Value} (h : p.leave status ctx w = .ok (r, w')) :
    ∃ w₁ cleaned w₂ state,
      ((status = .ok () ∧ ∃ held v, ctx.get .ret = .ok held ∧
          held.copy p.host w = .ok (v, w₁) ∧ r = .ok v) ∨
        ∃ e, status = .error e ∧ r = .error e ∧ w₁ = w) ∧
      ctx.clean p.host w₁ = .ok (cleaned, w₂) ∧
      p.host (.freeContext cleaned) w₂.host = .ok ((), state) ∧
      w' = w₂.called (.freeContext cleaned) state := by
  unfold leave at h
  cases status with
  | ok u =>
    simp only [bind_eq_ok, map_eq_ok, lift_eq_ok] at h
    obtain ⟨held, _, ⟨hret, rfl⟩, _, w₁, ⟨v, hcopy, rfl⟩, cleaned, w₂, hclean, _, _, hask, h⟩ := h
    obtain ⟨state, hstate, rfl⟩ := Host.ask_eq_ok.1 hask
    obtain ⟨rfl, rfl⟩ := Prod.mk.inj (pure_eq_ok.1 h)
    exact ⟨w₁, cleaned, w₂, state, .inl ⟨rfl, held, v, hret, hcopy, rfl⟩, hclean, hstate, rfl⟩
  | error e =>
    simp only [bind_eq_ok, pure_eq_ok] at h
    obtain ⟨_, _, ⟨rfl, rfl⟩, cleaned, w₂, hclean, _, _, hask, h⟩ := h
    obtain ⟨state, hstate, rfl⟩ := Host.ask_eq_ok.1 hask
    obtain ⟨rfl, rfl⟩ := Prod.mk.inj h
    exact ⟨w, cleaned, w₂, state, .inr ⟨e, rfl, rfl, rfl⟩, hclean, hstate, rfl⟩

/-- **What an admitted call does.**  The context is set up, the body runs one
level deeper, and the context is handed back, with a record before the body and
one after it. -/
theorem invoke_eq_ok {flags : MethodFlags} {body : CodeRange} {r : Except Error Value} :
    p.invoke call node flags body args m = .ok (r, m') ↔
      ∃ ctx w name status ctx' m₁ w₁ name',
        p.enter node flags body args m.world = .ok (ctx, w) ∧
        m.space.name node = .ok name ∧
        (p.executor ctx).run p call ctx
            ⟨m.space, w.add (.log (.enter name m.depth flags.argCount)), m.depth + 1⟩ =
          .ok ((status, ctx'), m₁) ∧
        p.leave status ctx' m₁.world = .ok (r, w₁) ∧
        m₁.space.name node = .ok name' ∧
        m' = ⟨m₁.space, w₁.add (.log (.leave name' (r.toOption.map Value.typeName))),
          m₁.depth - 1⟩ := by
  simp only [invoke, bind_eq_ok, onWorld_eq_ok, onSpace_eq_ok, get_eq_ok, log_eq_ok,
    modify_eq_ok, pure_eq_ok]
  constructor
  · rintro ⟨ctx, _, ⟨w, henter, rfl⟩, name, _, ⟨hname, rfl⟩, _, _, ⟨rfl, rfl⟩, _, _, ⟨_, rfl⟩,
      _, _, ⟨_, rfl⟩, ⟨status, ctx'⟩, m₁, hrun, _, _, ⟨_, rfl⟩, r, _, ⟨w₁, hleave, rfl⟩, name', _,
      ⟨hname', rfl⟩, _, _, ⟨_, rfl⟩, ⟨rfl, rfl⟩⟩
    exact ⟨ctx, w, name, status, ctx', m₁, w₁, name', henter, hname, hrun, hleave, hname', rfl⟩
  · rintro ⟨ctx, w, name, status, ctx', m₁, w₁, name', henter, hname, hrun, hleave, hname', rfl⟩
    exact ⟨ctx, _, ⟨w, henter, rfl⟩, name, _, ⟨hname, rfl⟩, _, _, rfl, _, _, rfl, _, _, rfl,
      (status, ctx'), m₁, hrun, _, _, rfl, r, _, ⟨w₁, hleave, rfl⟩, name', _, ⟨hname', rfl⟩,
      _, _, rfl, rfl⟩

section Faults

variable {flags : MethodFlags} {body : CodeRange} {f : Fault}

/-- Where no context can be set up, that is the end of it. -/
theorem invoke_of_enter_fault (h : p.enter node flags body args m.world = .error f) :
    p.invoke call node flags body args m = .error f := by
  refine bind_of_error ?_
  rw [onWorld_apply, h]
  rfl

/-- A fault of the body is one of the call. -/
theorem invoke_of_run_fault {ctx : Context} {w : World η ν} {name : Segment}
    (henter : p.enter node flags body args m.world = .ok (ctx, w))
    (hname : m.space.name node = .ok name)
    (hrun : (p.executor ctx).run p call ctx
      ⟨m.space, w.add (.log (.enter name m.depth flags.argCount)), m.depth + 1⟩ = .error f) :
    p.invoke call node flags body args m = .error f := by
  rw [invoke, bind_of_ok (onWorld_eq_ok.2 ⟨w, henter, rfl⟩),
    bind_of_ok (onSpace_eq_ok.2 ⟨hname, rfl⟩), bind_of_ok (get_eq_ok.2 rfl),
    bind_of_ok (log_eq_ok.2 rfl), bind_of_ok (modify_eq_ok.2 rfl)]
  exact bind_of_error hrun

end Faults

/-- **What a call can do.**  It is refused, or it is admitted and runs with one
level less to go. -/
theorem callWithin_cases {room : Nat} {r : Except Error Value}
    (h : p.callWithin room node args m = .ok (r, m')) :
    (∃ e, r = .error e ∧ m.Refused m') ∨
      ∃ below flags body, room = below + 1 ∧
        m.space.object node = .ok (.method flags body) ∧
        args.length = flags.argCount.toNat ∧ m.depth < p.maxCallDepth.toNat ∧
        p.invoke (p.callWithin below) node flags body args m = .ok (r, m') := by
  rw [callWithin.eq_def] at h
  simp only [bind_eq_ok] at h
  obtain ⟨admitted, t, hpermit, h⟩ := h
  rcases permit_cases hpermit with ⟨flags, body, rfl, hobject, hcount, hdepth, rfl⟩ |
    ⟨e, rfl, hrefused⟩
  · cases room with
    | zero =>
      obtain ⟨rfl, rfl⟩ := Prod.mk.inj (pure_eq_ok.1 h)
      exact .inl ⟨_, rfl, .inl rfl⟩
    | succ below => exact .inr ⟨below, flags, body, rfl, hobject, hcount, hdepth, h⟩
  · obtain ⟨rfl, rfl⟩ := Prod.mk.inj (pure_eq_ok.1 h)
    exact .inl ⟨e, rfl, hrefused⟩

/-- At shutdown a named value is released and the empty value put in its place;
other nodes are passed over. -/
theorem releaseName_cases {released : Bool} (h : p.releaseName node m = .ok (released, m')) :
    (released = true ∧ ∃ value left w space, m.space.object node = .ok (.name value) ∧
        value.release p.host m.world = .ok (left, w) ∧
        m.space.setObject node (.name left) = .ok space ∧ m' = ⟨space, w, m.depth⟩) ∨
      released = false ∧ m' = m := by
  simp only [releaseName, bind_eq_ok, onSpace_eq_ok] at h
  obtain ⟨object, _, ⟨hobject, rfl⟩, h⟩ := h
  cases object with
  | name value =>
    simp only [bind_eq_ok, onWorld_eq_ok, get_eq_ok, lift_eq_ok, set_eq_ok, pure_eq_ok,
      Prod.mk.injEq] at h
    obtain ⟨left, _, ⟨w, hrelease, rfl⟩, _, _, ⟨rfl, rfl⟩, space, _, ⟨hset, rfl⟩, _, _,
      ⟨-, rfl⟩, rfl, rfl⟩ := h
    exact .inl ⟨rfl, value, left, w, space, hobject, hrelease, hset, rfl⟩
  | _ =>
    obtain ⟨rfl, rfl⟩ := Prod.mk.inj (pure_eq_ok.1 h)
    exact .inr ⟨rfl, rfl⟩

end Platform

/-- What a request that has been carried out has done: the answer, the context
and the machine after it. -/
def Request.Done (p : Platform η ν) (call : Caller η ν) (ctx : Context) (m : Machine η ν) :
    (r : Request ν) → r.Answer → Context → Machine η ν → Prop
  | context, answer, ctx', m' => answer = ctx ∧ ctx' = ctx ∧ m' = m
  | poke slot v, _, ctx', m' => ctx.set slot v = .ok ctx' ∧ m' = m
  | store slot v, _, ctx', m' =>
    ∃ w, ctx.store p.host slot v m.world = .ok (ctx', w) ∧ m' = { m with world := w }
  | copySlot target source, _, ctx', m' =>
    ∃ w, ctx.copySlot p.host target source m.world = .ok (ctx', w) ∧ m' = { m with world := w }
  | space, answer, ctx', m' => answer = m.space ∧ ctx' = ctx ∧ m' = m
  | addChild parent name object, answer, ctx', m' =>
    ∃ grown, m.space.addChild parent name object = .ok (answer, grown) ∧ ctx' = ctx ∧
      m' = { m with space := grown }
  | setObject node object, _, ctx', m' =>
    ∃ changed, m.space.setObject node object = .ok changed ∧ ctx' = ctx ∧
      m' = { m with space := changed }
  | host request, answer, ctx', m' =>
    ∃ w, p.host.ask request m.world = .ok (answer, w) ∧ ctx' = ctx ∧ m' = { m with world := w }
  | release v, answer, ctx', m' =>
    ∃ w, v.release p.host m.world = .ok (answer, w) ∧ ctx' = ctx ∧ m' = { m with world := w }
  | overwrite old source, answer, ctx', m' =>
    ∃ w, old.overwrite p.host source m.world = .ok (answer, w) ∧ ctx' = ctx ∧
      m' = { m with world := w }
  | depth, answer, ctx', m' => answer = m.depth ∧ ctx' = ctx ∧ m' = m
  | limit, answer, ctx', m' => answer = p.maxCallDepth ∧ ctx' = ctx ∧ m' = m
  | evalMethod node args, answer, ctx', m' => call node args m = .ok (answer, m') ∧ ctx' = ctx
  | evalNode node, answer, ctx', m' => call.evalNode p node m = .ok (answer, m') ∧ ctx' = ctx
  | matchesId device id, answer, ctx', m' =>
    call.matchesId p device id m = .ok (answer, m') ∧ ctx' = ctx
  | findDevices id, answer, ctx', m' => call.findDevices p id m = .ok (answer, m') ∧ ctx' = ctx
  | note line, _, ctx', m' => ctx' = ctx ∧ m' = { m with world := m.world.add (.note line) }
  | history, answer, ctx', m' => answer = m.world.journal ∧ ctx' = ctx ∧ m' = m

/-- **What a request can do**, for each kind of request. -/
theorem Request.perform_eq_ok {p : Platform η ν} {call : Caller η ν} {ctx ctx' : Context}
    {m m' : Machine η ν} {r : Request ν} {answer : r.Answer} :
    r.perform p call ctx m = .ok ((answer, ctx'), m') ↔ r.Done p call ctx m answer ctx' m' := by
  cases r <;>
    simp only [perform, Done, bind_eq_ok, onWorld_eq_ok, get_eq_ok, set_eq_ok, lift_eq_ok,
      World.write_eq_ok, pure_eq_ok, Prod.mk.injEq] <;>
    grind

namespace Body

variable {α : Type} {p : Platform η ν} {call : Caller η ν} {ctx ctx' : Context}
  {m m' : Machine η ν} {status : Except Error α}

@[simp] theorem run_done_eq_ok {result : α} :
    (done result : Body ν α).run p call ctx m = .ok ((status, ctx'), m') ↔
      status = .ok result ∧ ctx' = ctx ∧ m' = m := by
  simp only [run, pure_eq_ok, Prod.mk.injEq, and_assoc]

@[simp] theorem run_fail_eq_ok {e : Error} :
    (fail e : Body ν α).run p call ctx m = .ok ((status, ctx'), m') ↔
      status = .error e ∧ ctx' = ctx ∧ m' = m := by
  simp only [run, pure_eq_ok, Prod.mk.injEq, and_assoc]

@[simp] theorem run_fault_eq_ok {f : Fault} {r : (Except Error α × Context) × Machine η ν} :
    ¬(fault f : Body ν α).run p call ctx m = .ok r :=
  throw_eq_ok

/-- A body goes on where its first request has left off. -/
theorem run_ask_eq_ok {request : Request ν} {next : request.Answer → Body ν α} :
    (ask request next).run p call ctx m = .ok ((status, ctx'), m') ↔
      ∃ answer ctx₁ m₁, request.perform p call ctx m = .ok ((answer, ctx₁), m₁) ∧
        (next answer).run p call ctx₁ m₁ = .ok ((status, ctx'), m') := by
  simp only [run, bind_eq_ok, Prod.exists]

end Body
end Acpi
