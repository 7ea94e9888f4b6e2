/-
# Refusals

Before a body runs, a call is admitted or refused, and a refusal comes before anything
has been done: the namespace, the depth and the host are as they were, and no call has
been made to the host (`Machine.Untouched`).  The first of three conditions that does not
hold decides the error (`Platform.Refuses`):

| condition | error |
| --- | --- |
| the node holds a method | `wrongType` |
| as many arguments as the method declares | `argCount` |
| fewer calls in progress than the limit allows | `callDepth` |

Whether a body runs is told by putting bodies in its place that do nothing but sound an
alarm: a body runs if the alarm is always heard (`Platform.RunsBody`).  What is the same
with all bodies runs none (`Platform.not_runsBody`).

Evaluating a node that holds a method is calling it without arguments.  At other nodes no
body runs, and where there is no value, that is refused in the same way.
-/

import Acpi.Proofs.Calls.Boundary
import Acpi.Proofs.Calls.Reentry
import Acpi.Proofs.Devices.Ending

namespace Acpi

variable {η ν : Type}

open Effect Machine

/-- Nothing has happened, but that a refusal may have been recorded. -/
structure Machine.Untouched (m m' : Machine η ν) : Prop where
  space : m'.space = m.space
  depth : m'.depth = m.depth
  host : m'.world.host = m.world.host
  journal : m.world.Grows (fun e => ∃ record : LogRecord, record.IsRefusal ∧ e = .log record)
    m'.world

theorem Machine.Refused.untouched {m m' : Machine η ν} (h : m.Refused m') : m.Untouched m' := by
  rcases h with rfl | ⟨record, hrefusal, rfl⟩
  · exact ⟨rfl, rfl, rfl, .refl _⟩
  · exact ⟨rfl, rfl, rfl, .add _ ⟨record, hrefusal, rfl⟩⟩

namespace Object

/-- An object that is a method. -/
def IsMethod : Object → Prop
  | method .. => True
  | _ => False

/-- An object that stands for a value: a named value or a unit of a field. -/
def HasValue : Object → Prop
  | name _ | field _ | indexField _ => True
  | _ => False

end Object

namespace Platform

/-- A call for which all three conditions hold. -/
structure Admits (p : Platform η ν) (node : NodeId) (args : List Value) (m : Machine η ν)
    (flags : MethodFlags) (body : CodeRange) : Prop where
  object : m.space.object node = .ok (.method flags body)
  count : args.length = flags.argCount.toNat
  depth : m.depth < p.maxCallDepth.toNat

/-- A call that is refused with an error, and the machine after it. -/
inductive Refuses (p : Platform η ν) (node : NodeId) (args : List Value) (m : Machine η ν) :
    Error → Machine η ν → Prop
  | wrongType {object} : m.space.object node = .ok object → ¬object.IsMethod →
      Refuses p node args m .wrongType m
  | argCount {flags body} : m.space.object node = .ok (.method flags body) →
      args.length ≠ flags.argCount.toNat →
      Refuses p node args m (.argCount flags.argCount args.length) m
  | callDepth {flags body name} : m.space.object node = .ok (.method flags body) →
      args.length = flags.argCount.toNat → p.maxCallDepth.toNat ≤ m.depth →
      m.space.name node = .ok name →
      Refuses p node args m (.callDepth p.maxCallDepth)
        (m.logged (.depthReached p.maxCallDepth name))

/-- An evaluation in which a body runs.  With bodies that do nothing but sound an alarm,
it ends in that alarm. -/
def RunsBody (p : Platform η ν) (e : Evaluation) (m : Machine η ν) : Prop :=
  ∀ alarm : Fault, { p with executor := fun _ => .fault alarm }.evaluate e m = .error alarm

variable {p : Platform η ν} {node : NodeId} {args : List Value} {m m' : Machine η ν}
  {flags : MethodFlags} {body : CodeRange} {e : Error}

/-- What is the same with all bodies runs none of them. -/
theorem not_runsBody {evaluation : Evaluation}
    {x : Except Fault (Except Error Value × Machine η ν)}
    (h : ∀ executor, { p with executor }.evaluate evaluation m = x) :
    ¬p.RunsBody evaluation m := fun hruns =>
  -- the run does not end in two alarms
  nomatch (hruns .endless).symm.trans ((h _).trans ((h _).symm.trans (hruns .noSuchSlot)))

theorem Refuses.untouched (h : p.Refuses node args m e m') : m.Untouched m' := by
  cases h with
  | wrongType | argCount => exact Refused.untouched (.inl rfl)
  | callDepth => exact Refused.untouched (.inr ⟨.depthReached .., trivial, rfl⟩)

/-- Where there is a node, a call is admitted or refused. -/
theorem admits_or_refuses (p : Platform η ν) (args : List Value) {object : Object}
    (hobject : m.space.object node = .ok object) :
    (∃ flags body, p.Admits node args m flags body) ∨ ∃ e m', p.Refuses node args m e m' := by
  obtain ⟨name, hname⟩ := Namespace.exists_name_of_object hobject
  cases object with
  | method flags body =>
    by_cases hcount : args.length = flags.argCount.toNat
    · rcases Nat.lt_or_ge m.depth p.maxCallDepth.toNat with hdepth | hdepth
      · exact .inl ⟨flags, body, hobject, hcount, hdepth⟩
      · exact .inr ⟨_, _, .callDepth hobject hcount hdepth hname⟩
    · exact .inr ⟨_, _, .argCount hobject hcount⟩
  | _ => exact .inr ⟨_, _, .wrongType hobject id⟩

theorem permit_of_admits (h : p.Admits node args m flags body) :
    p.permit node args m = .ok (.ok (flags, body), m) := by
  obtain ⟨n, hn, hobject⟩ := Namespace.node_of_object h.object
  rw [permit_eq, hn]
  simp only [Except.bind, hobject, h.count, Nat.not_le.2 h.depth, ne_eq, not_true, if_false]

theorem permit_of_refuses (h : p.Refuses node args m e m') :
    p.permit node args m = .ok (.error e, m') := by
  cases h with
  | wrongType hobject hmethod =>
    obtain ⟨n, hn, rfl⟩ := Namespace.node_of_object hobject
    rw [permit_eq, hn]
    cases hn' : n.object with
    | method => exact absurd (hn' ▸ trivial) hmethod
    | _ => simp only [Except.bind, hn']
  | argCount hobject hcount =>
    obtain ⟨n, hn, hobject⟩ := Namespace.node_of_object hobject
    rw [permit_eq, hn]
    simp only [Except.bind, hobject, if_pos hcount]
  | callDepth hobject hcount hdepth hname =>
    obtain ⟨n, hn, hobject⟩ := Namespace.node_of_object hobject
    rw [Namespace.name, hn] at hname
    obtain rfl := Except.ok.inj hname
    rw [permit_eq, hn]
    simp only [Except.bind, hobject, hcount, hdepth, ne_eq, not_true, if_false, if_true]

/-- **A call that is admitted** runs the method. -/
theorem Admits.evalMethod_eq (h : p.Admits node args m flags body) :
    p.evalMethod node args m = p.invoke p.evalMethod node flags body args m := by
  rw [p.evalMethod_eq, bind_of_ok (permit_of_admits h)]

/-- **A call that is refused** ends there. -/
theorem Refuses.evalMethod_eq (h : p.Refuses node args m e m') :
    p.evalMethod node args m = .ok (.error e, m') := by
  rw [p.evalMethod_eq, bind_of_ok (permit_of_refuses h)]
  rfl

/-- A handle of no node is a fault. -/
theorem evalMethod_of_missing {f : Fault} (h : m.space.object node = .error f) :
    p.evalMethod node args m = .error f := by
  rw [p.evalMethod_eq, bind_apply, permit_eq]
  cases hn : m.space.node node with
  | error f' =>
    rw [Namespace.object, hn] at h
    obtain rfl := Except.error.inj h
    rfl
  | ok n =>
    rw [Namespace.object, hn] at h
    cases h

/-- Bodies have no say in it. -/
theorem Refuses.withExecutor (h : p.Refuses node args m e m')
    (executor : Context → Body ν Unit) : { p with executor }.Refuses node args m e m' := by
  cases h with
  | wrongType hobject hmethod => exact .wrongType hobject hmethod
  | argCount hobject hcount => exact .argCount hobject hcount
  | callDepth hobject hcount hdepth hname =>
    exact .callDepth (p := { p with executor }) hobject hcount hdepth hname

/-- **An alarm is heard** in an admitted call as soon as its context is set up. -/
theorem Admits.evaluate_alarm (h : p.Admits node args m flags body) (alarm : Fault) :
    { p with executor := fun _ => .fault alarm }.evaluate (.method node args) m =
      (p.enter node flags body args m.world).bind fun _ => .error alarm := by
  have hadmits : { p with executor := fun _ => .fault alarm }.Admits node args m flags body :=
    ⟨h.object, h.count, h.depth⟩
  obtain ⟨name, hname⟩ := Namespace.exists_name_of_object h.object
  rw [evaluate, hadmits.evalMethod_eq]
  cases henter : p.enter node flags body args m.world with
  | error f => exact invoke_of_enter_fault henter
  | ok r => exact invoke_of_run_fault henter hname rfl

/-- **When a body runs** in a call: when it is admitted, and a context is set up for it. -/
theorem runsBody_method_iff : p.RunsBody (.method node args) m ↔
    ∃ flags body ctx w, p.Admits node args m flags body ∧
      p.enter node flags body args m.world = .ok (ctx, w) := by
  constructor
  · intro hruns
    cases hobject : m.space.object node with
    | error f =>
      exact absurd hruns (not_runsBody fun executor =>
        evalMethod_of_missing (p := { p with executor }) hobject)
    | ok object =>
      rcases admits_or_refuses p args hobject with ⟨flags, body, hadmits⟩ | ⟨e, m', hrefuses⟩
      · cases henter : p.enter node flags body args m.world with
        | ok r => exact ⟨flags, body, r.1, r.2, hadmits, henter⟩
        | error f =>
          have hheard (alarm : Fault) : alarm = f := by
            have halarm := hadmits.evaluate_alarm alarm
            rw [hruns alarm, henter] at halarm
            exact Except.error.inj halarm
          exact nomatch (hheard .endless).trans (hheard .noSuchSlot).symm
      · exact absurd hruns (not_runsBody fun executor =>
          (hrefuses.withExecutor executor).evalMethod_eq)
  · rintro ⟨flags, body, ctx, w, hadmits, henter⟩ alarm
    rw [hadmits.evaluate_alarm, henter]
    rfl

/-- A host that refuses only what it may refuse sets up the context of an admitted call. -/
theorem runsBody_method_iff_admits (willing : p.host.Willing) :
    p.RunsBody (.method node args) m ↔ ∃ flags body, p.Admits node args m flags body := by
  rw [runsBody_method_iff]
  constructor
  · rintro ⟨flags, body, -, -, hadmits, -⟩
    exact ⟨flags, body, hadmits⟩
  · rintro ⟨flags, body, hadmits⟩
    obtain ⟨ctx, w, henter⟩ := willing.enter hadmits.count node body m.world
    exact ⟨flags, body, ctx, w, hadmits, henter⟩

end Platform

/-! ### Evaluating nodes -/

namespace Caller

variable {p : Platform η ν} {call : Caller η ν} {node : NodeId} {m m' : Machine η ν}
  {object : Object}

/-- What stands for a value gives one, and changes nothing but the world. -/
theorem evalNode_of_hasValue (hobject : m.space.object node = .ok object)
    (hvalue : object.HasValue) :
    ∃ act : WorldM η ν Value, (∀ call : Caller η ν,
        call.evalNode p node m = (.ok <$> onWorld act : MachineM η ν _) m) ∧
      (p.host.Willing → ∀ w, ∃ v w', act w = .ok (v, w')) := by
  cases object with
  | name v =>
    refine ⟨v.copy p.host, fun call => ?_, fun willing => willing.copy v⟩
    rw [evalNode, bind_apply, onSpace_apply, hobject]
    rfl
  | field fieldUnit =>
    refine ⟨readUnit p (.field fieldUnit), fun call => ?_, fun willing => readUnit_ends willing _⟩
    rw [evalNode, bind_apply, onSpace_apply, hobject]
    rfl
  | indexField fieldUnit =>
    refine ⟨readUnit p (.indexField fieldUnit), fun call => ?_,
      fun willing => readUnit_ends willing _⟩
    rw [evalNode, bind_apply, onSpace_apply, hobject]
    rfl
  | _ => exact hvalue.elim

/-- Without a value and a method there is nothing to evaluate, and there is a record of that. -/
theorem evalNode_of_not_hasValue (hobject : m.space.object node = .ok object)
    (hmethod : ¬object.IsMethod) (hvalue : ¬object.HasValue) (call : Caller η ν) :
    ∃ name, m.space.name node = .ok name ∧ call.evalNode p node m =
      .ok (.error .wrongType, m.logged (.valueless name object.typeName)) := by
  obtain ⟨name, hname⟩ := Namespace.exists_name_of_object hobject
  refine ⟨name, hname, evalNode_valueless ?_ ?_ hobject hname⟩
  · cases object <;> first | trivial | exact hmethod trivial | exact hvalue trivial
  · cases object <;> first | rfl | exact (hvalue trivial).elim

/-- **How calls are made has no part in evaluating a node that is no method.** -/
theorem evalNode_congr (hobject : m.space.object node = .ok object) (hmethod : ¬object.IsMethod)
    (call call' : Caller η ν) : call.evalNode p node m = call'.evalNode p node m := by
  by_cases hvalue : object.HasValue
  · obtain ⟨_, heval, -⟩ := evalNode_of_hasValue (p := p) hobject hvalue
    exact (heval call).trans (heval call').symm
  · obtain ⟨name, hname, h⟩ := evalNode_of_not_hasValue (p := p) hobject hmethod hvalue call
    obtain ⟨name', hname', h'⟩ := evalNode_of_not_hasValue (p := p) hobject hmethod hvalue call'
    obtain rfl := Except.ok.inj (hname.symm.trans hname')
    exact h.trans h'.symm

end Caller

namespace Platform

/-- A call runs a body, or it is refused and has no effect. -/
structure CallsOrRefuses (p : Platform η ν) (node : NodeId) (args : List Value)
    (m : Machine η ν) : Prop where
  /-- A body runs exactly if the call is admitted and a context is set up for it. -/
  runs_iff : p.RunsBody (.method node args) m ↔ ∃ flags body ctx w,
    p.Admits node args m flags body ∧ p.enter node flags body args m.world = .ok (ctx, w)
  /-- A host that refuses only what it may refuse does set up the context. -/
  runs_iff_admits : p.host.Willing →
    (p.RunsBody (.method node args) m ↔ ∃ flags body, p.Admits node args m flags body)
  /-- An admitted call runs the method, and all calls from its body are such calls. -/
  admitted : ∀ flags body, p.Admits node args m flags body →
    p.evalMethod node args m = p.invoke p.evalMethod node flags body args m
  /-- Of a node there is, any other call is refused. -/
  or_refuses : ∀ object, m.space.object node = .ok object →
    (∃ flags body, p.Admits node args m flags body) ∨ ∃ e m', p.Refuses node args m e m'
  /-- Whatever the bodies are, a refused call ends with its error and leaves no trace. -/
  refused : ∀ e m', p.Refuses node args m e m' → m.Untouched m' ∧
    ∀ executor, { p with executor }.evalMethod node args m = .ok (.error e, m')
  /-- A handle of no node is a fault. -/
  missing : ∀ f, m.space.object node = .error f →
    ∀ executor, { p with executor }.evalMethod node args m = .error f

/-- A node that is no method is evaluated without a body. -/
structure EvaluatesBodiless (p : Platform η ν) (node : NodeId) (object : Object)
    (m : Machine η ν) : Prop where
  /-- No body has any part in it. -/
  bodiless : ∀ executor, { p with executor }.evalNode node m = p.evalNode node m
  /-- The namespace and the depth stay as they are, and what fails is what has no value. -/
  ends : ∀ r m', p.evalNode node m = .ok (r, m') → m'.space = m.space ∧ m'.depth = m.depth ∧
    ((∃ e, r = .error e) ↔ ¬object.HasValue)
  /-- Where there is no value, that is said, and no trace is left. -/
  valueless : ¬object.HasValue →
    ∃ m', m.Untouched m' ∧ p.evalNode node m = .ok (.error .wrongType, m')
  /-- Where there is one, a host that refuses only what it may refuse gives it. -/
  valued : p.host.Willing → object.HasValue → ∃ v m', p.evalNode node m = .ok (.ok v, m')

variable {p : Platform η ν} {node : NodeId} {m : Machine η ν} {object : Object}

theorem callsOrRefuses (p : Platform η ν) (node : NodeId) (args : List Value)
    (m : Machine η ν) : p.CallsOrRefuses node args m where
  runs_iff := runsBody_method_iff
  runs_iff_admits := runsBody_method_iff_admits
  admitted _ _ h := h.evalMethod_eq
  or_refuses _ h := admits_or_refuses p args h
  refused _ _ h := ⟨h.untouched, fun executor => (h.withExecutor executor).evalMethod_eq⟩
  missing _ h executor := evalMethod_of_missing (p := { p with executor }) h

/-- **A method is evaluated by calling it** without arguments. -/
theorem evalNode_method {flags : MethodFlags} {body : CodeRange}
    (hobject : m.space.object node = .ok (.method flags body)) :
    p.evalNode node m = p.evalMethod node [] m := by
  rw [evalNode, Caller.evalNode_method hobject]
  split
  · rfl
  · rename_i hcount
    have hrefuses : p.Refuses node [] m (.argCount flags.argCount 0) m :=
      .argCount hobject fun h => hcount (UInt8.toNat_inj.1 h.symm)
    exact hrefuses.evalMethod_eq.symm

theorem evaluatesBodiless (p : Platform η ν) (hobject : m.space.object node = .ok object)
    (hmethod : ¬object.IsMethod) : p.EvaluatesBodiless node object m where
  bodiless _ := Caller.evalNode_congr hobject hmethod _ _
  ends r m' h := by
    rw [evalNode] at h
    by_cases hvalue : object.HasValue
    · obtain ⟨act, heval, -⟩ := Caller.evalNode_of_hasValue (p := p) hobject hvalue
      rw [heval] at h
      obtain ⟨v, hact, rfl⟩ := map_eq_ok.1 h
      obtain ⟨w, -, rfl⟩ := onWorld_eq_ok.1 hact
      exact ⟨rfl, rfl, by simp [hvalue]⟩
    · obtain ⟨name, -, heval⟩ :=
        Caller.evalNode_of_not_hasValue (p := p) hobject hmethod hvalue p.caller
      obtain ⟨rfl, rfl⟩ := Prod.mk.inj (Except.ok.inj (heval.symm.trans h))
      exact ⟨rfl, rfl, by simp [hvalue]⟩
  valueless hvalue := by
    obtain ⟨name, -, heval⟩ :=
      Caller.evalNode_of_not_hasValue (p := p) hobject hmethod hvalue p.caller
    exact ⟨_, Refused.untouched (.inr ⟨.valueless .., trivial, rfl⟩), heval⟩
  valued willing hvalue := by
    obtain ⟨act, heval, hends⟩ := Caller.evalNode_of_hasValue (p := p) hobject hvalue
    obtain ⟨v, w, hact⟩ := hends willing m.world
    refine ⟨v, { m with world := w }, ?_⟩
    rw [evalNode, heval]
    exact map_eq_ok.2 ⟨v, onWorld_eq_ok.2 ⟨w, hact, rfl⟩, rfl⟩

/-- **Refusals have no effect, and both ways to evaluate agree.**  In every state a call
runs a body exactly if the node holds a method, takes that many arguments and the limit
leaves room; otherwise the first of these that fails decides the error, and nothing has
happened.  To evaluate a node that holds a method is to call it without arguments; at other
nodes no body runs, the namespace and the depth stay, and it fails where there is no value,
without any effect. -/
theorem refusals_untouched (p : Platform η ν) (node : NodeId) (args : List Value)
    (m : Machine η ν) :
    p.CallsOrRefuses node args m ∧
      (∀ flags body, m.space.object node = .ok (.method flags body) →
        p.evalNode node m = p.evalMethod node [] m) ∧
      ∀ object, m.space.object node = .ok object → ¬object.IsMethod →
        p.EvaluatesBodiless node object m :=
  ⟨p.callsOrRefuses node args m, fun _ _ => evalNode_method, fun _ => p.evaluatesBodiless⟩

/-- A platform with room for one call. -/
def leakOnce : Platform Counters Unit := ⟨countingHost, Evaluation.leak, 1⟩

/-- The machine when that call is in progress. -/
def leakAtLimit : Machine Counters Unit :=
  { start Evaluation.leakSpace Counters.zero with depth := 1 }

/-- At the limit the wrong number of arguments is what a method of one argument is refused
for, and only with the right number is it the limit. -/
theorem refusals_untouched_leak :
    leakOnce.RunsBody (.method ⟨1⟩ [.null]) (start Evaluation.leakSpace Counters.zero) ∧
      leakOnce.evalMethod ⟨1⟩ [] leakAtLimit = .ok (.error (.argCount 1 0), leakAtLimit) ∧
      leakOnce.evalNode ⟨1⟩ leakAtLimit = .ok (.error (.argCount 1 0), leakAtLimit) ∧
      (∃ m', leakAtLimit.Untouched m' ∧
        leakOnce.evalMethod ⟨1⟩ [.null] leakAtLimit = .ok (.error (.callDepth 1), m')) ∧
      leakOnce.evalMethod ⟨0⟩ [.null] leakAtLimit = .ok (.error .wrongType, leakAtLimit) ∧
      ∃ m', leakAtLimit.Untouched m' ∧
        leakOnce.evalNode ⟨0⟩ leakAtLimit = .ok (.error .wrongType, m') := by
  have hmethod : Evaluation.leakSpace.object ⟨1⟩ =
    .ok (.method (MethodFlags.make 1 false 0) ⟨0, 0⟩) := rfl
  have hscope : Evaluation.leakSpace.object ⟨0⟩ = .ok .scope := rfl
  have hcount : ([] : List Value).length ≠ (MethodFlags.make 1 false 0).argCount.toNat := by decide
  have hmissing : leakOnce.Refuses ⟨1⟩ [] leakAtLimit (.argCount 1 0) leakAtLimit :=
    .argCount hmethod hcount
  have hlimit : leakOnce.Refuses ⟨1⟩ [.null] leakAtLimit (.callDepth 1) _ :=
    .callDepth (p := leakOnce) hmethod rfl (by decide) rfl
  have hroot : leakOnce.Refuses ⟨0⟩ [.null] leakAtLimit .wrongType leakAtLimit :=
    .wrongType hscope id
  have hfirst := refusals_untouched leakOnce ⟨1⟩ [.null] (start Evaluation.leakSpace Counters.zero)
  have hnone := refusals_untouched leakOnce ⟨1⟩ [] leakAtLimit
  have hone := refusals_untouched leakOnce ⟨1⟩ [.null] leakAtLimit
  have hother := refusals_untouched leakOnce ⟨0⟩ [.null] leakAtLimit
  refine ⟨(hfirst.1.runs_iff_admits willing_countingHost).2 ⟨_, _, hmethod, rfl, by decide⟩,
    (hnone.1.refused _ _ hmissing).2 _, ?_, ⟨_, (hone.1.refused _ _ hlimit).1,
      (hone.1.refused _ _ hlimit).2 _⟩, (hother.1.refused _ _ hroot).2 _,
    (hother.2.2 .scope hscope id).valueless id⟩
  exact (hnone.2.1 _ _ hmethod).trans ((hnone.1.refused _ _ hmissing).2 _)

end Platform
end Acpi
