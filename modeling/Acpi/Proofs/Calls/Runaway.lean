/-
# Calls that run away

In a ring of methods the body of each one calls the next one and gives up when that call
fails (`Ring`).  A call of such a method goes round until the limit refuses a call, and
then unwinds.  By induction on the levels that are left (`Ring.callWithin`) each level
between the start and the limit costs one context, which is handed back on the way out
(`Machine.Unwinds`), and what a level has put out is taken back with it
(`Measure.standing`).

The one call is all that a ring asks of a body.  On its own the body may do whatever
succeeds and calls no method where it is done (`Request.IsOwn`), such as evaluating a named
value, before the call (`Body.Passes`) and after it (`Body.Ends`), as long as the methods
stay where they are.  Only for what a body takes up and puts away itself does it matter
whether the body is frugal.
-/

import Acpi.Proofs.Calls.Nesting
import Acpi.Proofs.Calls.Refusal
import Acpi.Proofs.Storage.Counting
import Acpi.Proofs.Storage.Standing
import Acpi.Proofs.Storage.Willing

namespace Acpi

variable {η ν : Type}

open Effect Machine

/-! ### Marks in a journal -/

namespace Entry

/-- A method is entered, and its body runs. -/
def enters : Entry ν → Bool
  | log (.enter ..) => true
  | _ => false

/-- A context is asked for. -/
def takesContext : Entry ν → Bool
  | host .allocContext => true
  | _ => false

/-- A context is handed back. -/
def givesContextBack : Entry ν → Bool
  | host (.freeContext _) => true
  | _ => false

end Entry

/-- Between two machines so many methods have been entered, each on a context of its own,
and all of them have been left. -/
structure Machine.Unwinds (levels : Nat) (m m' : Machine η ν) : Prop where
  depth : m'.depth = m.depth
  journal : ∃ new, m'.world.journal.toList = m.world.journal.toList ++ new ∧
    new.countP Entry.enters = levels ∧ new.countP Entry.takesContext = levels ∧
      new.countP Entry.givesContextBack = levels ∧
        ∀ freed, .host (.freeContext freed) ∈ new → freed.IsEmpty

/-- Plain entries mark nothing. -/
theorem Entry.Plain.marks {e : Entry ν} (h : e.Plain fun call => ¬call.IsContextCall) :
    e.enters = false ∧ e.takesContext = false ∧ e.givesContextBack = false := by
  cases e with
  | host call =>
    cases call with
    | allocContext | freeContext => exact absurd trivial (h.resolve_left id)
    | _ => exact ⟨rfl, rfl, rfl⟩
  | log record => cases record <;> first | exact h.elim | exact ⟨rfl, rfl, rfl⟩
  | note line => exact ⟨rfl, rfl, rfl⟩

theorem countP_of_plain {new : List (Entry ν)}
    (h : ∀ e ∈ new, e.Plain fun call => ¬call.IsContextCall) :
    new.countP Entry.enters = 0 ∧ new.countP Entry.takesContext = 0 ∧
      new.countP Entry.givesContextBack = 0 ∧ ∀ freed, .host (.freeContext freed) ∉ new := by
  simp only [List.countP_eq_zero, Bool.not_eq_true]
  refine ⟨fun e he => (h e he).marks.1, fun e he => (h e he).marks.2.1,
    fun e he => (h e he).marks.2.2, fun freed hfreed => ?_⟩
  exact absurd (h _ hfreed).marks.2.2 Bool.noConfusion

namespace Machine.Unwinds

variable {m m₁ m' : Machine η ν} {levels levels' : Nat}

theorem trans (h : m.Unwinds levels m₁) (h' : m₁.Unwinds levels' m') :
    m.Unwinds (levels + levels') m' := by
  obtain ⟨hdepth, new, hnew, henters, htakes, hback, hempty⟩ := h
  obtain ⟨hdepth', new', hnew', henters', htakes', hback', hempty'⟩ := h'
  refine ⟨hdepth'.trans hdepth, new ++ new', by rw [hnew', hnew, List.append_assoc], ?_⟩
  simp only [List.countP_append, henters, henters', htakes, htakes', hback, hback', true_and]
  exact fun freed hfreed => (List.mem_append.1 hfreed).elim (hempty freed) (hempty' freed)

/-- Plain entries mark no call. -/
theorem of_grows (hdepth : m'.depth = m.depth)
    (h : m.world.Grows (Entry.Plain fun call => ¬call.IsContextCall) m'.world) :
    m.Unwinds 0 m' := by
  obtain ⟨new, hnew, hplain⟩ := h
  obtain ⟨henters, htakes, hback, hnone⟩ := countP_of_plain hplain
  exact ⟨hdepth, new, hnew, henters, htakes, hback, fun freed hfreed => absurd hfreed (hnone freed)⟩

theorem refl (m : Machine η ν) : m.Unwinds 0 m := of_grows rfl (.refl _)

/-- What a body does on its own marks no call. -/
theorem tolerant {host : Host η} :
    Tolerant host (Request.AsksHost fun call => ¬call.IsContextCall)
      (Machine.Unwinds (η := η) (ν := ν) 0) where
  refl := refl
  trans h h' := h.trans h'
  housekeeping h := of_grows rfl (h.mono fun _ he => he.plain)
  refusal m _ h := of_grows rfl (.add _ h)
  hostCall := by
    intro m call answer w hallowed hask
    obtain ⟨state, -, rfl⟩ := Host.ask_eq_ok.1 hask
    exact of_grows rfl (.called m.world state (.inr hallowed))
  note m _ := of_grows rfl (.add _ trivial)
  addChild _ _ := of_grows rfl (.refl _)
  setObject _ _ := of_grows rfl (.refl _)

/-- **A call is one level more** than its body has gone through. -/
theorem of_invoke {p : Platform η ν} {node : NodeId} {flags : MethodFlags} {body : CodeRange}
    {args : List Value} {w w₁ : World η ν} {ctx ctx' : Context} {name name' : Segment}
    {status : Except Error Unit} {r : Except Error Value} {typeName : Option String}
    (henter : p.enter node flags body args m.world = .ok (ctx, w))
    (hbody : Unwinds levels
      ⟨m.space, w.add (.log (.enter name m.depth flags.argCount)), m.depth + 1⟩ m₁)
    (hleave : p.leave status ctx' m₁.world = .ok (r, w₁)) :
    m.Unwinds (levels + 1) ⟨m₁.space, w₁.add (.log (.leave name' typeName)), m₁.depth - 1⟩ := by
  obtain ⟨before, hbefore, hkind⟩ := Platform.journal_enter henter
  obtain ⟨hdepth, new, hnew, henters, htakes, hback, hempty⟩ := hbody
  obtain ⟨after, freed, hafter, hkind', -, hfreed⟩ := Platform.journal_leave hleave
  obtain ⟨hb₁, hb₂, hb₃, hb₄⟩ := countP_of_plain fun e he => (hkind e he).plain
  obtain ⟨ha₁, ha₂, ha₃, ha₄⟩ := countP_of_plain fun e he => (hkind' e he).plain
  refine ⟨by simp only [hdepth, Nat.add_sub_cancel],
    .host .allocContext :: (before ++ .log (.enter name m.depth flags.argCount) ::
      (new ++ (after ++ [.host (.freeContext freed), .log (.leave name' typeName)]))),
    ?_, ?_, ?_, ?_, fun other hother => ?_⟩
  · simp only [World.journal_add, hafter, hnew, hbefore, List.append_assoc, List.cons_append,
      List.nil_append]
  · simp [List.countP_cons, hb₁, ha₁, henters, Entry.enters]
  · simp [List.countP_cons, hb₂, ha₂, htakes, Entry.takesContext]
  · simp [List.countP_cons, hb₃, ha₃, hback, Entry.givesContextBack]
  · simp only [List.mem_cons, List.mem_append, hb₄, ha₄, reduceCtorEq, Entry.host.injEq,
      HostCall.freeContext.injEq, List.not_mem_nil, or_false, false_or] at hother
    rcases hother with hinner | rfl
    · exact hempty other hinner
    · exact hfreed

end Machine.Unwinds

/-! ### What a body does on its own -/

/-- A method and the node where it is. -/
structure Callee where
  node : NodeId
  flags : MethodFlags
  code : CodeRange

namespace Callee

/-- The method is at its node. -/
def In (callee : Callee) (ns : Namespace) : Prop :=
  ns.object callee.node = .ok (.method callee.flags callee.code)

/-- The number of arguments that the method declares. -/
def arity (callee : Callee) : Nat := callee.flags.argCount.toNat

/-- What the contexts of its calls say. -/
def site (callee : Callee) : UInt8 × NodeId × CodeRange :=
  (callee.flags.argCount, callee.node, callee.code)

variable {callee : Callee} {ns : Namespace}

theorem In.node (h : callee.In ns) :
    ∃ n, ns.node callee.node = .ok n ∧ n.object = .method callee.flags callee.code :=
  Namespace.node_of_object h

theorem In.name (h : callee.In ns) : ∃ name, ns.name callee.node = .ok name :=
  Namespace.exists_name_of_object h

/-- With the right number of arguments only the limit can refuse a call. -/
theorem In.permit {m : Machine η ν} (h : callee.In m.space) (p : Platform η ν)
    {args : List Value} (hcount : args.length = callee.arity) :
    ∃ name, p.permit callee.node args m =
      if p.maxCallDepth.toNat ≤ m.depth then
        .ok (.error (.callDepth p.maxCallDepth), m.logged (.depthReached p.maxCallDepth name))
      else .ok (.ok (callee.flags, callee.code), m) := by
  obtain ⟨n, hnode, hobject⟩ := h.node
  refine ⟨n.name, ?_⟩
  rw [p.permit_eq, hnode]
  simp only [Except.bind, hobject]
  exact if_neg (not_not.2 hcount)

end Callee

/-- The caller that makes no call at all. -/
def Caller.refusing : Caller η ν := fun _ _ => return .error .wrongType

/-- A request that calls no method where it is made, and leaves contexts to the
interpreter. -/
structure Request.IsOwn (p : Platform η ν) (r : Request ν) (ctx : Context) (m : Machine η ν) :
    Prop where
  callsNone : ∀ call call' : Caller η ν, r.perform p call ctx m = r.perform p call' ctx m
  leavesContexts : r.AsksHost fun call => ¬call.IsContextCall

namespace Request.IsOwn

variable {p : Platform η ν} {call : Caller η ν} {r : Request ν} {answer : r.Answer}
  {ctx ctx' : Context} {m m' : Machine η ν}

/-- What is no evaluation calls no method. -/
theorem of_not_evaluates (h : ¬r.Evaluates)
    (hcontexts : r.AsksHost fun call => ¬call.IsContextCall) : r.IsOwn p ctx m :=
  ⟨fun _ _ => by cases r <;> first | exact absurd trivial h | rfl, hcontexts⟩

/-- Evaluating a node that is no method calls none. -/
theorem evalNode {node : NodeId} {object : Object} (hobject : m.space.object node = .ok object)
    (hmethod : ¬object.IsMethod) : (Request.evalNode node).IsOwn p ctx m where
  callsNone call call' := by
    simp only [perform, bind_apply, Caller.evalNode_congr hobject hmethod call call']
  leavesContexts := trivial

theorem unwinds (hown : r.IsOwn p ctx m) (h : r.perform p call ctx m = .ok ((answer, ctx'), m')) :
    m.Unwinds 0 m' := by
  have hrefusing (node : NodeId) (args : List Value) :
      Keeps (Machine.Unwinds 0) ((Caller.refusing : Caller η ν) node args) := by
    intro m result m' hrefused
    obtain ⟨-, rfl⟩ := Prod.mk.inj (pure_eq_ok.1 hrefused)
    exact .refl m'
  rw [hown.callsNone call .refusing] at h
  exact Machine.Unwinds.tolerant.perform_keeps hrefusing hown.leavesContexts ctx h

/-- It is accounted for as if calls added nothing. -/
theorem surplus (M : Measure p.host ν) {held : List Value} (hown : r.IsOwn p ctx m)
    (howned : r.Owned held) (bare : r.ReadsBare p.host m.space)
    (h : r.perform p call ctx m = .ok ((answer, ctx'), m')) :
    M.surplus m' ctx' (r.heldAfter held answer) = M.surplus m ctx held := by
  have hrefusing (good : Namespace → Prop) (node : NodeId) (args : List Value) :
      M.Adds good ((Caller.refusing : Caller η ν) node args) Measure.resultDemand := by
    intro m result m' hm hrefused
    obtain ⟨rfl, rfl⟩ := Prod.mk.inj (pure_eq_ok.1 hrefused)
    exact Measure.adds_refused (.inl rfl) hm _
  rw [hown.callsNone call .refusing] at h
  exact (Measure.surplus_perform ⟨fun _ _ => trivial, fun _ _ _ => trivial⟩
    (hrefusing fun _ => True) bare howned trivial h).2

end Request.IsOwn

section

variable (p : Platform η ν) (good : Namespace → Prop) (frugal : Prop)

/-- From here on the body, which holds some values, makes requests of its own that succeed,
and then fails with an error.  The namespace is good then, and if the body is to be frugal,
it keeps to what it owns, reads no storage from field units, and holds nothing in the end. -/
inductive Body.Ends (e : Error) : List Value → Body ν Unit → Context → Machine η ν → Prop
  | fail {held ctx m} : good m.space → (frugal → Value.storageAll held = 0) →
      Ends e held (.fail e) ctx m
  | own {held ctx m ctx' m'} {r : Request ν} {next : r.Answer → Body ν Unit} {answer : r.Answer} :
      r.IsOwn p ctx m → (frugal → r.Owned held ∧ r.ReadsBare p.host m.space) →
      r.perform p p.caller ctx m = .ok ((answer, ctx'), m') →
      Ends e (r.heldAfter held answer) (next answer) ctx' m' → Ends e held (.ask r next) ctx m

/-- From here on the body makes requests of its own that succeed, and one call, in a good
namespace and with as many arguments as the method at a node declares.  If the call fails,
the body ends with the same error. -/
inductive Body.Passes (callee : Callee) :
    List Value → Body ν Unit → Context → Machine η ν → Prop
  | call {held ctx m} {args : List Value} {next : Except Error Value → Body ν Unit} :
      good m.space → args.length = callee.arity →
      (∀ e m', good m'.space → Body.Ends p good frugal e held (next (.error e)) ctx m') →
      Passes callee held (.ask (.evalMethod callee.node args) next) ctx m
  | own {held ctx m ctx' m'} {r : Request ν} {next : r.Answer → Body ν Unit} {answer : r.Answer} :
      r.IsOwn p ctx m → (frugal → r.Owned held ∧ r.ReadsBare p.host m.space) →
      r.perform p p.caller ctx m = .ok ((answer, ctx'), m') →
      Passes callee (r.heldAfter held answer) (next answer) ctx' m' →
      Passes callee held (.ask r next) ctx m

/-- **A ring of methods.**  All of them are in every good namespace, and there the body of
each one passes a call on to the next one, from the last one to the first one. -/
structure Ring (k : Nat) [NeZero k] where
  callee : Fin k → Callee
  isIn : ∀ {ns}, good ns → ∀ i, (callee i).In ns
  passes : ∀ {ctx : Context} {m : Machine η ν} (i : Fin k), ctx.site = (callee i).site →
    good m.space → (p.executor ctx).Passes p good frugal (callee (i + 1)) [] ctx m

end

variable {p : Platform η ν} {good : Namespace → Prop} {frugal : Prop}

/-- A body that ends does so whoever makes its calls, and keeps its accounts. -/
theorem Body.Ends.run {e : Error} {held : List Value} {body : Body ν Unit} {ctx : Context}
    {m : Machine η ν} (h : body.Ends p good frugal e held ctx m) (call : Caller η ν) :
    ∃ ctx' m', body.run p call ctx m = .ok ((.error e, ctx'), m') ∧ m.Unwinds 0 m' ∧
      good m'.space ∧
      (frugal → ∀ M : Measure p.host ν, M.surplus m' ctx' [] = M.surplus m ctx held) := by
  induction h with
  | @fail held ctx m hgood hnothing =>
    refine ⟨ctx, m, Body.run_fail_eq_ok.2 ⟨rfl, rfl, rfl⟩, .refl m, hgood, fun hfrugal M => ?_⟩
    rw [Measure.surplus, Measure.surplus,
      Value.demandAll_of_storageAll_eq_zero (hnothing hfrugal), Value.demandAll_nil]
  | @own held ctx m ctx₁ m₁ r next answer hown howned hperform _ ih =>
    obtain ⟨ctx', m', hrun, hunwinds, hgood, hbalance⟩ := ih
    have hstep := hown.unwinds hperform
    rw [hown.callsNone _ call] at hperform
    refine ⟨ctx', m', Body.run_ask_eq_ok.2 ⟨answer, ctx₁, m₁, hperform, hrun⟩,
      hstep.trans hunwinds, hgood, fun hfrugal M => ?_⟩
    obtain ⟨howned, bare⟩ := howned hfrugal
    exact (hbalance hfrugal M).trans (hown.surplus M howned bare hperform)

/-- A caller through which a call of a method in the ring fails at the limit, after going
through the levels that are left. -/
def Ring.RunsOut {k : Nat} [NeZero k] (ring : Ring p good frugal k) (levels : Nat)
    (call : Caller η ν) : Prop :=
  ∀ (i : Fin k) (args : List Value) (m : Machine η ν), m.depth + levels = p.maxCallDepth.toNat →
    good m.space → args.length = (ring.callee i).arity →
    ∃ m', call (ring.callee i).node args m = .ok (.error (.callDepth p.maxCallDepth), m') ∧
      m.Unwinds levels m' ∧ good m'.space ∧
      (frugal → ∀ M : Measure p.host ν, p.host.Drains (M.standing m) (M.standing m'))

namespace Ring

variable {k : Nat} [NeZero k] {ring : Ring p good frugal k} {levels : Nat} {call : Caller η ν}

/-- A body that passes a call on fails as the call does, and keeps its accounts. -/
theorem RunsOut.run (hcall : ring.RunsOut levels call) {i : Fin k} {held : List Value}
    {body : Body ν Unit} {ctx : Context} {m : Machine η ν}
    (hdepth : m.depth + levels = p.maxCallDepth.toNat)
    (h : body.Passes p good frugal (ring.callee i) held ctx m) :
    ∃ ctx' m', body.run p call ctx m = .ok ((.error (.callDepth p.maxCallDepth), ctx'), m') ∧
      m.Unwinds levels m' ∧ good m'.space ∧
      (frugal → ∀ M : Measure p.host ν,
        p.host.Drains (M.surplus m ctx held) (M.surplus m' ctx' [])) := by
  induction h with
  | @call held ctx m args next hgood hcount hends =>
    obtain ⟨m₁, heval, hdown, hgood₁, hstanding⟩ := hcall i args m hdepth hgood hcount
    obtain ⟨ctx', m', hrun, hup, hgood', hbalance⟩ := (hends _ m₁ hgood₁).run call
    refine ⟨ctx', m', Body.run_ask_eq_ok.2 ⟨_, ctx, m₁, Request.perform_eq_ok.2 ⟨heval, rfl⟩,
      hrun⟩, hdown.trans hup, hgood', fun hfrugal M => ?_⟩
    obtain ⟨hle, heq⟩ := hstanding hfrugal M
    rw [hbalance hfrugal M, Measure.surplus, Measure.surplus]
    exact ⟨by omega, fun hempty => by rw [heq hempty]⟩
  | @own held ctx m ctx₁ m₁ r next answer hown howned hperform _ ih =>
    have hstep := hown.unwinds hperform
    obtain ⟨ctx', m', hrun, hunwinds, hgood, hbalance⟩ := ih (by rw [hstep.depth, hdepth])
    rw [hown.callsNone _ call] at hperform
    refine ⟨ctx', m', Body.run_ask_eq_ok.2 ⟨answer, ctx₁, m₁, hperform, hrun⟩,
      Nat.zero_add levels ▸ hstep.trans hunwinds, hgood, fun hfrugal M => ?_⟩
    obtain ⟨howned, bare⟩ := howned hfrugal
    rw [← hown.surplus M howned bare hperform]
    exact hbalance hfrugal M

/-- **One level of the ring.**  The method is entered, the call that its body passes on
fails, and the method is left with the same error. -/
theorem RunsOut.invoke (willing : p.host.Willing) (hcall : ring.RunsOut levels call) {i : Fin k}
    {args : List Value} {m : Machine η ν} (hdepth : m.depth + 1 + levels = p.maxCallDepth.toNat)
    (hgood : good m.space) (hcount : args.length = (ring.callee i).arity) :
    ∃ m', p.invoke call (ring.callee i).node (ring.callee i).flags (ring.callee i).code args m =
        .ok (.error (.callDepth p.maxCallDepth), m') ∧
      m.Unwinds (levels + 1) m' ∧ good m'.space ∧
      (frugal → ∀ M : Measure p.host ν, p.host.Drains (M.standing m) (M.standing m')) := by
  obtain ⟨ctx, w, henter⟩ := willing.enter hcount (ring.callee i).node (ring.callee i).code m.world
  obtain ⟨name, hname⟩ := (ring.isIn hgood i).name
  obtain ⟨ctx', m₁, hrun, hunwinds, hgood₁, hbalance⟩ := hcall.run
    (m := ⟨m.space, w.add (.log (.enter name m.depth (ring.callee i).flags.argCount)), m.depth + 1⟩)
    hdepth (ring.passes i (Platform.site_enter henter) hgood)
  obtain ⟨w₁, hleave⟩ := willing.leave (.callDepth p.maxCallDepth) ctx' m₁.world
  obtain ⟨name', hname'⟩ := (ring.isIn hgood₁ i).name
  refine ⟨_, Platform.invoke_eq_ok.2 ⟨ctx, w, name, _, ctx', m₁, w₁, name', henter, hname, hrun,
    hleave, hname', rfl⟩, .of_invoke henter hunwinds hleave, hgood₁, fun hfrugal M => ?_⟩
  obtain ⟨henter_le, henter_eq⟩ := M.enter henter
  obtain ⟨hbody_le, hbody_eq⟩ := hbalance hfrugal M
  have hout := M.leave hleave
  simp only [Measure.surplus, Measure.standing, M.log, Measure.resultDemand, Value.demandAll_nil,
    tally_nil] at *
  refine ⟨by omega, fun hempty => ?_⟩
  have h₁ := henter_eq hempty
  have h₂ := hbody_eq hempty
  omega

/-- **A ring runs to the limit**, by induction on the levels that are left. -/
theorem callWithin (ring : Ring p good frugal k) (willing : p.host.Willing) (levels : Nat) :
    ring.RunsOut levels (p.callWithin levels) := by
  induction levels with
  | zero =>
    intro i args m hdepth hgood hcount
    obtain ⟨name, hpermit⟩ := (ring.isIn hgood i).permit p hcount
    rw [if_pos (show p.maxCallDepth.toNat ≤ m.depth by omega)] at hpermit
    refine ⟨m.logged (.depthReached p.maxCallDepth name), ?_, .of_grows rfl (.add _ trivial),
      hgood, fun _ M => ?_⟩
    · rw [Platform.callWithin.eq_def]
      exact bind_eq_ok.2 ⟨_, _, hpermit, pure_eq_ok.2 rfl⟩
    · have hsame : M.standing (m.logged (.depthReached p.maxCallDepth name)) = M.standing m := by
        simp only [Measure.standing, logged, M.log]
      exact ⟨by omega, fun _ => hsame⟩
  | succ levels ih =>
    intro i args m hdepth hgood hcount
    obtain ⟨name, hpermit⟩ := (ring.isIn hgood i).permit p hcount
    rw [if_neg (by omega)] at hpermit
    obtain ⟨m', hinvoke, hrest⟩ := ih.invoke willing (m := m) (by omega) hgood hcount
    refine ⟨m', ?_, hrest⟩
    rw [Platform.callWithin.eq_def]
    exact bind_eq_ok.2 ⟨_, _, hpermit, hinvoke⟩

/-- **Runaway calls are cut off at the limit.**  A call of a method in a ring, made with as
many arguments as the method declares at whatever depth up to the limit, fails because the
limit is reached.  As many bodies have run as there were levels left, each of them on a
context of its own, all contexts have been handed back, and the depth is what it was.  If
the bodies keep to what they own, no block is left out: the copies of the arguments and all
that the bodies have asked for has been given back, one for one and size for size, but for
what named values have taken up or given up.  On a host that gives contexts out empty
nothing else has been given back. -/
theorem runaway_cut_off (ring : Ring p good frugal k) (willing : p.host.Willing)
    {m : Machine η ν} (hdepth : m.depth ≤ p.maxCallDepth.toNat) (hgood : good m.space) (i : Fin k)
    {args : List Value} (hcount : args.length = (ring.callee i).arity) :
    ∃ m' new,
      p.evalMethod (ring.callee i).node args m = .ok (.error (.callDepth p.maxCallDepth), m') ∧
        m'.depth = m.depth ∧ good m'.space ∧
        m'.world.journal.toList = m.world.journal.toList ++ new ∧
        new.countP Entry.enters = p.maxCallDepth.toNat - m.depth ∧
        new.countP Entry.takesContext = p.maxCallDepth.toNat - m.depth ∧
        new.countP Entry.givesContextBack = p.maxCallDepth.toNat - m.depth ∧
        (∀ freed, .host (.freeContext freed) ∈ new → freed.IsEmpty) ∧
        (frugal →
          (m.space.demand ++ new.filterMap Entry.taken?).Subperm
              (m'.space.demand ++ new.filterMap Entry.givenBack?) ∧
            (p.host.GivesEmpty →
              (m.space.demand ++ new.filterMap Entry.taken?).Perm
                (m'.space.demand ++ new.filterMap Entry.givenBack?))) := by
  obtain ⟨m', hcall, ⟨hdepth', new, hnew, henters, htakes, hback, hempty⟩, hgood', hdrains⟩ :=
    ring.callWithin willing (p.maxCallDepth.toNat - m.depth) i args m (by omega)
      hgood hcount
  refine ⟨m', new, ?_, hdepth', hgood', hnew, henters, htakes, hback, hempty, fun hfrugal => ?_⟩
  · rw [Platform.evalMethod, Platform.caller]
    exact bind_eq_ok.2 ⟨m, m, get_eq_ok.2 rfl, hcall⟩
  · have hblocks (weigh : Block → Nat) := hdrains hfrugal (.ofJournal p.host weigh)
    simp only [Measure.standing, Measure.ofJournal, hnew, List.filterMap_append,
      tally_append] at hblocks
    refine ⟨subperm_of_tally_le fun weigh => ?_, fun hempty => perm_of_tally_eq fun weigh => ?_⟩
    · have hle := (hblocks weigh).1
      simp only [tally_append]
      omega
    · have heq := (hblocks weigh).2 hempty
      simp only [tally_append]
      omega

end Ring

/-- A method with an argument. -/
def ping : Callee := ⟨⟨1⟩, .make 1 false 0, ⟨0, 0⟩⟩

/-- A method without arguments. -/
def pong : Callee := ⟨⟨2⟩, .make 0 false 0, ⟨0, 0⟩⟩

/-- The two methods below the root, and a named value. -/
def relaySpace : Namespace :=
  ⟨#[⟨Segment.root, .scope, none, some ⟨1⟩, some ⟨3⟩, none⟩,
    ⟨⟨0x50, 0x49, 0x4E, 0x47⟩, .plainMethod 1 ⟨0, 0⟩, some ⟨0⟩, none, none, some ⟨2⟩⟩,
    ⟨⟨0x50, 0x4F, 0x4E, 0x47⟩, .plainMethod 0 ⟨0, 0⟩, some ⟨0⟩, none, none, some ⟨3⟩⟩,
    ⟨⟨0x44, 0x41, 0x54, 0x41⟩, .name (.package [.buffer [1, 2, 3]]), some ⟨0⟩, none, none, none⟩],
    NodeId.first⟩

/-- A body that returns the value of a call or gives up. -/
def pass : Except Error Value → Body Unit Unit
  | .ok value => Body.request (.store .ret value)
  | .error e => .fail e

/-- The bodies of `ping`, which calls `pong`, and of all other methods, which evaluate the
named value, call `ping` with the copy, and keep that while the call lasts. -/
def relay (ctx : Context) : Body Unit Unit :=
  if ctx.scope = ping.node then do
    pass (← Body.request (.evalMethod pong.node []))
  else do
    match ← Body.request (.evalNode ⟨3⟩) with
    | .ok package =>
      let result ← Body.request (.evalMethod ping.node [package])
      let _empty ← Body.request (.release package)
      pass result
    | .error e => .fail e

/-- `ping` and `pong` are a ring of frugal bodies. -/
def relayRing (limit : UInt64) :
    Ring (⟨countingHost, relay, limit⟩ : Platform Counters Unit) (· = relaySpace) True 2 where
  callee i := if i = 0 then ping else pong
  isIn := by
    rintro _ rfl i
    rcases (show i = 0 ∨ i = 1 by omega) with rfl | rfl <;> rfl
  passes := by
    intro ctx m i hsite hgood
    rcases (show i = 0 ∨ i = 1 by omega) with rfl | rfl
    · have hscope : ctx.scope = ping.node := congrArg (·.2.1) hsite
      show (relay ctx).Passes _ _ _ pong [] ctx m
      rw [relay, if_pos hscope]
      exact .call hgood rfl fun e m' hgood' => .fail hgood' fun _ => rfl
    · have hscope : ctx.scope = pong.node := congrArg (·.2.1) hsite
      show (relay ctx).Passes _ _ _ ping [] ctx m
      rw [relay, if_neg (show ¬ctx.scope = ping.node by rw [hscope]; decide)]
      have hdata : m.space.object ⟨3⟩ = .ok (.name (.package [.buffer [1, 2, 3]])) := by
        rw [hgood]; rfl
      have hbodiless := (⟨countingHost, relay, limit⟩ : Platform Counters Unit).evaluatesBodiless
        hdata id
      obtain ⟨package, m₁, heval⟩ := hbodiless.valued willing_countingHost trivial
      obtain ⟨hspace, -, -⟩ := hbodiless.ends _ _ heval
      refine .own (r := .evalNode ⟨3⟩) (.evalNode hdata id)
        (fun _ => ⟨trivial, readsBare_countingHost.request _ _⟩)
        (Request.perform_eq_ok.2 ⟨heval, rfl⟩) ?_
      refine .call (hspace.trans hgood) (show [package].length = ping.arity from rfl)
        fun e m' hgood' => ?_
      obtain ⟨w', hrelease⟩ := willing_countingHost.release package m'.world
      refine .own (r := .release package) (.of_not_evaluates id trivial)
        (fun _ => ⟨.inl (List.mem_cons_self ..), trivial⟩)
        (Request.perform_eq_ok.2 ⟨w', hrelease, rfl, rfl⟩) (.fail hgood' fun _ => ?_)
      simp [Request.heldAfter, Value.storageAll]

/-- With three levels to go a call of the first method runs its body, that of the second
one, and its own again, and everything that was asked for is given back. -/
theorem Ring.runaway_cut_off_relay :
    countingHost.Willing ∧ countingHost.GivesEmpty ∧ ∃ (m' : Machine Counters Unit) (new : _),
      (⟨countingHost, relay, 3⟩ : Platform Counters Unit).evalMethod ping.node [.buffer [7]]
          (start relaySpace Counters.zero) = .ok (.error (.callDepth 3), m') ∧
        m'.depth = 0 ∧ m'.world.journal.toList = new ∧ new.countP Entry.enters = 3 ∧
        new.countP Entry.takesContext = 3 ∧ new.countP Entry.givesContextBack = 3 ∧
        (new.filterMap Entry.taken?).Perm (new.filterMap Entry.givenBack?) := by
  obtain ⟨m', new, hcall, hdepth, hspace, hnew, henters, htakes, hback, -, hblocks⟩ :=
    (relayRing 3).runaway_cut_off willing_countingHost
      (show (start relaySpace Counters.zero).depth ≤ (3 : UInt64).toNat by decide) rfl 0
      (show [Value.buffer [7]].length = ping.arity from rfl)
  refine ⟨willing_countingHost, givesEmpty_countingHost, m', new, hcall, hdepth, hnew, henters,
    htakes, hback, ?_⟩
  have hsame := (hblocks trivial).2 givesEmpty_countingHost
  rwa [hspace, show (start relaySpace Counters.zero).space = relaySpace from rfl,
    List.perm_append_left_iff] at hsame

end Acpi
