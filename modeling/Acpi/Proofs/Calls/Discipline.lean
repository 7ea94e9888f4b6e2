/-
# The depth at every moment

The depth of a machine counts the calls in progress: the methods entered and not
left, and the contexts allocated and not freed (`Machine.InStep`, for either
weight).  To say so of every moment at which a body acts, the bodies are watched:
before each request, and at its end, a watched body reads the journal, the depth
and the limit, and sounds an alarm unless the depth is what the journal counts, is
positive, is within the limit, and fits a machine word.  Watching changes nothing,
whatever the alarm (`Platform.callWithin_watched`), so it is never sounded.

A body is watched first right after the depth has gone up and last right before
it goes down.  So the depth never goes up beyond a machine word, and never goes
down from zero.

The methods entered and left are counted rightly whatever the bodies do, the
contexts if the bodies leave them to the interpreter.
-/

import Acpi.Bench.CountingHost
import Acpi.Proofs.Calls.Agreement
import Acpi.Proofs.Calls.Nesting
import Acpi.Proofs.Storage.Frugal

namespace Acpi

variable {η ν α : Type}

open Effect Machine

/-- The depth is the level of the journal. -/
def Machine.InStep (weigh : Entry ν → Int) (m : Machine η ν) : Prop :=
  (m.depth : Int) = level weigh m.world.journal.toList

/-- A machine at rest is in step. -/
@[simp] theorem Machine.inStep_start (weigh : Entry ν → Int) (space : Namespace) (host : η) :
    (start space host).InStep weigh :=
  rfl

/-- A machine inside a call, at a depth. -/
def Machine.Inside (weigh : Entry ν → Int) (limit depth : Nat) (m : Machine η ν) : Prop :=
  m.depth = depth ∧ 0 < depth ∧ depth ≤ limit ∧ m.InStep weigh

section

variable {allowed : HostCall → Prop} {weigh : Entry ν → Int} {limit limit' depth : Nat}
  {m m' : Machine η ν}

theorem Machine.Nests.inStep (hweigh : Brackets allowed weigh) (h : m.Nests allowed limit m')
    (hm : m.InStep weigh) : m'.InStep weigh := by
  obtain ⟨hdepth, new, hnew, hnested⟩ := h
  rw [InStep, hdepth, hnew, level_append, hnested.level_eq_zero hweigh, Int.add_zero]
  exact hm

theorem Machine.Nests.inside (hweigh : Brackets allowed weigh) (h : m.Nests allowed limit m')
    (hm : m.Inside weigh limit' depth) : m'.Inside weigh limit' depth :=
  ⟨h.depth.trans hm.1, hm.2.1, hm.2.2.1, h.inStep hweigh hm.2.2.2⟩

end

namespace Body

/-- A body that neither allocates nor frees contexts on its own. -/
def LeavesContexts : Body ν α → Prop := Uses (Request.AsksHost fun call => ¬call.IsContextCall)

/-- Looks whether all is in order, and sounds the alarm if it is not. -/
def checked (weigh : Entry ν → Int) (alarm : Fault) (rest : Body ν α) : Body ν α :=
  ask .history fun journal => ask .depth fun depth => ask .limit fun limit =>
    if 0 < depth ∧ depth ≤ limit.toNat ∧ depth < UInt64.size ∧
        (depth : Int) = level weigh journal.toList then
      rest
    else
      fault alarm

/-- The body that is checked before each request and at its end. -/
def watched (weigh : Entry ν → Int) (alarm : Fault) : Body ν α → Body ν α
  | done result => checked weigh alarm (done result)
  | fail e => checked weigh alarm (fail e)
  | fault f => checked weigh alarm (fault f)
  | ask r next => checked weigh alarm (ask r fun answer => (next answer).watched weigh alarm)

end Body

/-- The platform on which all bodies are watched. -/
def Platform.watched (p : Platform η ν) (weigh : Entry ν → Int) (alarm : Fault) : Platform η ν :=
  { p with executor := fun ctx => (p.executor ctx).watched weigh alarm }

section

variable {p : Platform η ν} {allowed : HostCall → Prop} {weigh : Entry ν → Int}
  {call call' : Caller η ν} {m : Machine η ν} {alarm : Fault}

namespace Body

variable {ctx : Context} {depth : Nat}

theorem run_checked (hm : m.Inside weigh p.maxCallDepth.toNat depth) (rest : Body ν α) :
    (checked weigh alarm rest).run p call ctx m = rest.run p call ctx m := by
  obtain ⟨rfl, hpos, hle, hstep⟩ := hm
  have hword := Nat.lt_of_le_of_lt hle p.maxCallDepth.toNat_lt
  show (if 0 < m.depth ∧ m.depth ≤ p.maxCallDepth.toNat ∧ m.depth < UInt64.size ∧
    (m.depth : Int) = level weigh m.world.journal.toList then rest
      else fault alarm).run p call ctx m = _
  rw [if_pos ⟨hpos, hle, hword, hstep⟩]

/-- **A body is not changed by being watched**, if calls are not changed. -/
theorem run_watched (hweigh : Brackets allowed weigh)
    (hagrees : ∀ node args, Agrees (Inside weigh p.maxCallDepth.toNat depth) (call node args)
      (call' node args))
    (hnests : ∀ node args, Keeps (Nests allowed p.maxCallDepth.toNat) (call node args))
    {body : Body ν α} (hbody : body.Uses (Request.AsksHost allowed)) (ctx : Context)
    (hm : m.Inside weigh p.maxCallDepth.toNat depth) :
    (body.watched weigh alarm).run (p.watched weigh alarm) call' ctx m =
      body.run p call ctx m := by
  induction body generalizing ctx m with
  | done | fail | fault => exact run_checked (p := p.watched weigh alarm) hm _
  | ask r next ih =>
    have hsame : r.perform p call ctx m = r.perform (p.watched weigh alarm) call' ctx m :=
      Request.perform_agrees hagrees (fun device name id m b m' h hm =>
        (Nests.tolerant.objectMatches_keeps hnests device name id h).inside hweigh hm) ctx r hm
    refine (run_checked (p := p.watched weigh alarm) hm _).trans (bind_congr_of_ok hsame.symm ?_)
    rintro ⟨answer, ctx'⟩ m₁ hperform
    rw [← hsame] at hperform
    have hnests₁ := Nests.tolerant.perform_keeps hnests hbody.1 ctx hperform
    exact ih answer (hbody.2 answer) ctx' (hnests₁.inside hweigh hm)

end Body

namespace Platform

/-- Where a body starts, the depth and the level of the journal have both gone up
by one. -/
theorem inside_of_enter (hweigh : Brackets allowed weigh) {node : NodeId} {flags : MethodFlags}
    {body : CodeRange} {args : List Value} {ctx : Context} {w : World η ν} (name : Segment)
    {limit : Nat} (hdepth : m.depth < limit) (hm : m.InStep weigh)
    (h : p.enter node flags body args m.world = .ok (ctx, w)) :
    (⟨m.space, w.add (.log (.enter name m.depth flags.argCount)), m.depth + 1⟩ :
      Machine η ν).Inside weigh limit (m.depth + 1) := by
  obtain ⟨before, hbefore, hkind⟩ := journal_enter h
  have hplain := level_eq_zero_of_forall (hweigh.eq_zero hkind)
  have hone := (hweigh.enter name m.depth flags.argCount).2
  refine ⟨rfl, Nat.succ_pos _, hdepth, ?_⟩
  simp only [InStep, World.journal_add, hbefore, level_append, level_cons, hplain,
    level_nil] at hm ⊢
  omega

theorem invoke_watched (hweigh : Brackets allowed weigh)
    (huses : ∀ ctx, (p.executor ctx).Uses (Request.AsksHost allowed))
    (hagrees : ∀ node args, Agrees (InStep weigh) (call node args) (call' node args))
    (hnests : ∀ node args, Keeps (Nests allowed p.maxCallDepth.toNat) (call node args))
    {node : NodeId} {flags : MethodFlags} {body : CodeRange} {args : List Value}
    (hdepth : m.depth < p.maxCallDepth.toNat) (hm : m.InStep weigh) :
    (p.watched weigh alarm).invoke call' node flags body args m =
      p.invoke call node flags body args m := by
  unfold invoke
  refine bind_congr_of_ok rfl fun ctx t hctx => ?_
  obtain ⟨w, henter, rfl⟩ := onWorld_eq_ok.1 hctx
  refine bind_congr_of_ok rfl fun name t hname => ?_
  obtain ⟨-, rfl⟩ := onSpace_eq_ok.1 hname
  refine bind_congr_of_ok rfl fun m₁ t hget => ?_
  obtain ⟨rfl, rfl⟩ := Prod.mk.inj (get_eq_ok.1 hget)
  refine bind_congr_of_ok rfl fun _ t hlog => ?_
  obtain ⟨-, rfl⟩ := Prod.mk.inj (log_eq_ok.1 hlog)
  refine bind_congr_of_ok rfl fun _ t hdeeper => ?_
  obtain ⟨-, rfl⟩ := Prod.mk.inj (modify_eq_ok.1 hdeeper)
  refine bind_congr_of_ok ?_ fun _ _ _ => rfl
  have hinside := inside_of_enter (p := p) hweigh name hdepth hm henter
  exact Body.run_watched hweigh (fun node args m hm => hagrees node args hm.2.2.2) hnests
    (huses ctx) ctx hinside

/-- **Calls are not changed by watching the bodies**, by induction on the levels
that are left: on a machine that is in step no alarm is ever sounded. -/
theorem callWithin_watched (hweigh : Brackets allowed weigh)
    (huses : ∀ ctx, (p.executor ctx).Uses (Request.AsksHost allowed)) (room : Nat)
    (node : NodeId) (args : List Value) :
    Agrees (InStep weigh) (p.callWithin room node args)
      ((p.watched weigh alarm).callWithin room node args) := by
  induction room generalizing node args with
  | zero =>
    intro m hm
    rw [callWithin.eq_def, callWithin.eq_def]
    rfl
  | succ room ih =>
    intro m hm
    rw [callWithin.eq_def, callWithin.eq_def]
    refine bind_congr_of_ok rfl fun admitted t hpermit => ?_
    rcases permit_cases hpermit with ⟨flags, body, rfl, -, -, hdepth, rfl⟩ | ⟨e, rfl, -⟩
    · exact (invoke_watched hweigh huses ih (callWithin_nests huses room) hdepth hm).symm
    · rfl

theorem caller_watched (hweigh : Brackets allowed weigh)
    (huses : ∀ ctx, (p.executor ctx).Uses (Request.AsksHost allowed)) (node : NodeId)
    (args : List Value) :
    Agrees (InStep weigh) (p.caller node args) ((p.watched weigh alarm).caller node args) := by
  intro m hm
  unfold caller
  refine bind_congr_of_ok rfl fun m₁ t hget => ?_
  obtain ⟨rfl, rfl⟩ := Prod.mk.inj (get_eq_ok.1 hget)
  exact callWithin_watched hweigh huses _ node args hm

end Platform

end

/-- What an interpreter can be asked to evaluate. -/
inductive Evaluation
  | method (node : NodeId) (args : List Value)
  | node (node : NodeId)

/-- Evaluates what is asked for. -/
def Platform.evaluate (p : Platform η ν) : Evaluation → MachineM η ν (Except Error Value)
  | .method node args => p.evalMethod node args
  | .node node => p.evalNode node

/-- An evaluation that keeps the discipline of the call stack, as a weight of the
journal shows it. -/
structure Platform.Disciplined (p : Platform η ν) (allowed : HostCall → Prop)
    (weigh : Entry ν → Int) (e : Evaluation) : Prop where
  /-- Whether it ends with a value or with an error, the depth is what it was, what
  has been written is nested, its weights cancel out, and on the way they never
  exceed the levels between the depth and the limit. -/
  ends : ∀ {m r m'}, p.evaluate e m = .ok (r, m') → m'.depth = m.depth ∧
    ∃ new, m'.world.journal.toList = m.world.journal.toList ++ new ∧
      Nested allowed p.maxCallDepth.toNat m.depth m.space new m'.space ∧ level weigh new = 0 ∧
      ∀ pre, pre <+: new → 0 ≤ level weigh pre ∧
        level weigh pre ≤ (p.maxCallDepth.toNat - m.depth : Nat)
  /-- A machine that is in step stays so. -/
  inStep : ∀ {m r m'}, m.InStep weigh → p.evaluate e m = .ok (r, m') → m'.InStep weigh
  /-- Whenever a body acts, nothing gives cause for alarm. -/
  watched : ∀ {m}, m.InStep weigh → ∀ alarm,
    (p.watched weigh alarm).evaluate e m = p.evaluate e m

namespace Evaluation

variable {p : Platform η ν} {allowed : HostCall → Prop} {weigh : Entry ν → Int}

theorem nests (huses : ∀ ctx, (p.executor ctx).Uses (Request.AsksHost allowed))
    (e : Evaluation) : Keeps (Nests allowed p.maxCallDepth.toNat) (p.evaluate e) := by
  cases e with
  | method node args => exact Platform.caller_nests huses node args
  | node node => exact Nests.tolerant.evalNode_keeps (Platform.caller_nests huses) node

theorem watched (hweigh : Brackets allowed weigh)
    (huses : ∀ ctx, (p.executor ctx).Uses (Request.AsksHost allowed)) (alarm : Fault)
    (e : Evaluation) :
    Agrees (InStep weigh) (p.evaluate e) ((p.watched weigh alarm).evaluate e) := by
  cases e with
  | method node args => exact Platform.caller_watched hweigh huses node args
  | node node => exact Caller.evalNode_agrees (Platform.caller_watched hweigh huses) node

theorem disciplined (hweigh : Brackets allowed weigh)
    (huses : ∀ ctx, (p.executor ctx).Uses (Request.AsksHost allowed)) (e : Evaluation) :
    p.Disciplined allowed weigh e where
  ends := by
    intro m r m' h
    obtain ⟨hdepth, new, hnew, hnested⟩ := nests huses e h
    exact ⟨hdepth, new, hnew, hnested, hnested.level_eq_zero hweigh, hnested.stays hweigh⟩
  inStep := fun hm h => (nests huses e h).inStep hweigh hm
  watched := fun hm alarm => (watched hweigh huses alarm e hm).symm

/-- **Call-stack discipline.**  With any bodies at all an evaluation is disciplined:
it leaves the depth as it was and writes a nested journal, in which the context that is
freed before a method is left is the one that was set up for it; and whenever a body acts,
the depth is the number of methods entered and not left, positive, within the limit
and a machine word.  With bodies that leave contexts to the interpreter, all this
holds of the contexts allocated and freed as well.  A machine at rest is in step to
begin with. -/
theorem call_discipline (p : Platform η ν) (e : Evaluation) :
    p.Disciplined (fun _ => True) Entry.records e ∧
      ((∀ ctx, (p.executor ctx).LeavesContexts) →
        p.Disciplined (fun call => ¬call.IsContextCall) Entry.contexts e) ∧
      ∀ weigh space host, (start space host : Machine η ν).InStep weigh := by
  refine ⟨disciplined brackets_records (fun ctx => Body.uses_of_forall (fun r => ?_) _) e,
    fun hleaves => disciplined (brackets_contexts fun _ => id) hleaves e, inStep_start⟩
  cases r <;> trivial

theorem leavesContexts_keeper (ctx : Context) : (keeper ctx).LeavesContexts := by
  refine ⟨trivial, fun package => ⟨trivial, fun _ => ⟨trivial, fun result => ?_⟩⟩⟩
  cases result <;> exact ⟨trivial, fun _ => trivial⟩

/-- A call of `keeper` under a limit of two levels runs it twice and is refused the
third time; after it no context is out. -/
theorem call_discipline_keeper :
    (∀ ctx, (keeper ctx).LeavesContexts) ∧
      ∃ m', (⟨countingHost, keeper, 2⟩ : Platform Counters Unit).evaluate (.method ⟨1⟩ [])
          (start keeperSpace Counters.zero) = .ok (.ok (.package [.buffer [1, 2, 3]]), m') ∧
        m'.depth = 0 ∧ m'.InStep Entry.contexts := by
  obtain ⟨m', h⟩ := Effect.exists_eq_ok
    (show ((⟨countingHost, keeper, 2⟩ : Platform Counters Unit).evaluate (.method ⟨1⟩ [])
        (start keeperSpace Counters.zero)).toOption.map Prod.fst =
      some (.ok (.package [.buffer [1, 2, 3]])) by decide +kernel)
  obtain ⟨-, hcontexts, hrest⟩ :=
    call_discipline (⟨countingHost, keeper, 2⟩ : Platform Counters Unit) (.method ⟨1⟩ [])
  have hdisciplined := hcontexts leavesContexts_keeper
  exact ⟨leavesContexts_keeper, m', h, (hdisciplined.ends h).1,
    hdisciplined.inStep (hrest _ _ _) h⟩

end Evaluation
end Acpi
