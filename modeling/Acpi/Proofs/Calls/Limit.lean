/-
# The limit on nested calls

The limit matters only when it is hit.  Suppose that no call is refused because of
the limit, at any level of nesting.  Then the same evaluation under a higher limit is
the same run: it gives the same result and leaves the same machine behind, with
everything that has been written down (`Platform.same_under_higher_limit`).

A refusal can be swallowed: by a body that goes on after it, or by the search for
devices, for which an identifier that cannot be evaluated says nothing.  But it can be
told in two ways.  Every refusal is written down, so a run that has succeeded shows
whether there was one (`Machine.WithinLimit`).  And a run in which refusals are faults
instead (`Platform.callerOrStop`) stops at the first one; this tells of runs that end
in a fault as well.

The run that stops is the link between the two limits.  It does what the other two do
or has stopped already (`CutShort`), so it has only to be compared with one run at a
time, whatever the limit of that run is.
-/

import Acpi.Bench.CountingHost
import Acpi.Proofs.Calls.Nesting
import Acpi.Proofs.Storage.Frugal
import Acpi.Proofs.Twin.Congruence

namespace Acpi

variable {η ν α β : Type}

open Effect Machine

/-- Whether an entry says that a call was refused because of the limit. -/
def Entry.hitsLimit : Entry ν → Bool
  | log (.depthReached ..) => true
  | _ => false

namespace Machine

variable {m m₁ m' : Machine η ν}

/-- No refusal because of the limit has been written down. -/
def WithinLimit (m m' : Machine η ν) : Prop :=
  m.world.Grows (fun e => e.hitsLimit = false) m'.world

/-- A refusal shows. -/
theorem not_withinLimit_logged (m : Machine η ν) (limit : UInt64) (name : Segment) :
    ¬m.WithinLimit (m.logged (.depthReached limit name)) := by
  rintro ⟨new, hnew, hwithin⟩
  rw [logged, World.journal_add] at hnew
  obtain rfl := List.append_cancel_left hnew
  exact Bool.noConfusion (hwithin _ (List.mem_singleton_self _))

/-- The machine has come to a depth, and its journal has grown. -/
def ComesTo (depth : Nat) (m m' : Machine η ν) : Prop :=
  m'.depth = depth ∧ m.world.Grows (fun _ => True) m'.world

theorem ComesTo.trans {depth depth' : Nat} (h : m.ComesTo depth m₁) (h' : m₁.ComesTo depth' m') :
    m.ComesTo depth' m' :=
  ⟨h'.1, h.2.trans h'.2⟩

/-- A refusal that shows on the way shows at the end. -/
theorem ComesTo.withinLimit {depth depth' : Nat} (h : m.ComesTo depth m₁)
    (h' : m₁.ComesTo depth' m') (hall : m.WithinLimit m') :
    m.WithinLimit m₁ ∧ m₁.WithinLimit m' :=
  World.Grows.split h.2 h'.2 hall

theorem Nests.comesTo {allowed : HostCall → Prop} {limit : Nat} (h : m.Nests allowed limit m') :
    m.ComesTo m.depth m' := by
  obtain ⟨hdepth, new, hnew, -⟩ := h
  exact ⟨hdepth, new, hnew, fun _ _ => trivial⟩

end Machine

/-! ### Runs that stop at a refusal -/

namespace Platform

/-- The same platform with another limit. -/
def withLimit (p : Platform η ν) (limit : UInt64) : Platform η ν :=
  { p with maxCallDepth := limit }

/-- Calls a method when `room` further levels may be entered, and stops with a fault if
the call is refused because of the limit. -/
def callOrStop (p : Platform η ν) (stop : Fault) : Nat → Caller η ν
  | room, node, args => do
    match ← p.permit node args with
    | .error (.callDepth _) => throw stop
    | .error error => return .error error
    | .ok (flags, body) =>
      match room with
      | 0 => throw stop
      | room + 1 => p.invoke (p.callOrStop stop room) node flags body args

/-- The caller that stops at refusals, for a machine at its present depth. -/
def callerOrStop (p : Platform η ν) (stop : Fault) : Caller η ν := fun node args => do
  p.callOrStop stop (p.maxCallDepth.toNat - (← get).depth) node args

end Platform

/-- A computation that is cut short on machines at a depth: it does what the full one
does, or it has stopped.  Where it has stopped, the full one has written a refusal down
if it succeeds; this is to be so only if it is under the same limit (`telling`).  The
full one always comes to the same depth when it succeeds. -/
structure CutShort (stop : Fault) (telling : Prop) (depth depth' : Nat)
    (cut full : MachineM η ν α) : Prop where
  comesTo : ∀ {m a m'}, m.depth = depth → full m = .ok (a, m') → m.ComesTo depth' m'
  same_or_stop : ∀ {m}, m.depth = depth → cut m = full m ∨
    cut m = .error stop ∧ (telling → ∀ {a m'}, full m = .ok (a, m') → ¬m.WithinLimit m')

/-- A caller of which every call is cut short. -/
def Caller.CutShort (stop : Fault) (telling : Prop) (depth : Nat) (cut full : Caller η ν) :
    Prop :=
  ∀ node args, Acpi.CutShort stop telling depth depth (cut node args) (full node args)

namespace CutShort

variable {stop : Fault} {telling : Prop} {depth depth₁ depth' : Nat}

/-- What calls no method is not cut short. -/
protected theorem refl {act : MachineM η ν α}
    (h : ∀ {m a m'}, act m = .ok (a, m') → m.ComesTo m.depth m') :
    CutShort stop telling depth depth act act :=
  ⟨fun hm hrun => hm ▸ h hrun, fun _ => .inl rfl⟩

protected theorem pure (a : α) :
    CutShort stop telling depth depth (pure a : MachineM η ν α) (pure a) := by
  refine .refl fun {m b m'} h => ?_
  obtain ⟨-, rfl⟩ := Prod.mk.inj (pure_eq_ok.1 h)
  exact ⟨rfl, .refl _⟩

theorem get : CutShort stop telling depth depth (get : MachineM η ν _) get := by
  refine .refl fun {m b m'} h => ?_
  obtain ⟨-, rfl⟩ := Prod.mk.inj (get_eq_ok.1 h)
  exact ⟨rfl, .refl _⟩

theorem onSpace (query : Namespace → Except Fault α) :
    CutShort stop telling depth depth (onSpace query : MachineM η ν α) (onSpace query) := by
  refine .refl fun {m b m'} h => ?_
  obtain ⟨-, rfl⟩ := onSpace_eq_ok.1 h
  exact ⟨rfl, .refl _⟩

/-- What only adds to the journal. -/
theorem onWorld {kind : Entry ν → Prop} {act : WorldM η ν α}
    (h : ∀ {w a w'}, act w = .ok (a, w') → w.Grows kind w') :
    CutShort stop telling depth depth (onWorld act) (onWorld act) := by
  refine .refl fun {m b m'} hrun => ?_
  obtain ⟨w, hact, rfl⟩ := onWorld_eq_ok.1 hrun
  exact ⟨rfl, (h hact).mono fun _ _ => trivial⟩

theorem log (record : LogRecord) :
    CutShort stop telling depth depth (log record : MachineM η ν Unit) (log record) := by
  refine .refl fun {m b m'} h => ?_
  obtain ⟨-, rfl⟩ := Prod.mk.inj (log_eq_ok.1 h)
  exact ⟨rfl, .add m.world trivial⟩

/-- Going to another depth. -/
theorem modify (f : Nat → Nat) :
    CutShort stop telling depth (f depth)
      (modify fun m => { m with depth := f m.depth } : MachineM η ν PUnit)
      (modify fun m => { m with depth := f m.depth }) := by
  refine ⟨fun {m a m'} hm h => ?_, fun _ => .inl rfl⟩
  obtain ⟨-, rfl⟩ := Prod.mk.inj (modify_eq_ok.1 h)
  exact ⟨congrArg f hm, .refl _⟩

variable {cut full : MachineM η ν α} {f g : α → MachineM η ν β}

/-- A sequence is cut short in its first part or else in its second part. -/
protected theorem bind (hx : CutShort stop telling depth depth₁ cut full)
    (hf : ∀ a, CutShort stop telling depth₁ depth' (f a) (g a)) :
    CutShort stop telling depth depth' (cut >>= f) (full >>= g) := by
  refine ⟨fun {m} b m' hm h => ?_, fun {m} hm => ?_⟩
  · obtain ⟨a, m₁, hfull, hg⟩ := bind_eq_ok.1 h
    have hfirst := hx.comesTo hm hfull
    exact hfirst.trans ((hf a).comesTo hfirst.1 hg)
  · rcases hx.same_or_stop hm with hsame | ⟨hstop, htells⟩
    · cases hfull : full m with
      | error e => exact .inl (by rw [bind_apply, bind_apply, hsame, hfull]; rfl)
      | ok r =>
        obtain ⟨a, m₁⟩ := r
        have hfirst := hx.comesTo hm hfull
        rw [bind_apply, bind_apply, hsame, hfull]
        refine ((hf a).same_or_stop hfirst.1).imp_right fun ⟨hstop, htells⟩ =>
          ⟨hstop, fun ht b m' hg hwithin => htells ht hg ?_⟩
        exact (hfirst.withinLimit ((hf a).comesTo hfirst.1 hg) hwithin).2
    · refine .inr ⟨by rw [bind_apply, hstop]; rfl, fun ht b m' h hwithin => ?_⟩
      obtain ⟨a, m₁, hfull, hg⟩ := bind_eq_ok.1 h
      have hfirst := hx.comesTo hm hfull
      exact htells ht hfull (hfirst.withinLimit ((hf a).comesTo hfirst.1 hg) hwithin).1

/-- What evaluations are made of is cut short where the calls are. -/
theorem congruence {p : Platform η ν} {limit : UInt64} :
    Congruence p (p.withLimit limit) fun _ => CutShort stop telling depth depth where
  pure := .pure
  bind := .bind
  onSpace := .onSpace
  log := .log
  copy v := .onWorld (Value.grows_of_copy v)
  release v := .onWorld (Value.grows_of_release v)
  readUnit _ := .onWorld Caller.grows_of_readUnit

end CutShort

/-- A request that does not ask for the limit. -/
def Request.IgnoresLimit : Request ν → Prop
  | limit => False
  | _ => True

namespace Caller.CutShort

variable {stop : Fault} {telling : Prop} {depth : Nat} {p : Platform η ν} {limit : UInt64}
  {cut full : Caller η ν}

/-- **One request of a body** is cut short if it makes a call that is. -/
theorem perform (h : cut.CutShort stop telling depth full) {r : Request ν} (hr : r.IgnoresLimit)
    (ctx : Context) :
    Acpi.CutShort stop telling depth depth (r.perform p cut ctx)
      (r.perform (p.withLimit limit) full ctx) := by
  -- a caller that is never used
  let unused : Caller η ν := fun _ _ => throw stop
  have hunused : ∀ node args, Keeps (Nests (fun _ => True) 0) (unused node args) :=
    fun _ _ _ _ _ hrun => absurd hrun throw_eq_ok
  have hquiet : Acpi.CutShort stop telling depth depth (r.perform p unused ctx)
      (r.perform p unused ctx) :=
    .refl fun hrun =>
      (Nests.tolerant.perform_keeps hunused (by cases r <;> trivial) ctx hrun).comesTo
  cases r with
  | evalMethod node args => exact (h node args).bind fun _ => .pure _
  | evalNode node => exact (CutShort.congruence.evalNode h node).bind fun _ => .pure _
  | matchesId device id =>
    exact (CutShort.congruence.matchesId h device id).bind fun _ => .pure _
  | findDevices id => exact (CutShort.congruence.findDevices h id).bind fun _ => .pure _
  | limit => exact hr.elim
  | _ => exact hquiet

/-- **A body** is cut short if a call is that it makes, by induction on its requests. -/
theorem run (h : cut.CutShort stop telling depth full) {body : Body ν α}
    (hbody : body.Uses Request.IgnoresLimit) (ctx : Context) :
    Acpi.CutShort stop telling depth depth (body.run p cut ctx)
      (body.run (p.withLimit limit) full ctx) := by
  induction body generalizing ctx with
  | done result => exact .pure _
  | fail e => exact .pure _
  | fault f => exact .refl fun hrun => absurd hrun throw_eq_ok
  | ask r next ih =>
    exact (h.perform hbody.1 ctx).bind fun answered =>
      ih answered.1 (hbody.2 answered.1) answered.2

/-- **An admitted call** is cut short if a call is that its body makes. -/
theorem invoke (h : cut.CutShort stop telling (depth + 1) full)
    (hbodies : ∀ ctx, (p.executor ctx).Uses Request.IgnoresLimit) (node : NodeId)
    (flags : MethodFlags) (body : CodeRange) (args : List Value) :
    Acpi.CutShort stop telling depth depth (p.invoke cut node flags body args)
      ((p.withLimit limit).invoke full node flags body args) := by
  have henter {w ctx w'} (h : p.enter node flags body args w = .ok (ctx, w')) :
      w.Grows (fun _ => True) w' := by
    obtain ⟨before, hbefore, -⟩ := Platform.journal_enter h
    exact ⟨_, hbefore, fun _ _ => trivial⟩
  have hleave (status ctx) {w r w'} (h : p.leave status ctx w = .ok (r, w')) :
      w.Grows (fun _ => True) w' := by
    obtain ⟨after, freed, hafter, -⟩ := Platform.journal_leave h
    exact ⟨_, hafter, fun _ _ => trivial⟩
  refine (CutShort.onWorld henter).bind fun ctx => ?_
  refine (CutShort.onSpace _).bind fun name => CutShort.get.bind fun m => ?_
  refine (CutShort.log _).bind fun _ => (CutShort.modify (· + 1)).bind fun _ => ?_
  refine (h.run (hbodies ctx) ctx).bind fun ended => (CutShort.modify (· - 1)).bind fun _ => ?_
  refine (CutShort.onWorld (hleave ended.1 ended.2)).bind fun result => ?_
  exact (CutShort.onSpace _).bind fun name => (CutShort.log _).bind fun _ => .pure _

end Caller.CutShort

namespace Platform

variable {p : Platform η ν} {limit : UInt64}

/-- **Under a higher limit a call is admitted or refused as before**, unless it was
refused because of the limit. -/
theorem permit_withLimit (hle : p.maxCallDepth.toNat ≤ limit.toNat) (node : NodeId)
    (args : List Value) (m : Machine η ν) :
    (∃ f, p.permit node args m = .error f ∧ (p.withLimit limit).permit node args m = .error f) ∨
      (∃ e, (∀ l, e ≠ .callDepth l) ∧ p.permit node args m = .ok (.error e, m) ∧
        (p.withLimit limit).permit node args m = .ok (.error e, m)) ∨
      (∃ name, p.permit node args m = .ok (.error (.callDepth p.maxCallDepth),
        m.logged (.depthReached p.maxCallDepth name))) ∨
      ∃ flags body, m.depth < p.maxCallDepth.toNat ∧
        p.permit node args m = .ok (.ok (flags, body), m) ∧
        (p.withLimit limit).permit node args m = .ok (.ok (flags, body), m) := by
  rw [permit_eq, permit_eq]
  cases m.space.node node with
  | error f => exact .inl ⟨f, rfl, rfl⟩
  | ok n =>
    obtain ⟨name, object, _⟩ := n
    cases object
    case method flags body =>
      dsimp only [Except.bind]
      split
      · exact .inr (.inl ⟨_, fun _ => Error.noConfusion, rfl, rfl⟩)
      · split
        · exact .inr (.inr (.inl ⟨name, rfl⟩))
        · rename_i hdepth
          have hdepth' : ¬(p.withLimit limit).maxCallDepth.toNat ≤ m.depth := fun h =>
            hdepth (hle.trans h)
          rw [if_neg hdepth']
          exact .inr (.inr (.inr ⟨flags, body, Nat.not_le.1 hdepth, rfl, rfl⟩))
    all_goals exact .inr (.inl ⟨_, fun _ => Error.noConfusion, rfl, rfl⟩)

/-- **A call is cut short if the calls are that its method makes**, one level deeper. -/
theorem callOrStop_step (hle : p.maxCallDepth.toNat ≤ limit.toNat)
    (hbodies : ∀ ctx, (p.executor ctx).Uses Request.IgnoresLimit) {stop : Fault}
    {depth room room' : Nat} (hroom : p.maxCallDepth.toNat ≤ depth + room)
    (hroom' : limit.toNat ≤ depth + room')
    (hbelow : ∀ below below', room = below + 1 → room' = below' + 1 →
      (p.callOrStop stop below).CutShort stop (limit = p.maxCallDepth) (depth + 1)
        ((p.withLimit limit).callWithin below')) :
    (p.callOrStop stop room).CutShort stop (limit = p.maxCallDepth) depth
      ((p.withLimit limit).callWithin room') := by
  intro node args
  refine ⟨fun {m r m'} hm h => ?_, fun {m} hm => ?_⟩
  · have hnests := callWithin_nests (p := p.withLimit limit)
      (fun ctx => (p.executor ctx).uses_asksHost_true) room' node args h
    exact hm ▸ hnests.comesTo
  · rw [callOrStop.eq_def, callWithin.eq_def]
    rcases permit_withLimit hle node args m with ⟨f, hpermit, hpermit'⟩ |
      ⟨e, he, hpermit, hpermit'⟩ | ⟨name, hpermit⟩ | ⟨flags, body, hdepth, hpermit, hpermit'⟩
    · left
      simp only [bind_apply, hpermit, hpermit', Except.bind]
    · left
      simp only [bind_apply, hpermit, hpermit', Except.bind]
    · simp only [bind_apply, hpermit, Except.bind]
      refine .inr ⟨rfl, ?_⟩
      rintro rfl r m' h
      have hpermit' : (p.withLimit p.maxCallDepth).permit node args m = _ := hpermit
      simp only [hpermit'] at h
      obtain ⟨-, rfl⟩ := Prod.mk.inj (Except.ok.inj h)
      exact not_withinLimit_logged m p.maxCallDepth name
    · obtain ⟨below, rfl⟩ := Nat.exists_eq_succ_of_ne_zero (n := room) (by omega)
      obtain ⟨below', rfl⟩ := Nat.exists_eq_succ_of_ne_zero (n := room') (by omega)
      simp only [bind_apply, hpermit, hpermit', Except.bind]
      exact ((hbelow below below' rfl rfl).invoke hbodies node flags body args).same_or_stop hm

/-- **Calls are cut short under any limit that is not lower**, by induction on the levels
that are left.  Under the same limit the refusals are the same, so there they tell. -/
theorem callOrStop_cutShort (hle : p.maxCallDepth.toNat ≤ limit.toNat)
    (hbodies : ∀ ctx, (p.executor ctx).Uses Request.IgnoresLimit) (stop : Fault)
    {depth room room' : Nat} (hroom : p.maxCallDepth.toNat ≤ depth + room)
    (hroom' : limit.toNat ≤ depth + room') :
    (p.callOrStop stop room).CutShort stop (limit = p.maxCallDepth) depth
      ((p.withLimit limit).callWithin room') := by
  induction room generalizing depth room' with
  | zero => exact callOrStop_step hle hbodies hroom hroom' fun _ _ h => nomatch h
  | succ room ih =>
    refine callOrStop_step hle hbodies hroom hroom' fun below below' h h' => ?_
    obtain rfl := Nat.succ.inj h
    exact ih (by omega) (by omega)

theorem callerOrStop_cutShort (hle : p.maxCallDepth ≤ limit)
    (hbodies : ∀ ctx, (p.executor ctx).Uses Request.IgnoresLimit) (stop : Fault) (depth : Nat) :
    (p.callerOrStop stop).CutShort stop (limit = p.maxCallDepth) depth
      (p.withLimit limit).caller := by
  have hrooms : (p.callOrStop stop (p.maxCallDepth.toNat - depth)).CutShort stop
      (limit = p.maxCallDepth) depth ((p.withLimit limit).callWithin (limit.toNat - depth)) :=
    callOrStop_cutShort (UInt64.le_iff_toNat_le.1 hle) hbodies stop (by omega) (by omega)
  refine fun node args => ⟨fun {m r m'} hm h => ?_, fun {m} hm => ?_⟩
  · subst hm
    exact (hrooms node args).comesTo rfl h
  · subst hm
    exact (hrooms node args).same_or_stop rfl

/-- An evaluation for which a higher limit makes no difference as long as no call is
refused. -/
structure Indifferent (p : Platform η ν) (limit : UInt64)
    (evaluation : Platform η ν → Caller η ν → MachineM η ν α) : Prop where
  /-- If a run has succeeded and no refusal has been written down, it is the same. -/
  of_withinLimit : ∀ {m r m'}, evaluation p p.caller m = .ok (r, m') → m.WithinLimit m' →
    evaluation (p.withLimit limit) (p.withLimit limit).caller m = .ok (r, m')
  /-- If a run is none that a refusal would stop, whatever its end, it is the same. -/
  of_unstopped : ∀ {m}, (∀ stop, evaluation p (p.callerOrStop stop) m = evaluation p p.caller m) →
    evaluation (p.withLimit limit) (p.withLimit limit).caller m = evaluation p p.caller m

/-- An evaluation that is cut short under any limit. -/
theorem Indifferent.of_cutShort {evaluation : Platform η ν → Caller η ν → MachineM η ν α}
    (h : ∀ limit' stop depth, p.maxCallDepth ≤ limit' →
      CutShort stop (limit' = p.maxCallDepth) depth depth (evaluation p (p.callerOrStop stop))
        (evaluation (p.withLimit limit') (p.withLimit limit').caller))
    (hle : p.maxCallDepth ≤ limit) : p.Indifferent limit evaluation where
  of_withinLimit := by
    intro m r m' hrun hwithin
    -- any fault will do
    rcases (h _ .endless m.depth UInt64.le_rfl).same_or_stop rfl with hsame | ⟨-, htells⟩
    · rcases (h limit .endless m.depth hle).same_or_stop rfl with hsame' | ⟨hstop, -⟩
      · rw [← hsame', hsame]
        exact hrun
      · rw [hsame] at hstop
        exact absurd (hrun.symm.trans hstop) nofun
    · exact absurd hwithin (htells rfl hrun)
  of_unstopped := by
    intro m hunstopped
    have hends (stop : Fault) : evaluation p p.caller m = .error stop ∨
        evaluation (p.withLimit limit) (p.withLimit limit).caller m = evaluation p p.caller m := by
      rw [← hunstopped stop]
      exact ((h limit stop m.depth hle).same_or_stop rfl).symm.imp And.left Eq.symm
    -- the run does not end in two faults
    rcases hends .endless with hendless | hsame
    · refine (hends .noSuchSlot).resolve_left fun hslot => ?_
      exact absurd (hendless.symm.trans hslot) nofun
    · exact hsame

/-- **The limit matters only when it is hit.**  Calling a method, evaluating a node,
comparing a device and finding devices, and with them whatever a body does that does not
ask for the limit, are the same under a higher limit, unless a call is refused. -/
theorem same_under_higher_limit (p : Platform η ν) (limit : UInt64)
    (hle : p.maxCallDepth ≤ limit)
    (hbodies : ∀ ctx, (p.executor ctx).Uses Request.IgnoresLimit) :
    (∀ node args, p.Indifferent limit fun _ call => call node args) ∧
      (∀ node, p.Indifferent limit fun q call => call.evalNode q node) ∧
      (∀ device id, p.Indifferent limit fun q call => call.matchesId q device id) ∧
      (∀ id, p.Indifferent limit fun q call => call.findDevices q id) ∧
      ∀ (α : Type) (body : Body ν α) ctx, body.Uses Request.IgnoresLimit →
        p.Indifferent limit fun q call => body.run q call ctx := by
  have hcalls (limit' : UInt64) (stop : Fault) (depth : Nat) (hle : p.maxCallDepth ≤ limit') :=
    callerOrStop_cutShort hle hbodies stop depth
  refine ⟨fun node args => .of_cutShort ?_ hle, fun node => .of_cutShort ?_ hle,
    fun device id => .of_cutShort ?_ hle, fun id => .of_cutShort ?_ hle,
    fun α body ctx hbody => .of_cutShort ?_ hle⟩
  · exact fun limit' stop depth hle' => hcalls limit' stop depth hle' node args
  · exact fun limit' stop depth hle' =>
      CutShort.congruence.evalNode (hcalls limit' stop depth hle') node
  · exact fun limit' stop depth hle' =>
      CutShort.congruence.matchesId (hcalls limit' stop depth hle') device id
  · exact fun limit' stop depth hle' =>
      CutShort.congruence.findDevices (hcalls limit' stop depth hle') id
  · exact fun limit' stop depth hle' => (hcalls limit' stop depth hle').run hbody ctx

/-- A body that calls its own method once more and passes on what that returns. -/
def twofold (ctx : Context) : Body Unit Unit := do
  let depth ← Body.request .depth
  if depth < 2 then
    match ← Body.request (.evalMethod ctx.scope []) with
    | .ok value => Body.request (.store .ret value)
    | .error _ => return
  else
    Body.request (.store .ret (.integer 7))

theorem ignoresLimit_twofold (ctx : Context) : (twofold ctx).Uses Request.IgnoresLimit := by
  refine ⟨trivial, fun (depth : Nat) => ?_⟩
  show Body.Uses Request.IgnoresLimit (if depth < 2 then _ else _)
  split
  · refine ⟨trivial, fun result => ?_⟩
    cases result with
    | ok value => exact ⟨trivial, fun _ => trivial⟩
    | error e => exact trivial
  · exact ⟨trivial, fun _ => trivial⟩

/-- Two levels are enough for `twofold`, and the usual number of them gives the same. -/
theorem same_under_higher_limit_twofold :
    (2 : UInt64) ≤ defaultCallDepth ∧ (∀ ctx, (twofold ctx).Uses Request.IgnoresLimit) ∧
      ∃ m', (⟨countingHost, twofold, 2⟩ : Platform Counters Unit).evalMethod ⟨1⟩ []
          (start keeperSpace Counters.zero) = .ok (.ok (.integer 7), m') ∧
        (start keeperSpace Counters.zero).WithinLimit m' ∧
        (⟨countingHost, twofold, defaultCallDepth⟩ : Platform Counters Unit).evalMethod ⟨1⟩ []
          (start keeperSpace Counters.zero) = .ok (.ok (.integer 7), m') := by
  have hle : (2 : UInt64) ≤ defaultCallDepth := by decide
  obtain ⟨m', h⟩ := exists_eq_ok
    (show ((⟨countingHost, twofold, 2⟩ : Platform Counters Unit).evalMethod ⟨1⟩ []
        (start keeperSpace Counters.zero)).toOption.map Prod.fst = some (.ok (.integer 7)) by
      decide +kernel)
  have hjournal : ((⟨countingHost, twofold, 2⟩ : Platform Counters Unit).evalMethod ⟨1⟩ []
        (start keeperSpace Counters.zero)).toOption.map
          (fun r => r.2.world.journal.toList.all fun e => !e.hitsLimit) = some true := by
    decide +kernel
  have hwithin : (start keeperSpace Counters.zero).WithinLimit m' := by
    rw [h] at hjournal
    have hall := List.all_eq_true.1 (Option.some.inj hjournal)
    exact ⟨_, rfl, fun e he => by simpa using hall e he⟩
  have hcalls := (same_under_higher_limit (⟨countingHost, twofold, 2⟩ : Platform Counters Unit)
    defaultCallDepth hle ignoresLimit_twofold).1
  exact ⟨hle, ignoresLimit_twofold, m', h, hwithin, (hcalls ⟨1⟩ []).of_withinLimit h hwithin⟩

end Platform
end Acpi
