/-
# Two hosts for one program

The same bodies can run on two hosts.  A likeness of hosts (`Likeness`) relates
their states and their answers so that answers which differ are of no concern to
an evaluation: what storage holds when it is given out, and what is written beside
the slots of a context.  Then whole evaluations run alike: they give the same
results and write the same journal, and if one of them stops with a fault, so does
the other (`Likeness.embedding`).  The hosts need to be alike only on calls that
take back nothing that still holds a value, as no others are made
(`HostCall.Clean`).  Bodies make calls of their own, and are to take no notice
either of what differs between the answers (`Body.Blind`).
-/

import Acpi.Machine.Embedding
import Acpi.Proofs.Keeping
import Acpi.Proofs.Storage.Slots
import Acpi.Proofs.Twin.Congruence
import Acpi.Proofs.Twin.Runs

namespace Acpi

variable {η η' ν α : Type}

open Machine

namespace HostCall

/-- A call that does not give back anything that still holds a value. -/
def Clean : HostCall → Prop
  | freeElements elements => ∀ v ∈ elements, v = .null
  | freeContext ctx => ctx.IsEmpty
  | _ => True

/-- Answers between which an evaluation makes no difference: storage is written
before it is read, and a context is set up before it is looked at, except for its
slots. -/
def Indistinct : (call : HostCall) → call.Answer → call.Answer → Prop
  | allocBytes _, _, _ | allocElements _, _, _ => True
  | allocContext, ctx, ctx' => ctx.cells = ctx'.cells
  | readBufferField _, n, n' => n = n'
  | readOperand _, v, v' => v = v'
  | freeBytes _, _, _ | freeElements _, _, _ | freeContext _, _, _ | writeBufferField _ _, _, _ =>
    True

theorem Indistinct.refl {call : HostCall} (answer : call.Answer) :
    call.Indistinct answer answer := by
  cases call <;> first | exact True.intro | exact rfl

end HostCall

/-- Worlds with the same journal and hosts in related states. -/
def World.Alike (states : η → η' → Prop) (w : World η ν) (w' : World η' ν) : Prop :=
  states w.host w'.host ∧ w.journal = w'.journal

/-- Machines with the same namespace, the same number of calls in progress and worlds
that are alike. -/
def Machine.Alike (states : η → η' → Prop) (m : Machine η ν) (m' : Machine η' ν) : Prop :=
  m.space = m'.space ∧ m.world.Alike states m'.world ∧ m.depth = m'.depth

theorem Machine.Alike.eq {m m' : Machine η ν} (h : m.Alike Eq m') : m = m' := by
  obtain ⟨space, ⟨host, journal⟩, depth⟩ := m
  obtain ⟨space', ⟨host', journal'⟩, depth'⟩ := m'
  obtain ⟨rfl, ⟨rfl, rfl⟩, rfl⟩ := h
  rfl

/-- A likeness of two hosts on the allowed calls, of which those that give back
only what is empty are a part. -/
structure Likeness (host : Host η) (host' : Host η') where
  states : η → η' → Prop
  answers : (call : HostCall) → call.Answer → call.Answer → Prop
  allowed : HostCall → Prop
  alike : ∀ call, allowed call → ∀ s s', states s s' →
    EndAlike (answers call) states (host call s) (host' call s')
  indistinct : ∀ call answer answer', answers call answer answer' → call.Indistinct answer answer'
  clean : ∀ call, call.Clean → allowed call

/-- Answers to a request of a body, of which only those of the host may differ. -/
def Request.Alike (answers : (call : HostCall) → call.Answer → call.Answer → Prop) :
    (r : Request ν) → r.Answer → r.Answer → Prop
  | host call, answer, answer' => answers call answer answer'
  | _, answer, answer' => answer = answer'

/-- A body that goes on in the same way from answers that are alike. -/
def Body.Blind (answers : (call : HostCall) → call.Answer → call.Answer → Prop) :
    Body ν α → Prop
  | done _ | fail _ | fault _ => True
  | ask r next => (∀ answer answer', r.Alike answers answer answer' → next answer = next answer') ∧
    ∀ answer, (next answer).Blind answers

/-- Whoever makes no call of which the answers could differ takes no notice. -/
theorem Body.blind_of_uses {answers : (call : HostCall) → call.Answer → call.Answer → Prop}
    {allowed : HostCall → Prop}
    (h : ∀ {call}, allowed call → ∀ {answer answer'}, answers call answer answer' →
      answer = answer')
    {body : Body ν α} (hbody : body.Uses (Request.AsksHost allowed)) : body.Blind answers := by
  induction body with
  | done | fail | fault => trivial
  | ask r next ih =>
    refine ⟨fun answer answer' halike => ?_, fun answer => ih answer (hbody.2 answer)⟩
    cases r with
    | host call => exact congrArg next (h hbody.1 halike)
    | _ => exact congrArg next halike

/-- Equal answers are nothing to take notice of. -/
theorem Body.blind_eq (body : Body ν α) : body.Blind fun _ => Eq :=
  blind_of_uses (fun _ _ _ h => h) body.uses_asksHost_true

/-- The same bodies on another host. -/
def Platform.on (p : Platform η ν) (host : Host η') : Platform η' ν :=
  ⟨host, p.executor, p.maxCallDepth⟩

namespace Likeness

section World

variable {host : Host η} {host' : Host η'} (l : Likeness host host')

/-- The worlds that the likeness relates. -/
abbrev worlds : World η ν → World η' ν → Prop := World.Alike l.states

theorem write (entry : Entry ν) :
    RunAlike l.worlds Eq (World.write entry : WorldM η ν Unit) (World.write entry) :=
  .modify fun _ _ h => ⟨h.1, congrArg (·.push entry) h.2⟩

theorem ask (call : HostCall) (h : l.allowed call) :
    RunAlike l.worlds (l.answers call) (host.ask call : WorldM η ν call.Answer)
      (host'.ask call) := by
  refine (l.write _).bind fun _ _ _ w w' hw => ?_
  have hend := l.alike call h w.host w'.host hw.1
  simp only [bind, Except.bind]
  generalize host call w.host = r, host' call w'.host = r' at hend
  cases hend with
  | ok answers states => exact .ok answers ⟨states, hw.2⟩
  | fault f => exact .fault f

/-- A call that gives back only what is empty is answered alike. -/
theorem askClean (call : HostCall) (h : call.Clean) :
    RunAlike l.worlds call.Indistinct (host.ask call : WorldM η ν call.Answer) (host'.ask call) :=
  (l.ask call (l.clean call h)).mono (l.indistinct call)

/-! ### Values and slots -/

mutual

/-- Nothing is left of a value that is released, on either host. -/
theorem release : (v : Value) → RunAlike l.worlds (fun left left' => left = left' ∧ left = .null)
    (v.release host : WorldM η ν Value) (v.release host')
  | .null | .integer _ | .string _ | .bufferField _ => by
    simp only [Value.release]
    exact .pure ⟨rfl, rfl⟩
  | .buffer bytes => by
    simp only [Value.release]
    exact (l.askClean (.freeBytes bytes) trivial).bind fun _ _ _ => .pure ⟨rfl, rfl⟩
  | .package elements => by
    simp only [Value.release]
    refine (releaseAll elements).bind fun left _ h => ?_
    obtain ⟨rfl, hempty⟩ := h
    exact (l.askClean (.freeElements left) hempty).bind fun _ _ _ => .pure ⟨rfl, rfl⟩

theorem releaseAll : (vs : List Value) →
    RunAlike l.worlds (fun left left' => left = left' ∧ ∀ v ∈ left, v = .null)
      (Value.releaseAll host vs : WorldM η ν (List Value)) (Value.releaseAll host' vs)
  | [] => by
    simp only [Value.releaseAll]
    exact .pure ⟨rfl, fun _ hv => absurd hv List.not_mem_nil⟩
  | v :: vs => by
    simp only [Value.releaseAll]
    refine (release v).bind fun left _ h => ?_
    obtain ⟨rfl, hleft⟩ := h
    refine (releaseAll vs).bind fun rest _ hrest => ?_
    obtain ⟨rfl, hrest⟩ := hrest
    exact .pure ⟨rfl, List.forall_mem_cons.2 ⟨hleft, hrest⟩⟩

end

mutual

theorem copy : (v : Value) →
    RunAlike l.worlds Eq (v.copy host : WorldM η ν Value) (v.copy host')
  | .null | .integer _ | .string _ => by
    simp only [Value.copy]
    exact .pure rfl
  | .buffer bytes => by
    simp only [Value.copy]
    exact (l.askClean (.allocBytes _) trivial).bind fun _ _ _ => .pure rfl
  | .bufferField field => by
    simp only [Value.copy]
    exact (l.askClean (.readBufferField field) trivial).bindEq fun _ => .pure rfl
  | .package elements => by
    simp only [Value.copy]
    refine (l.askClean (.allocElements _) trivial).bind fun _ _ _ => ?_
    exact (copyAll elements).bindEq fun _ => .pure rfl

theorem copyAll : (vs : List Value) →
    RunAlike l.worlds Eq (Value.copyAll host vs : WorldM η ν (List Value))
      (Value.copyAll host' vs)
  | [] => by
    simp only [Value.copyAll]
    exact .pure rfl
  | v :: vs => by
    simp only [Value.copyAll]
    exact (copy v).bindEq fun _ => (copyAll vs).bindEq fun _ => .pure rfl

end

theorem overwrite (old source : Value) :
    RunAlike l.worlds Eq (old.overwrite host source : WorldM η ν Value)
      (old.overwrite host' source) :=
  (l.release old).bind fun _ _ _ => l.copy source

theorem store (ctx : Context) (slot : Slot) (v : Value) :
    RunAlike l.worlds Eq (ctx.store host slot v : WorldM η ν Context)
      (ctx.store host' slot v) := by
  refine (RunAlike.lift _).bindEq fun old => ?_
  exact (l.release old).bind fun _ _ _ => .lift _

theorem copyInto (ctx : Context) (slot : Slot) (source : Value) :
    RunAlike l.worlds Eq (ctx.copyInto host slot source : WorldM η ν Context)
      (ctx.copyInto host' slot source) := by
  refine (RunAlike.lift _).bindEq fun old => ?_
  refine (l.overwrite old source).bindEq fun v => ?_
  exact .lift _

theorem copySlot (ctx : Context) (target source : Slot) :
    RunAlike l.worlds Eq (ctx.copySlot host target source : WorldM η ν Context)
      (ctx.copySlot host' target source) := by
  refine .ite (.pure rfl) ((RunAlike.lift _).bindEq fun v => ?_)
  refine (RunAlike.lift _).bindEq fun without => ?_
  exact (l.copyInto without target v).bindEq fun copied => .lift _

theorem bindArgs (ctx : Context) (first : Nat) (args : List Value) :
    RunAlike l.worlds Eq (ctx.bindArgs host first args : WorldM η ν Context)
      (ctx.bindArgs host' first args) := by
  induction args generalizing ctx first with
  | nil => exact .pure rfl
  | cons arg rest ih =>
    refine (l.copyInto ctx _ arg).bindEq fun ctx₁ => ?_
    exact ih ctx₁ (first + 1)

/-- A context that is cleaned is empty. -/
theorem cleanContext (ctx : Context) :
    RunAlike l.worlds (fun left left' => left = left' ∧ left.IsEmpty)
      (ctx.clean host : WorldM η ν Context) (ctx.clean host') := by
  have hall : RunAlike l.worlds _ (_ : WorldM η ν (List Value)) _ := l.releaseAll ctx.cells.toList
  rw [Value.releaseAll_eq_mapM, Value.releaseAll_eq_mapM, ← Vector.toList_toArray,
    ← Array.toList_mapM, ← Array.toList_mapM, ← Vector.toArray_mapM, ← Vector.toArray_mapM] at hall
  refine hall.of_map.of_map.bind fun cells cells' h => .pure ?_
  obtain ⟨hcells, hempty⟩ := h
  obtain rfl := Vector.toArray_inj.1 (Array.toList_inj.1 hcells)
  exact ⟨rfl, hempty⟩

end World

section Machine

variable {p : Platform η ν} {host' : Host η'} (l : Likeness p.host host')

/-- The machines that the likeness relates. -/
abbrev machines : Machine η ν → Machine η' ν → Prop := Machine.Alike l.states

theorem onWorld {act : WorldM η ν α} {act' : WorldM η' ν α} {A : α → α → Prop}
    (h : RunAlike l.worlds A act act') : RunAlike l.machines A (onWorld act) (onWorld act') := by
  rintro ⟨space, world, depth⟩ ⟨_, world', _⟩ ⟨rfl, hworld, rfl⟩
  have hend := h hworld
  simp only [Machine.onWorld, bind, Except.bind]
  generalize act world = r, act' world' = r' at hend
  cases hend with
  | ok answers states => exact .ok answers ⟨rfl, states, rfl⟩
  | fault f => exact .fault f

theorem onSpace (query : Namespace → Except Fault α) :
    RunAlike l.machines Eq (onSpace query) (onSpace query) := by
  refine RunAlike.get.bind fun m m' h => ?_
  rw [h.1]
  exact .lift _

theorem log (record : LogRecord) :
    RunAlike l.machines Eq (log record : MachineM η ν Unit) (log record) :=
  l.onWorld (l.write _)

/-! ### Evaluations -/

theorem readUnit (operand : Operand) :
    RunAlike l.worlds Eq (Caller.readUnit p operand) (Caller.readUnit (p.on host') operand) := by
  refine (l.askClean (.readOperand operand) trivial).bindEq fun held => ?_
  refine (l.copy held).bindEq fun v => ?_
  exact (l.release held).bind fun _ _ _ => .pure rfl

variable {call : Caller η ν} {call' : Caller η' ν}

/-- Callers whose calls run alike. -/
def Callers (call : Caller η ν) (call' : Caller η' ν) : Prop :=
  ∀ node args, RunAlike l.machines Eq (call node args) (call' node args)

/-- What evaluations are made of runs alike. -/
theorem congruence : Congruence p (p.on host') fun _ => RunAlike l.machines Eq where
  pure _ := .pure rfl
  bind := RunAlike.bindEq
  onSpace := l.onSpace
  log := l.log
  copy v := l.onWorld (l.copy v)
  release v := l.onWorld ((l.release v).mono fun _ _ h => h.1)
  readUnit operand := l.onWorld (l.readUnit operand)

/-- **One request of a body** is carried out alike. -/
theorem perform (hcall : l.Callers call call') {r : Request ν} (hr : r.AsksHost l.allowed)
    (ctx : Context) :
    RunAlike l.machines (fun x y => r.Alike l.answers x.1 y.1 ∧ x.2 = y.2)
      (r.perform p call ctx) (r.perform (p.on host') call' ctx) := by
  cases r with
  | context => exact .pure ⟨rfl, rfl⟩
  | poke slot v => exact (RunAlike.lift _).bindEq fun _ => .pure ⟨rfl, rfl⟩
  | store slot v => exact (l.onWorld (l.store ctx slot v)).bindEq fun _ => .pure ⟨rfl, rfl⟩
  | copySlot target source =>
    exact (l.onWorld (l.copySlot ctx target source)).bindEq fun _ => .pure ⟨rfl, rfl⟩
  | space => exact RunAlike.get.bind fun _ _ h => .pure ⟨h.1, rfl⟩
  | addChild parent name object =>
    refine RunAlike.get.bind fun m m' hm => ?_
    rw [hm.1]
    refine (RunAlike.lift _).bindEq fun added => ?_
    exact (RunAlike.set ⟨rfl, hm.2⟩).bind fun _ _ _ => .pure ⟨rfl, rfl⟩
  | setObject node object =>
    refine RunAlike.get.bind fun m m' hm => ?_
    rw [hm.1]
    refine (RunAlike.lift _).bindEq fun changed => ?_
    exact (RunAlike.set ⟨rfl, hm.2⟩).bind fun _ _ _ => .pure ⟨rfl, rfl⟩
  | host request => exact (l.onWorld (l.ask request hr)).bind fun _ _ h => .pure ⟨h, rfl⟩
  | release v => exact (l.onWorld (l.release v)).bind fun _ _ h => .pure ⟨h.1, rfl⟩
  | overwrite old source =>
    exact (l.onWorld (l.overwrite old source)).bindEq fun _ => .pure ⟨rfl, rfl⟩
  | depth => exact RunAlike.get.bind fun _ _ h => .pure ⟨h.2.2, rfl⟩
  | limit => exact .pure ⟨rfl, rfl⟩
  | evalMethod node args => exact (hcall node args).bindEq fun _ => .pure ⟨rfl, rfl⟩
  | evalNode node =>
    exact (l.congruence.evalNode hcall node).bindEq fun _ => .pure ⟨rfl, rfl⟩
  | matchesId device id =>
    exact (l.congruence.matchesId hcall device id).bindEq fun _ => .pure ⟨rfl, rfl⟩
  | findDevices id =>
    exact (l.congruence.findDevices hcall id).bindEq fun _ => .pure ⟨rfl, rfl⟩
  | note line => exact (l.onWorld (l.write _)).bind fun _ _ _ => .pure ⟨rfl, rfl⟩
  | history => exact RunAlike.get.bind fun _ _ h => .pure ⟨h.2.1.2, rfl⟩

/-- **A body** runs alike, by induction on its requests. -/
theorem run (hcall : l.Callers call call') {body : Body ν α}
    (hasks : body.Uses (Request.AsksHost l.allowed)) (hblind : body.Blind l.answers)
    (ctx : Context) :
    RunAlike l.machines Eq (body.run p call ctx) (body.run (p.on host') call' ctx) := by
  induction body generalizing ctx with
  | done result => exact .pure rfl
  | fail e => exact .pure rfl
  | fault f => exact .throw f
  | ask r next ih =>
    refine (l.perform hcall hasks.1 ctx).bind fun x y h => ?_
    obtain ⟨hanswer, hctx⟩ := h
    rw [← hblind.1 _ _ hanswer, ← hctx]
    exact ih x.1 (hasks.2 x.1) (hblind.2 x.1) x.2

/-! ### Calls -/

theorem permit (node : NodeId) (args : List Value) :
    RunAlike l.machines Eq (p.permit node args) ((p.on host').permit node args) := by
  refine (l.onSpace _).bindEq fun object => ?_
  cases object
  case method flags body =>
    refine .ite (.pure rfl) (RunAlike.get.bind fun m m' hm => ?_)
    rw [hm.2.2]
    refine .ite ((l.onSpace _).bindEq fun name => ?_) (.pure rfl)
    exact (l.log _).bind fun _ _ _ => .pure rfl
  all_goals exact .pure rfl

/-- What is written beside the slots of a context that is given out is written over. -/
theorem enter (node : NodeId) (flags : MethodFlags) (body : CodeRange) (args : List Value) :
    RunAlike l.worlds Eq (p.enter node flags body args)
      ((p.on host').enter node flags body args) := by
  refine (l.askClean .allocContext trivial).bind fun ctx ctx' h => ?_
  have hgiven : ({ ctx with argCount := flags.argCount, scope := node, body } : Context) =
      { ctx' with argCount := flags.argCount, scope := node, body } := by
    rw [show ctx.cells = ctx'.cells from h]
  rw [hgiven]
  exact l.bindArgs _ 0 args

theorem leave (status : Except Error Unit) (ctx : Context) :
    RunAlike l.worlds Eq (p.leave status ctx) ((p.on host').leave status ctx) := by
  have hend (result : Except Error Value) : RunAlike l.worlds Eq
      (do p.host.ask (.freeContext (← ctx.clean p.host)); return result)
      (do host'.ask (.freeContext (← ctx.clean host')); return result : WorldM η' ν _) := by
    refine (l.cleanContext ctx).bind fun left _ h => ?_
    obtain ⟨rfl, hempty⟩ := h
    exact (l.askClean (.freeContext left) hempty).bind fun _ _ _ => .pure rfl
  cases status with
  | error e => exact (RunAlike.pure rfl).bindEq hend
  | ok u =>
    refine (RunAlike.lift _).bindEq fun held => ?_
    have hcopy : RunAlike l.worlds Eq
        (.ok <$> held.copy p.host : WorldM η ν (Except Error Value)) (.ok <$> held.copy host') :=
      (l.copy held).map fun _ _ h => congrArg Except.ok h
    exact hcopy.bindEq hend

variable (hasks : ∀ ctx, (p.executor ctx).Uses (Request.AsksHost l.allowed))
  (hblind : ∀ ctx, (p.executor ctx).Blind l.answers)

include hasks hblind

theorem invoke (hcall : l.Callers call call') (node : NodeId) (flags : MethodFlags)
    (body : CodeRange) (args : List Value) :
    RunAlike l.machines Eq (p.invoke call node flags body args)
      ((p.on host').invoke call' node flags body args) := by
  refine (l.onWorld (l.enter node flags body args)).bindEq fun ctx => ?_
  refine (l.onSpace _).bindEq fun name => ?_
  refine RunAlike.get.bind fun m m' hm => ?_
  rw [hm.2.2]
  refine (l.log _).bind fun _ _ _ => ?_
  have hdepth (f : Nat → Nat) : RunAlike l.machines Eq
      (modify fun m : Machine η ν => { m with depth := f m.depth })
      (modify fun m : Machine η' ν => { m with depth := f m.depth }) :=
    .modify fun _ _ hm => ⟨hm.1, hm.2.1, congrArg f hm.2.2⟩
  refine (hdepth (· + 1)).bind fun _ _ _ => ?_
  refine (l.run hcall (hasks ctx) (hblind ctx) ctx).bindEq fun ended => ?_
  refine (hdepth (· - 1)).bind fun _ _ _ => ?_
  refine (l.onWorld (l.leave ended.1 ended.2)).bindEq fun result => ?_
  refine (l.onSpace _).bindEq fun name' => ?_
  exact (l.log _).bind fun _ _ _ => .pure rfl

/-- **Calls run alike**, by induction on the levels that may still be entered. -/
theorem callWithin (room : Nat) :
    l.Callers (p.callWithin room) ((p.on host').callWithin room) := by
  induction room with
  | zero =>
    intro node args
    rw [Platform.callWithin.eq_def, Platform.callWithin.eq_def]
    refine (l.permit node args).bindEq fun admitted => ?_
    cases admitted <;> exact .pure rfl
  | succ room ih =>
    intro node args
    rw [Platform.callWithin.eq_def, Platform.callWithin.eq_def]
    refine (l.permit node args).bindEq fun admitted => ?_
    cases admitted with
    | error e => exact .pure rfl
    | ok method => exact l.invoke hasks hblind ih node method.1 method.2 args

theorem caller : l.Callers p.caller (p.on host').caller := by
  intro node args
  refine RunAlike.get.bind fun m m' hm => ?_
  rw [hm.2.2]
  exact l.callWithin hasks hblind _ node args

omit hasks hblind

/-! ### Embeddings -/

theorem releaseName (node : NodeId) :
    RunAlike l.machines Eq (p.releaseName node) ((p.on host').releaseName node) := by
  refine (l.onSpace _).bindEq fun object => ?_
  cases object
  case name value =>
    refine (l.onWorld (l.release value)).bind fun left _ h => ?_
    obtain ⟨rfl, -⟩ := h
    refine RunAlike.get.bind fun m m' hm => ?_
    rw [hm.1]
    refine (RunAlike.lift _).bindEq fun space => ?_
    exact (RunAlike.set ⟨rfl, hm.2⟩).bind fun _ _ _ => .pure rfl
  all_goals exact .pure rfl

theorem shutdown : RunAlike l.machines Eq p.shutdown (p.on host').shutdown := by
  have all (nodes : List NodeId) : RunAlike l.machines Eq (p.releaseNames nodes)
      ((p.on host').releaseNames nodes) := by
    induction nodes with
    | nil => exact .pure rfl
    | cons node rest ih =>
      refine (l.releaseName node).bindEq fun released => ?_
      exact ih.bindEq fun _ => .pure rfl
  refine (l.onSpace _).bindEq fun nodes => ?_
  exact (all nodes).bindEq fun _ => l.log _

/-- **Whole embeddings run alike.** -/
theorem embedding (hasks : ∀ ctx, (p.executor ctx).Uses (Request.AsksHost l.allowed))
    (hblind : ∀ ctx, (p.executor ctx).Blind l.answers) {e : Embedding ν α}
    (heasks : e.All (Body.Uses (Request.AsksHost l.allowed)))
    (heblind : e.All (Body.Blind l.answers)) (ctx : Context) :
    RunAlike l.machines Eq (e.run p ctx) (e.run (p.on host') ctx) := by
  have hcaller := l.caller hasks hblind
  induction e generalizing ctx with
  | last body => exact l.run hcaller heasks heblind ctx
  | renew body next ih =>
    refine (l.run hcaller heasks.1 heblind.1 ctx).bindEq fun ended => ?_
    refine l.shutdown.bind fun _ _ _ => ?_
    refine RunAlike.bind (A := Eq) (.modify fun _ _ hm => ⟨hm.1, hm.2.1, rfl⟩) fun _ _ _ => ?_
    exact ih ended.1 (heasks.2 ended.1) (heblind.2 ended.1) ended.2

end Machine
end Likeness
end Acpi
