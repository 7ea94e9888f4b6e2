/-
# Relations that evaluations keep

A computation keeps a relation when the machine after it is always related to
the machine before it (`Keeps`).  What is made of calls keeps whatever the calls
keep: comparing and finding devices (`Caller.findDevices_keeps`), and, for a
relation that takes no notice of housekeeping and of what bodies may do on their
own (`Tolerant`), evaluating nodes and running bodies (`Tolerant.run_keeps`).  If an
admitted call keeps what the calls of its body keep, every call does
(`Tolerant.callWithin_keeps`).
-/

import Acpi.Proofs.Storage.Housekeeping
import Acpi.Proofs.Evaluation

namespace Acpi

variable {η ν α : Type}

open Effect Machine

/-- A computation after which the machine is related to what it was before. -/
def Keeps (R : Machine η ν → Machine η ν → Prop) (act : MachineM η ν α) : Prop :=
  ∀ ⦃m a m'⦄, act m = .ok (a, m') → R m m'

/-- A relation between the machine before and after which can be chained. -/
structure Chain (R : Machine η ν → Machine η ν → Prop) : Prop where
  refl : ∀ m, R m m
  trans : ∀ {m₀ m₁ m₂}, R m₀ m₁ → R m₁ m₂ → R m₀ m₂

namespace Chain

variable {R : Machine η ν → Machine η ν → Prop} {p : Platform η ν} {call : Caller η ν}

theorem matchesId_keeps (chain : Chain R) {device : NodeId} {id : EisaId}
    (h : ∀ name, Keeps R (call.objectMatches p device name id)) :
    Keeps R (call.matchesId p device id) := by
  intro m b m' hrun
  rcases Caller.matchesId_eq_ok.1 hrun with ⟨-, hfirst⟩ | ⟨m₁, hfirst, hsecond⟩
  · exact h _ hfirst
  · exact chain.trans (h _ hfirst) (h _ hsecond)

theorem findDevices_keeps (chain : Chain R) {id : EisaId}
    (h : ∀ device name, Keeps R (call.objectMatches p device name id)) :
    Keeps R (call.findDevices p id) := by
  have keep (devices : List NodeId) : Keeps R (call.keepMatching p id devices) := by
    induction devices with
    | nil =>
      intro m found m' hrun
      obtain ⟨-, rfl⟩ := Caller.keepMatching_nil_eq_ok.1 hrun
      exact chain.refl _
    | cons device rest ih =>
      intro m found m' hrun
      obtain ⟨b, m₁, others, hmatches, hrest, -⟩ := Caller.keepMatching_cons_eq_ok.1 hrun
      exact chain.trans (chain.matchesId_keeps (h device) hmatches) (ih hrest)
  intro m found m' hrun
  obtain ⟨nodes, -, hkeep⟩ := Caller.findDevices_eq_ok.1 hrun
  exact keep _ hkeep

theorem shutdown_keeps (chain : Chain R) (h : ∀ node, Keeps R (p.releaseName node))
    (hlog : ∀ m count, R m (m.logged (.released count))) : Keeps R p.shutdown := by
  have all (nodes : List NodeId) : Keeps R (p.releaseNames nodes) := by
    induction nodes with
    | nil =>
      intro m count m' hrun
      obtain ⟨-, rfl⟩ :=
        Prod.mk.inj (pure_eq_ok.1 (by simpa only [Platform.releaseNames] using hrun))
      exact chain.refl _
    | cons node rest ih =>
      intro m count m' hrun
      simp only [Platform.releaseNames, bind_eq_ok] at hrun
      obtain ⟨released, m₁, hone, others, m₂, hrest, hrun⟩ := hrun
      obtain ⟨-, rfl⟩ := Prod.mk.inj (pure_eq_ok.1 hrun)
      exact chain.trans (h node hone) (ih hrest)
  intro m u m' hrun
  simp only [Platform.shutdown, bind_eq_ok, onSpace_eq_ok, log_eq_ok, Prod.mk.injEq] at hrun
  obtain ⟨nodes, _, ⟨-, rfl⟩, count, m₁, hall, -, rfl⟩ := hrun
  exact chain.trans (all nodes hall) (hlog m₁ count)

end Chain

/-- The requests of a body that satisfy a condition, whatever the answers are. -/
def Body.Uses (allowed : Request ν → Prop) : Body ν α → Prop
  | done _ | fail _ | fault _ => True
  | ask r next => allowed r ∧ ∀ answer, (next answer).Uses allowed

theorem Body.uses_of_forall {allowed : Request ν → Prop} (h : ∀ r, allowed r) (body : Body ν α) :
    body.Uses allowed := by
  induction body with
  | done | fail | fault => trivial
  | ask r next ih => exact ⟨h r, ih⟩

/-- A request that is a call to the host is one of the allowed calls. -/
def Request.AsksHost (allowed : HostCall → Prop) : Request ν → Prop
  | host call => allowed call
  | _ => True

theorem Body.uses_asksHost_true (body : Body ν α) :
    body.Uses (Request.AsksHost fun _ => True) :=
  uses_of_forall (fun r => by cases r <;> trivial) body

/-- A relation that takes no notice of housekeeping, of refusals, and of what
bodies do on their own, if it is allowed: calls to the host, notes, and changes of the
namespace. -/
structure Tolerant (host : Host η) (allowed : Request ν → Prop)
    (R : Machine η ν → Machine η ν → Prop) : Prop extends Chain R where
  housekeeping : ∀ {m : Machine η ν} {w}, m.world.Grows Entry.Housekeeping w →
    R m { m with world := w }
  refusal : ∀ (m : Machine η ν) {record : LogRecord}, record.IsRefusal → R m (m.logged record)
  hostCall : ∀ {m : Machine η ν} {call answer w}, allowed (.host call) →
    host.ask call m.world = .ok (answer, w) → R m { m with world := w }
  note : ∀ (m : Machine η ν) line, R m { m with world := m.world.add (.note line) }
  addChild : ∀ {m : Machine η ν} {parent name object id grown},
    allowed (.addChild parent name object) →
    m.space.addChild parent name object = .ok (id, grown) → R m { m with space := grown }
  setObject : ∀ {m : Machine η ν} {node object changed}, allowed (.setObject node object) →
    m.space.setObject node object = .ok changed → R m { m with space := changed }

namespace Tolerant

variable {R : Machine η ν → Machine η ν → Prop} {allowed : Request ν → Prop} {p : Platform η ν}
  {call : Caller η ν}

theorem refused (tolerant : Tolerant p.host allowed R) {m m' : Machine η ν} (h : m.Refused m') :
    R m m' := by
  rcases h with rfl | ⟨record, hrefusal, rfl⟩
  · exact tolerant.refl _
  · exact tolerant.refusal m hrefusal

theorem evalNode_keeps (tolerant : Tolerant p.host allowed R)
    (hcall : ∀ node args, Keeps R (call node args)) (node : NodeId) :
    Keeps R (call.evalNode p node) := by
  intro m r m' h
  rcases Caller.evalNode_cases h with h | ⟨value, v, w, -, hcopy, -, rfl⟩ |
    ⟨object, operand, v, w, -, -, hread, -, rfl⟩ | ⟨e, -, hrefused⟩
  · exact hcall _ _ h
  · exact tolerant.housekeeping (Value.grows_of_copy value hcopy)
  · exact tolerant.housekeeping (Caller.grows_of_readUnit hread)
  · exact tolerant.refused hrefused

theorem objectMatches_keeps (tolerant : Tolerant p.host allowed R)
    (hcall : ∀ node args, Keeps R (call node args)) (device : NodeId) (name : String)
    (id : EisaId) : Keeps R (call.objectMatches p device name id) := by
  intro m b m' h
  rcases Caller.objectMatches_cases h with ⟨-, rfl⟩ |
    ⟨node, v, m₁, left, w, heval, hrelease, -, rfl⟩ | ⟨node, e, m₁, record, heval, hrefusal, -, rfl⟩
  · exact tolerant.refl _
  · exact tolerant.trans (tolerant.evalNode_keeps hcall node heval)
      (tolerant.housekeeping (Value.grows_of_release v hrelease))
  · exact tolerant.trans (tolerant.evalNode_keeps hcall node heval)
      (tolerant.refusal m₁ hrefusal)

theorem search_keeps (tolerant : Tolerant p.host allowed R)
    (hcall : ∀ node args, Keeps R (call node args)) (id : EisaId) :
    Keeps R (call.findDevices p id) :=
  tolerant.findDevices_keeps fun device name =>
    tolerant.objectMatches_keeps hcall device name id

/-- **One request of a body** keeps what the calls keep. -/
theorem perform_keeps (tolerant : Tolerant p.host allowed R)
    (hcall : ∀ node args, Keeps R (call node args)) {r : Request ν} (hr : allowed r)
    (ctx : Context) : Keeps R (r.perform p call ctx) := by
  rintro m ⟨answer, ctx'⟩ m' h
  replace h := Request.perform_eq_ok.1 h
  cases r with
  | context | space | depth | limit | history =>
    obtain ⟨-, -, rfl⟩ := h
    exact tolerant.refl _
  | poke slot v =>
    obtain ⟨-, rfl⟩ := h
    exact tolerant.refl _
  | store slot v =>
    obtain ⟨w, hstore, rfl⟩ := h
    exact tolerant.housekeeping (Context.grows_of_store hstore)
  | copySlot target source =>
    obtain ⟨w, hcopy, rfl⟩ := h
    exact tolerant.housekeeping (Context.grows_of_copySlot hcopy)
  | release v =>
    obtain ⟨w, hrelease, -, rfl⟩ := h
    exact tolerant.housekeeping (Value.grows_of_release v hrelease)
  | overwrite old source =>
    obtain ⟨w, hover, -, rfl⟩ := h
    exact tolerant.housekeeping (Value.grows_of_overwrite hover)
  | host request =>
    obtain ⟨w, hask, -, rfl⟩ := h
    exact tolerant.hostCall hr hask
  | note line =>
    obtain ⟨-, rfl⟩ := h
    exact tolerant.note m line
  | addChild parent name object =>
    obtain ⟨grown, hadd, -, rfl⟩ := h
    exact tolerant.addChild hr hadd
  | setObject node object =>
    obtain ⟨changed, hset, -, rfl⟩ := h
    exact tolerant.setObject hr hset
  | evalMethod node args => exact hcall node args h.1
  | evalNode node => exact tolerant.evalNode_keeps hcall node h.1
  | matchesId device id =>
    exact tolerant.matchesId_keeps
      (fun name => tolerant.objectMatches_keeps hcall device name id) h.1
  | findDevices id => exact tolerant.search_keeps hcall id h.1

/-- **A body** keeps what the calls keep, by induction on its requests. -/
theorem run_keeps (tolerant : Tolerant p.host allowed R)
    (hcall : ∀ node args, Keeps R (call node args)) {body : Body ν α}
    (hbody : body.Uses allowed) (ctx : Context) :
    Keeps R (body.run p call ctx) := by
  rintro m ⟨status, ctx'⟩ m' h
  induction body generalizing ctx m with
  | done result =>
    obtain ⟨-, -, rfl⟩ := Body.run_done_eq_ok.1 h
    exact tolerant.refl _
  | fail e =>
    obtain ⟨-, -, rfl⟩ := Body.run_fail_eq_ok.1 h
    exact tolerant.refl _
  | fault f => exact absurd h Body.run_fault_eq_ok
  | ask r next ih =>
    obtain ⟨answer, ctx₁, m₁, hperform, hrest⟩ := Body.run_ask_eq_ok.1 h
    exact tolerant.trans (tolerant.perform_keeps hcall hbody.1 ctx hperform)
      (ih answer (hbody.2 answer) ctx₁ hrest)

/-- **Every call** keeps what an admitted call keeps, by induction on the levels that are
left. -/
theorem callWithin_keeps (tolerant : Tolerant p.host allowed R)
    (hinvoke : ∀ {call : Caller η ν}, (∀ node args, Keeps R (call node args)) →
      ∀ {node flags body args m m' r}, m.space.object node = .ok (.method flags body) →
        m.depth < p.maxCallDepth.toNat → p.invoke call node flags body args m = .ok (r, m') →
          R m m')
    (room : Nat) (node : NodeId) (args : List Value) :
    Keeps R (p.callWithin room node args) := by
  induction room generalizing node args with
  | zero =>
    intro m r m' h
    rcases Platform.callWithin_cases h with ⟨e, -, hrefused⟩ | ⟨_, _, _, hroom, _⟩
    · exact tolerant.refused hrefused
    · cases hroom
  | succ room ih =>
    intro m r m' h
    rcases Platform.callWithin_cases h with ⟨e, -, hrefused⟩ |
      ⟨below, flags, body, hroom, hobject, -, hdepth, hdone⟩
    · exact tolerant.refused hrefused
    · obtain rfl := Nat.succ.inj hroom
      exact hinvoke ih hobject hdepth hdone

theorem caller_keeps (tolerant : Tolerant p.host allowed R)
    (hinvoke : ∀ {call : Caller η ν}, (∀ node args, Keeps R (call node args)) →
      ∀ {node flags body args m m' r}, m.space.object node = .ok (.method flags body) →
        m.depth < p.maxCallDepth.toNat → p.invoke call node flags body args m = .ok (r, m') →
          R m m')
    (node : NodeId) (args : List Value) : Keeps R (p.caller node args) := by
  intro m r m' h
  simp only [Platform.caller, bind_eq_ok, get_eq_ok] at h
  obtain ⟨_, _, ⟨rfl, rfl⟩, h⟩ := h
  exact tolerant.callWithin_keeps hinvoke _ node args h

/-- What is a relation of the namespaces alone, calls keep as bodies do. -/
theorem caller_keeps_of_space {S : Namespace → Namespace → Prop}
    (tolerant : Tolerant p.host allowed fun m m' => S m.space m'.space)
    (hbodies : ∀ ctx, (p.executor ctx).Uses allowed) (node : NodeId) (args : List Value) :
    Keeps (fun m m' => S m.space m'.space) (p.caller node args) := by
  refine tolerant.caller_keeps ?_ node args
  intro call hcall node flags body args m m' r _ _ h
  obtain ⟨ctx, w, name, status, ctx', m₁, w₁, name', -, -, hrun, -, -, rfl⟩ :=
    Platform.invoke_eq_ok.1 h
  have hran := tolerant.run_keeps hcall (hbodies ctx) ctx hrun
  exact hran

end Tolerant
end Acpi
