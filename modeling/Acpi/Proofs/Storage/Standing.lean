/-
# What evaluations put out

An evaluation adds the blocks of its value to what stands, and nothing when it fails,
however blocks are weighed (`Measure.Adds`).  The proof follows the call: its context takes
over what is copied into it (`Measure.enter`), the body moves blocks between the context
and the values that it holds (`Measure.surplus_run`), and what is left in the context is
taken back (`Measure.leave`).

The host is to give contexts out empty and to read field units as values without storage
(`Host.ReadsBare`).  The bodies are to be frugal in the namespaces that count as good, and
what makes a namespace good is to last (`Namespace.Lasting`), so that it is good again when
the next body starts.
-/

import Acpi.Proofs.Keeping
import Acpi.Proofs.Storage.Measure

namespace Acpi

variable {η ν α : Type}

open Effect Machine

/-- What a request reads from field units is without storage. -/
def Request.ReadsBare (host : Host η) (ns : Namespace) : Request ν → Prop
  | evalNode node => ∀ object, ns.object node = .ok object → object.IsUnit → host.ReadsBare
  | matchesId .. | findDevices _ => host.ReadsBare
  | _ => True

theorem Host.ReadsBare.request {host : Host η} (h : host.ReadsBare) (ns : Namespace)
    (r : Request ν) : r.ReadsBare host ns := by
  cases r <;> first | trivial | exact h | exact fun _ _ _ => h

namespace Measure

variable {p : Platform η ν} (M : Measure p.host ν)

/-- A computation that, begun in a good namespace, ends in one and adds the blocks of its
answer to what stands. -/
def Adds (good : Namespace → Prop) (act : MachineM η ν α) (gain : α → List Block) : Prop :=
  ∀ ⦃m a m'⦄, good m.space → act m = .ok (a, m') →
    good m'.space ∧ M.standing m' = M.standing m + tally M.weigh (gain a)

/-- A good namespace is still good, and what stands is what stood before. -/
def Settles (good : Namespace → Prop) (m m' : Machine η ν) : Prop :=
  good m.space → good m'.space ∧ M.standing m' = M.standing m

variable {M} {good : Namespace → Prop} {m m' : Machine η ν}

theorem settles_chain : Chain (M.Settles good) where
  refl _ hm := ⟨hm, rfl⟩
  trans h h' hm := by
    obtain ⟨hm₁, h₁⟩ := h hm
    obtain ⟨hm₂, h₂⟩ := h' hm₁
    exact ⟨hm₂, h₂.trans h₁⟩

theorem settles_logged (m : Machine η ν) (record : LogRecord) :
    M.Settles good m (m.logged record) := fun hm => by
  refine ⟨hm, ?_⟩
  simp only [standing, logged, M.log]

/-- A refusal adds nothing. -/
theorem adds_refused (h : m.Refused m') (hm : good m.space) (e : Error) :
    good m'.space ∧ M.standing m' = M.standing m + tally M.weigh (resultDemand (.error e)) := by
  have hsettles : M.Settles good m m' := by
    rcases h with rfl | ⟨record, -, rfl⟩
    · exact settles_chain.refl m'
    · exact settles_logged m record
  obtain ⟨hm', h₁⟩ := hsettles hm
  refine ⟨hm', ?_⟩
  rw [h₁, resultDemand, tally_nil]
  omega

/-! ### Nodes and devices -/

/-- Reading a field unit puts the blocks of its value out: what the host gave for it is
released again. -/
theorem readUnit (bare : p.host.ReadsBare) {operand : Operand} {w w' : World η ν} {v : Value}
    (h : Caller.readUnit p operand w = .ok (v, w')) :
    M.out w' = M.out w + tally M.weigh v.demand := by
  rw [Caller.readUnit, bind_eq_ok] at h
  obtain ⟨held, _, hask, h⟩ := h
  obtain ⟨state, hstate, rfl⟩ := Host.ask_eq_ok.1 hask
  simp only [bind_eq_ok, pure_eq_ok] at h
  obtain ⟨_, w₁, hcopy, left, _, hrelease, h⟩ := h
  obtain ⟨rfl, rfl⟩ := Prod.mk.inj h
  have hheld : held.demand = [] := Value.demand_of_storage_eq_zero (bare _ _ _ _ hstate)
  have h₁ := M.called hstate
  have h₂ := M.copy hcopy
  have h₃ := M.release hrelease
  rw [Value.demand_of_copy hcopy]
  simp only [HostCall.gain, HostCall.taken?, HostCall.givenBack?, Option.toList, tally_nil] at h₁
  simp only [hheld, tally_nil] at *
  omega

variable {call : Caller η ν}

/-- **Evaluating a node** adds the blocks of its value, if calls do. -/
theorem evalNode (hcall : ∀ node args, M.Adds good (call node args) resultDemand) {node : NodeId}
    {r : Except Error Value}
    (bare : ∀ object, m.space.object node = .ok object → object.IsUnit → p.host.ReadsBare)
    (hm : good m.space) (h : call.evalNode p node m = .ok (r, m')) :
    good m'.space ∧ M.standing m' = M.standing m + tally M.weigh (resultDemand r) := by
  rcases Caller.evalNode_cases h with h | ⟨value, v, w, -, hcopy, rfl, rfl⟩ |
    ⟨object, operand, v, w, hobject, hunit, hread, rfl, rfl⟩ | ⟨e, rfl, hrefused⟩
  · exact hcall _ _ hm h
  · have h₁ := M.copy hcopy
    rw [← Value.demand_of_copy hcopy] at h₁
    refine ⟨hm, ?_⟩
    simp only [standing, resultDemand]
    omega
  · have h₁ := readUnit (M := M) (bare object hobject hunit) hread
    refine ⟨hm, ?_⟩
    simp only [standing, resultDemand]
    omega
  · exact adds_refused hrefused hm e

theorem objectMatches_settles (bare : p.host.ReadsBare)
    (hcall : ∀ node args, M.Adds good (call node args) resultDemand) (device : NodeId)
    (name : String) (id : EisaId) :
    Keeps (M.Settles good) (call.objectMatches p device name id) := by
  intro m b m' h hm
  rcases Caller.objectMatches_cases h with ⟨-, rfl⟩ |
    ⟨node, v, m₁, left, w, heval, hrelease, -, rfl⟩ | ⟨node, e, m₁, record, heval, -, -, rfl⟩
  · exact ⟨hm, rfl⟩
  · obtain ⟨hm₁, h₁⟩ := evalNode hcall (fun _ _ _ => bare) hm heval
    have h₂ := M.release hrelease
    refine ⟨hm₁, ?_⟩
    simp only [standing, resultDemand] at h₁ ⊢
    omega
  · obtain ⟨hm₁, h₁⟩ := evalNode hcall (fun _ _ _ => bare) hm heval
    obtain ⟨hm', h₂⟩ := settles_logged (M := M) m₁ record hm₁
    refine ⟨hm', ?_⟩
    simp only [resultDemand, tally_nil] at h₁
    omega

theorem matchesId_settles (bare : p.host.ReadsBare)
    (hcall : ∀ node args, M.Adds good (call node args) resultDemand) (device : NodeId)
    (id : EisaId) : Keeps (M.Settles good) (call.matchesId p device id) :=
  settles_chain.matchesId_keeps fun name => objectMatches_settles bare hcall device name id

theorem findDevices_settles (bare : p.host.ReadsBare)
    (hcall : ∀ node args, M.Adds good (call node args) resultDemand) (id : EisaId) :
    Keeps (M.Settles good) (call.findDevices p id) :=
  settles_chain.findDevices_keeps fun device name =>
    objectMatches_settles bare hcall device name id

/-! ### Bodies -/

variable {ctx ctx' : Context} {held : List Value}

/-- A frugal body changes the namespace by adding nodes at most. -/
theorem good_own (lasting : Namespace.Lasting good) {r : Request ν} {answer : r.Answer}
    (hown : ¬r.Evaluates) (howned : r.Owned held) (hm : good m.space)
    (h : r.perform p call ctx m = .ok ((answer, ctx'), m')) : good m'.space := by
  replace h := Request.perform_eq_ok.1 h
  cases r with
  | poke | setObject | host => exact howned.elim
  | evalMethod | evalNode | matchesId | findDevices => exact absurd trivial hown
  | addChild parent name object =>
    obtain ⟨grown, hadd, -, rfl⟩ := h
    exact lasting.addChild hm hadd
  | context | space | history | depth | limit =>
    obtain ⟨-, -, rfl⟩ := h
    exact hm
  | note =>
    obtain ⟨-, rfl⟩ := h
    exact hm
  | store | copySlot =>
    obtain ⟨w, -, rfl⟩ := h
    exact hm
  | release | overwrite =>
    obtain ⟨w, -, -, rfl⟩ := h
    exact hm

/-- The value that an evaluation adds to what stands is held from then on. -/
theorem surplus_takeOver {r : Except Error Value}
    (h : M.standing m' = M.standing m + tally M.weigh (resultDemand r)) :
    M.surplus m' ctx (r.toOption.toList ++ held) = M.surplus m ctx held := by
  simp only [surplus, tally_takeOver, h]
  omega

/-- **One request of a frugal body** leaves the surplus as it was. -/
theorem surplus_perform (lasting : Namespace.Lasting good)
    (hcall : ∀ node args, M.Adds good (call node args) resultDemand) {r : Request ν}
    {answer : r.Answer} (bare : r.ReadsBare p.host m.space) (howned : r.Owned held)
    (hm : good m.space) (h : r.perform p call ctx m = .ok ((answer, ctx'), m')) :
    good m'.space ∧ M.surplus m' ctx' (r.heldAfter held answer) = M.surplus m ctx held := by
  by_cases hown : r.Evaluates
  · replace h := Request.perform_eq_ok.1 h
    cases r with
    | evalMethod node args =>
      obtain ⟨heval, rfl⟩ := h
      obtain ⟨hm', h₁⟩ := hcall node args hm heval
      exact ⟨hm', Request.heldAfter_evalMethod held node args answer ▸ surplus_takeOver h₁⟩
    | evalNode node =>
      obtain ⟨heval, rfl⟩ := h
      obtain ⟨hm', h₁⟩ := evalNode hcall bare hm heval
      exact ⟨hm', Request.heldAfter_evalNode held node answer ▸ surplus_takeOver h₁⟩
    | matchesId device id =>
      obtain ⟨hmatches, rfl⟩ := h
      obtain ⟨hm', h₁⟩ := matchesId_settles bare hcall device id hmatches hm
      exact ⟨hm', by rw [surplus, h₁]; rfl⟩
    | findDevices id =>
      obtain ⟨hfind, rfl⟩ := h
      obtain ⟨hm', h₁⟩ := findDevices_settles bare hcall id hfind hm
      exact ⟨hm', by rw [surplus, h₁]; rfl⟩
    | _ => exact hown.elim
  · exact ⟨good_own lasting hown howned hm h, M.surplus_own hown howned h⟩

/-- **A frugal body** leaves everything that it has held in its context, by induction on
its requests. -/
theorem surplus_run (bare : p.host.ReadsBare) (lasting : Namespace.Lasting good)
    (hcall : ∀ node args, M.Adds good (call node args) resultDemand) {body : Body ν α}
    {status : Except Error α} (hfrugal : body.Frugal p call held ctx m) (hm : good m.space)
    (h : body.run p call ctx m = .ok ((status, ctx'), m')) :
    good m'.space ∧ M.surplus m' ctx' [] = M.surplus m ctx held := by
  induction body generalizing held ctx m with
  | done result =>
    obtain ⟨-, rfl, rfl⟩ := Body.run_done_eq_ok.1 h
    exact ⟨hm, by rw [surplus, surplus, Value.demandAll_of_storageAll_eq_zero hfrugal]; rfl⟩
  | fail e =>
    obtain ⟨-, rfl, rfl⟩ := Body.run_fail_eq_ok.1 h
    exact ⟨hm, by rw [surplus, surplus, Value.demandAll_of_storageAll_eq_zero hfrugal]; rfl⟩
  | fault f => exact absurd h Body.run_fault_eq_ok
  | ask r next ih =>
    obtain ⟨answer, ctx₁, m₁, hperform, hrest⟩ := Body.run_ask_eq_ok.1 h
    obtain ⟨howned, hnext⟩ := hfrugal
    obtain ⟨hm₁, h₁⟩ := surplus_perform (M := M) lasting hcall (bare.request _ _) howned hm hperform
    obtain ⟨hm', h₂⟩ := ih answer (hnext _ _ _ hperform) hm₁ hrest
    exact ⟨hm', h₂.trans h₁⟩

/-! ### Calls -/

section

variable (hempty : p.host.GivesEmpty) (bare : p.host.ReadsBare) (lasting : Namespace.Lasting good)
include hempty bare lasting

theorem invoke_adds (hfrugal : ∀ ctx m, good m.space → (p.executor ctx).Frugal p call [] ctx m)
    (hcall : ∀ node args, M.Adds good (call node args) resultDemand) (node : NodeId)
    (flags : MethodFlags) (body : CodeRange) (args : List Value) :
    M.Adds good (p.invoke call node flags body args) resultDemand := by
  intro m r m' hm h
  obtain ⟨ctx, w, name, status, ctx', m₁, w₁, name', henter, -, hrun, hleave, -, rfl⟩ :=
    Platform.invoke_eq_ok.1 h
  have h₁ := (M.enter henter).2 hempty
  obtain ⟨hm₁, h₂⟩ := surplus_run (M := M) bare lasting hcall
    (hfrugal ctx ⟨m.space, w.add (.log (.enter name m.depth flags.argCount)), m.depth + 1⟩ hm)
    hm hrun
  have h₃ := M.leave hleave
  refine ⟨hm₁, ?_⟩
  simp only [surplus, standing, M.log, Value.demandAll_nil, tally_nil] at h₂ ⊢
  omega

/-- **What a call adds to what stands** is the blocks of its value, at every depth,
whether it is refused, fails or succeeds. -/
theorem callWithin_adds (hfrugal : p.Frugal good) (room : Nat) (node : NodeId)
    (args : List Value) : M.Adds good (p.callWithin room node args) resultDemand := by
  induction room generalizing node args with
  | zero =>
    intro m r m' hm h
    rcases Platform.callWithin_cases h with ⟨e, rfl, hrefused⟩ | ⟨_, _, _, hroom, _⟩
    · exact adds_refused hrefused hm e
    · cases hroom
  | succ room ih =>
    intro m r m' hm h
    rcases Platform.callWithin_cases h with ⟨e, rfl, hrefused⟩ |
      ⟨below, flags, body, hroom, -, -, -, hinvoke⟩
    · exact adds_refused hrefused hm e
    · obtain rfl := Nat.succ.inj hroom
      exact invoke_adds hempty bare lasting (hfrugal room) ih node flags body args hm hinvoke

theorem caller_adds (hfrugal : p.Frugal good) (node : NodeId) (args : List Value) :
    M.Adds good (p.caller node args) resultDemand := by
  intro m r m' hm h
  simp only [Platform.caller, bind_eq_ok, get_eq_ok] at h
  obtain ⟨_, _, ⟨rfl, rfl⟩, h⟩ := h
  exact callWithin_adds hempty bare lasting hfrugal _ node args hm h

end

end Measure
end Acpi
