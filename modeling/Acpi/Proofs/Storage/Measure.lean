/-
# Measuring what is out

What is out is measured by something that goes up by the weight of a block when the
block is asked for, goes down by it when the block is given back, and takes no notice of
anything else (`Measure`).  A host can keep count of it, and the journal tells it on any
host.  Then every step of an evaluation that gives blocks out or takes them back says
where they have gone:

| step | what is out grows by |
| --- | --- |
| releasing a value | `-` the value |
| copying a value | the value |
| putting a value into a slot | what the context grows by, `-` the value |
| copying into a slot | what the context grows by |
| setting a context up | the context |
| handing a context back | `-` the context, `+` the value returned |

What is out and belongs to no named value stands (`Measure.standing`); what stands and
belongs neither to a context nor to a value that is held is the surplus
(`Measure.surplus`).  What a frugal body does on its own moves blocks between its context,
the values that it holds, and the named values, and leaves the surplus as it is
(`Measure.surplus_own`).
-/

import Acpi.Proofs.Evaluation
import Acpi.Proofs.Storage.Frugal
import Acpi.Proofs.Storage.Weight

namespace Acpi

variable {η ν : Type} {host : Host η}

open Effect

/-- What is out grows by this much with a call. -/
def HostCall.gain (weigh : Block → Nat) (call : HostCall) : Int :=
  tally weigh call.taken?.toList - tally weigh call.givenBack?.toList

/-- A measure of what is out on a host. -/
structure Measure (host : Host η) (ν : Type) where
  /-- What a block weighs. -/
  weigh : Block → Nat
  /-- What is out. -/
  out : World η ν → Int
  called : ∀ {call : HostCall} {w : World η ν} {answer : call.Answer} {state : η},
    host call w.host = .ok (answer, state) →
      out (w.called call state) = out w + call.gain weigh
  log : ∀ (w : World η ν) (record : LogRecord), out (w.add (.log record)) = out w
  note : ∀ (w : World η ν) (line : ν), out (w.add (.note line)) = out w

/-- The block that is asked for in an entry. -/
def Entry.taken? : Entry ν → Option Block
  | .host call => call.taken?
  | .log _ | .note _ => none

/-- The block that is given back in an entry. -/
def Entry.givenBack? : Entry ν → Option Block
  | .host call => call.givenBack?
  | .log _ | .note _ => none

section

variable {α : Type} (weigh : Block → Nat) (f : α → Option Block) (l : List α) (a : α)

/-- What one more thing adds to the blocks found in a list. -/
theorem tally_filterMap_cons : tally weigh ((a :: l).filterMap f) =
    tally weigh (f a).toList + tally weigh (l.filterMap f) := by
  rw [← tally_append]
  cases h : f a <;> simp [h]

theorem tally_filterMap_concat : tally weigh ((l ++ [a]).filterMap f) =
    tally weigh (l.filterMap f) + tally weigh (f a).toList := by
  rw [List.filterMap_append, tally_append, tally_filterMap_cons, List.filterMap_nil, tally_nil,
    Nat.add_zero]

end

namespace Measure

/-- What is out by what is written down. -/
def ofJournal (host : Host η) (weigh : Block → Nat) : Measure host ν where
  weigh := weigh
  out w := tally weigh (w.journal.toList.filterMap Entry.taken?) -
    tally weigh (w.journal.toList.filterMap Entry.givenBack?)
  called := by
    intro call w answer state _
    rw [World.journal_called, tally_filterMap_concat, tally_filterMap_concat]
    simp only [Entry.taken?, Entry.givenBack?, HostCall.gain]
    omega
  log w record := by
    rw [World.journal_add, tally_filterMap_concat, tally_filterMap_concat]
    rfl
  note w line := by
    rw [World.journal_add, tally_filterMap_concat, tally_filterMap_concat]
    rfl

variable (M : Measure host ν) {w w' : World η ν}

/-- What is out and belongs to no named value. -/
def standing (m : Machine η ν) : Int := M.out m.world - tally M.weigh m.space.demand

/-- What is out beyond the named values, a context, and the values held. -/
def surplus (m : Machine η ν) (ctx : Context) (held : List Value) : Int :=
  M.standing m - tally M.weigh ctx.demand - tally M.weigh (Value.demandAll held)

theorem askAll {calls : List HostCall} {exchanges : List Exchange}
    (h : host.askAll calls w = .ok (exchanges, w')) :
    M.out w' = M.out w + tally M.weigh (calls.filterMap HostCall.taken?) -
      tally M.weigh (calls.filterMap HostCall.givenBack?) := by
  induction calls generalizing w exchanges with
  | nil =>
    obtain ⟨-, rfl⟩ := Prod.mk.inj (pure_eq_ok.1 (by simpa only [Host.askAll] using h))
    simp
  | cons call calls ih =>
    rw [Host.askAll, bind_eq_ok] at h
    obtain ⟨answer, _, hask, h⟩ := h
    obtain ⟨state, hstate, rfl⟩ := Host.ask_eq_ok.1 hask
    obtain ⟨rest, _, hrest, h⟩ := bind_eq_ok.1 h
    obtain ⟨-, rfl⟩ := Prod.mk.inj (pure_eq_ok.1 h)
    have h₁ := M.called hstate
    have h₂ := ih hrest
    rw [tally_filterMap_cons, tally_filterMap_cons]
    simp only [HostCall.gain] at h₁
    omega

/-! ### Values -/

theorem release {v left : Value} (h : v.release host w = .ok (left, w')) :
    M.out w' = M.out w - tally M.weigh v.demand := by
  rw [Value.release_eq] at h
  obtain ⟨exchanges, hask, -⟩ := map_eq_ok.1 h
  have hout := M.askAll hask
  have hback := tally_perm M.weigh v.perm_taken?_givenBack?
  rw [v.filterMap_taken?_releaseCalls, tally_nil] at hout
  rw [Value.demand]
  omega

theorem copy {v u : Value} (h : v.copy host w = .ok (u, w')) :
    M.out w' = M.out w + tally M.weigh v.demand := by
  rw [Value.copy_eq] at h
  obtain ⟨exchanges, hask, rfl⟩ := map_eq_ok.1 h
  have hout := M.askAll hask
  rw [v.filterMap_givenBack?_copyCalls, tally_nil] at hout
  rw [Value.demand]
  omega

theorem overwrite {old source u : Value} (h : old.overwrite host source w = .ok (u, w')) :
    u.demand = source.demand ∧
      M.out w' = M.out w - tally M.weigh old.demand + tally M.weigh source.demand := by
  obtain ⟨left, w₁, hrelease, hcopy⟩ := Value.overwrite_eq_ok.1 h
  have h₁ := M.release hrelease
  have h₂ := M.copy hcopy
  exact ⟨Value.demand_of_copy hcopy, by omega⟩

theorem releaseAll {vs left : List Value} (h : Value.releaseAll host vs w = .ok (left, w')) :
    M.out w' = M.out w - tally M.weigh (Value.demandAll vs) := by
  induction vs generalizing w left with
  | nil =>
    obtain ⟨-, rfl⟩ := Value.releaseAll_nil_eq_ok.1 h
    simp
  | cons v vs ih =>
    obtain ⟨u, us, w₁, hv, hvs, -⟩ := Value.releaseAll_cons_eq_ok.1 h
    have h₁ := M.release hv
    have h₂ := ih hvs
    rw [Value.demandAll_cons, tally_append]
    omega

/-! ### Slots -/

section

variable {ctx ctx' : Context} {slot : Slot} {v : Value}

/-- What is put into a slot is added to the context, and nothing goes out for it. -/
theorem store (h : ctx.store host slot v w = .ok (ctx', w')) :
    M.out w' - tally M.weigh ctx'.demand =
      M.out w - tally M.weigh ctx.demand - tally M.weigh v.demand := by
  obtain ⟨old, left, hget, hrelease, hset⟩ := Context.store_eq_ok.1 h
  have h₁ := M.release hrelease
  have h₂ := Context.tally_set M.weigh hget hset
  omega

/-- A copy that is put into a slot has gone out before. -/
theorem copyInto (h : ctx.copyInto host slot v w = .ok (ctx', w')) :
    M.out w' - tally M.weigh ctx'.demand = M.out w - tally M.weigh ctx.demand := by
  obtain ⟨old, u, hget, hover, hset⟩ := Context.copyInto_eq_ok.1 h
  obtain ⟨hdemand, h₁⟩ := M.overwrite hover
  have h₂ := Context.tally_set M.weigh hget hset
  rw [hdemand] at h₂
  omega

theorem copySlot {source : Slot} (h : ctx.copySlot host slot source w = .ok (ctx', w')) :
    M.out w' - tally M.weigh ctx'.demand = M.out w - tally M.weigh ctx.demand := by
  rcases Context.copySlot_eq_ok.1 h with ⟨-, rfl, rfl⟩ | ⟨-, u, -, hcopy⟩
  · rfl
  · exact M.copyInto hcopy

theorem bindArgs {first : Nat} {args : List Value}
    (h : ctx.bindArgs host first args w = .ok (ctx', w')) :
    M.out w' - tally M.weigh ctx'.demand = M.out w - tally M.weigh ctx.demand := by
  induction args generalizing ctx w first with
  | nil =>
    obtain ⟨rfl, rfl⟩ := Prod.mk.inj (pure_eq_ok.1 (by simpa only [Context.bindArgs] using h))
    rfl
  | cons arg rest ih =>
    obtain ⟨ctx₁, w₁, hcopy, hrest⟩ := Context.bindArgs_cons_eq_ok.1 h
    have h₁ := M.copyInto hcopy
    have h₂ := ih hrest
    omega

/-- Cleaning a context gives all its blocks back. -/
theorem clean (h : ctx.clean host w = .ok (ctx', w')) :
    M.out w' = M.out w - tally M.weigh ctx.demand :=
  M.releaseAll (Context.clean_eq_ok.1 h).2

end

/-! ### Calls -/

/-- The blocks of a result: those of the value, none if there is an error. -/
def resultDemand : Except Error Value → List Block
  | .ok v => v.demand
  | .error _ => []

/-- Whoever is given a result has its blocks besides those of what he holds. -/
theorem tally_takeOver (weigh : Block → Nat) (r : Except Error Value) (held : List Value) :
    tally weigh (Value.demandAll (r.toOption.toList ++ held)) =
      tally weigh (resultDemand r) + tally weigh (Value.demandAll held) := by
  cases r <;> simp [Except.toOption, resultDemand]

end Measure

/-- A request for an evaluation. -/
def Request.Evaluates : Request ν → Prop
  | evalMethod .. | evalNode _ | matchesId .. | findDevices _ => True
  | _ => False

/-- The host gives contexts out empty. -/
def Host.GivesEmpty (host : Host η) : Prop :=
  ∀ state given state', host .allocContext state = .ok (given, state') → given.IsEmpty

/-- The host reads field units as values without storage. -/
def Host.ReadsBare (host : Host η) : Prop :=
  ∀ operand state v state', host (.readOperand operand) state = .ok (v, state') → v.storage = 0

/-- From one amount to another what is out goes down by what contexts were given out with:
by nothing on a host that gives them out empty. -/
def Host.Drains (host : Host η) (before after : Int) : Prop :=
  after ≤ before ∧ (host.GivesEmpty → after = before)

namespace Measure

section

variable {p : Platform η ν} (M : Measure p.host ν) {w w' : World η ν} {ctx ctx' : Context}

/-- The context of a call takes over what its arguments are copied into. -/
theorem enter {node : NodeId} {flags : MethodFlags} {body : CodeRange} {args : List Value}
    (h : p.enter node flags body args w = .ok (ctx, w')) :
    p.host.Drains (M.out w) (M.out w' - tally M.weigh ctx.demand) := by
  obtain ⟨given, state, hgiven, hbind⟩ := Platform.enter_eq_ok.1 h
  have h₁ := M.bindArgs hbind
  have h₂ := M.called hgiven
  rw [show Context.demand { given with argCount := flags.argCount, scope := node, body } =
    given.demand from rfl] at h₁
  simp only [HostCall.gain, HostCall.taken?, HostCall.givenBack?, Option.toList, tally_nil] at h₂
  refine ⟨by omega, fun hempty => ?_⟩
  rw [(hempty _ _ _ hgiven).demand, tally_nil] at h₁
  omega

/-- A context is handed back with all its blocks, save those of the value copied out. -/
theorem leave {status : Except Error Unit} {r : Except Error Value}
    (h : p.leave status ctx w = .ok (r, w')) :
    M.out w' = M.out w - tally M.weigh ctx.demand + tally M.weigh (resultDemand r) := by
  obtain ⟨w₁, cleaned, w₂, state, hresult, hclean, hfree, rfl⟩ := Platform.leave_cases h
  have h₁ := M.clean hclean
  have h₂ := M.called hfree
  have h₃ : M.out w₁ = M.out w + tally M.weigh (resultDemand r) := by
    rcases hresult with ⟨-, held, v, -, hcopy, rfl⟩ | ⟨e, -, rfl, rfl⟩
    · rw [resultDemand, Value.demand_of_copy hcopy, M.copy hcopy]
    · simp [resultDemand]
  simp only [HostCall.gain, HostCall.taken?, HostCall.givenBack?, Option.toList, tally_nil] at h₂
  omega

/-! ### Bodies -/

/-- A value that is given up takes its blocks with it, held or made on the spot. -/
theorem giveUp {held : List Value} {v : Value} (h : v ∈ held ∨ v.storage = 0) :
    (tally M.weigh (Value.demandAll (held.erase v)) : Int) =
      tally M.weigh (Value.demandAll held) - tally M.weigh v.demand := by
  by_cases hv : v ∈ held
  · have := Value.tally_erase M.weigh hv
    omega
  · have := Value.demand_of_storage_eq_zero (h.resolve_left hv)
    rw [List.erase_of_not_mem hv, this, tally_nil]
    omega

/-- **One request that a frugal body carries out on its own.** -/
theorem surplus_own {call : Caller η ν} {held : List Value} {r : Request ν} {answer : r.Answer}
    {m m' : Machine η ν} (hown : ¬r.Evaluates) (howned : r.Owned held)
    (h : r.perform p call ctx m = .ok ((answer, ctx'), m')) :
    M.surplus m' ctx' (r.heldAfter held answer) = M.surplus m ctx held := by
  replace h := Request.perform_eq_ok.1 h
  cases r with
  | poke | setObject | host => exact howned.elim
  | evalMethod | evalNode | matchesId | findDevices => exact absurd trivial hown
  | context | space | history | depth | limit =>
    obtain ⟨-, rfl, rfl⟩ := h
    rfl
  | note line =>
    obtain ⟨rfl, rfl⟩ := h
    simp only [surplus, Request.heldAfter, standing, M.note]
  | store slot v =>
    obtain ⟨w, hstore, rfl⟩ := h
    have h₁ := M.store hstore
    have h₂ := M.giveUp howned
    simp only [surplus, Request.heldAfter, standing]
    omega
  | copySlot target source =>
    obtain ⟨w, hcopy, rfl⟩ := h
    have h₁ := M.copySlot hcopy
    simp only [surplus, Request.heldAfter, standing]
    omega
  | release v =>
    obtain ⟨w, hrelease, rfl, rfl⟩ := h
    have h₁ := M.release hrelease
    have h₂ := M.giveUp howned
    simp only [surplus, Request.heldAfter, standing]
    omega
  | overwrite old source =>
    obtain ⟨w, hover, rfl, rfl⟩ := h
    obtain ⟨hdemand, h₁⟩ := M.overwrite hover
    have h₂ := M.giveUp howned
    simp only [surplus, Request.heldAfter, standing, Value.demandAll_cons, tally_append, hdemand]
    omega
  | addChild parent name object =>
    obtain ⟨grown, hadd, rfl, rfl⟩ := h
    have h₁ := Namespace.tally_addChild M.weigh hadd
    cases object with
    | name v =>
      have h₂ := M.giveUp howned
      simp only [surplus, Request.heldAfter, standing, h₁, Object.demand]
      omega
    | _ =>
      simp only [surplus, Request.heldAfter, standing, h₁, Object.demand, tally_nil]
      omega

end

end Measure
end Acpi
