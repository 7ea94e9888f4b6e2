/-
# Slots as variables

There are sixteen slots, and they behave like sixteen variables.  A context is seen as an
assignment of values to them (`Context.assignment`), and what a change does to the
context is what it does to the assignment (`Change.assignment_perform`):

| change | calls to the host | assignment |
| --- | --- | --- |
| `store x v` | the old value of `x` goes back | `x` has the value `v` |
| `copySlot x y` | the old value of `x` goes back, `y` is copied | `x` has the copy |
| `copySlot x x` | | |

All the other variables stay as they are, `y` with its references to buffer fields among
them.  A run of changes is then a run over the assignment, on any host
(`Context.assignment_foldlM`).  On the host that counts, what is out beyond the slots goes
down by what was handed over to be stored, and never otherwise.
-/

import Acpi.Proofs.Storage.Copies
import Acpi.Proofs.Storage.Counting
import Mathlib.Logic.Function.Basic

namespace Acpi

variable {η ν : Type}

open Effect

/-- A slot that there is. -/
abbrev Variable : Type := { slot : Slot // slot.cell?.isSome = true }

namespace Variable

/-- The cell in which the value of a variable stands. -/
def cell (x : Variable) : Fin 16 := x.1.cell?.get x.2

theorem cell?_eq (x : Variable) : x.1.cell? = some x.cell := (Option.some_get x.2).symm

theorem cell_injective : Function.Injective cell := fun x y h =>
  Subtype.ext (Slot.eq_of_cell? x.cell?_eq (h ▸ y.cell?_eq))

theorem cell_surjective : Function.Surjective cell := by
  have hslot : ∀ i : Fin 16, ((if i.val < maxArgs then Slot.arg (UInt8.ofNat i)
      else if i.val < maxArgs + maxLocals then .loc (UInt8.ofNat (i - maxArgs)) else .ret).cell?) =
        some i := by decide
  intro i
  exact ⟨⟨_, Option.isSome_of_eq_some (hslot i)⟩, Option.get_of_eq_some _ (hslot i)⟩

end Variable

/-- A value for each of the variables. -/
abbrev Assignment : Type := Variable → Value

/-- What the slots of a context hold. -/
def Context.assignment (ctx : Context) : Assignment := fun x => ctx.cells.get x.cell

theorem Context.get_variable (ctx : Context) (x : Variable) :
    ctx.get x.1 = .ok (ctx.assignment x) :=
  get_of_cell? x.cell?_eq ctx

theorem Context.assignment_set (ctx : Context) (x : Variable) (v : Value) :
    assignment { ctx with cells := ctx.cells.set x.cell.val v x.cell.isLt } =
      Function.update ctx.assignment x v := by
  funext y
  rw [assignment, get_set, Function.update_apply]
  simp only [Variable.cell_injective.eq_iff, eq_comm, assignment]

/-- A change of a slot. -/
inductive Change
  | store (x : Variable) (value : Value)
  | copySlot (target source : Variable)

namespace Change

/-- The change as a context makes it. -/
def perform (host : Host η) (ctx : Context) : Change → WorldM η ν Context
  | store x value => ctx.store host x.1 value
  | copySlot target source => ctx.copySlot host target.1 source.1

/-- The change as variables make it. -/
def assign (host : Host η) (vars : Assignment) : Change → WorldM η ν Assignment
  | store x value => do
    let _ ← host.askAll (vars x).releaseCalls
    return Function.update vars x value
  | copySlot target source =>
    if target = source then return vars
    else do
      let _ ← host.askAll (vars target).releaseCalls
      let exchanges ← host.askAll (vars source).copyCalls
      return Function.update vars target ((vars source).filled (readings exchanges))

/-- The value that is handed over for a change. -/
def stored? : Change → Option Value
  | store _ value => some value
  | copySlot .. => none

theorem assignment_perform (host : Host η) (ctx : Context) (change : Change) :
    (Context.assignment <$> change.perform host ctx : WorldM η ν Assignment) =
      change.assign host ctx.assignment := by
  cases change with
  | store x value =>
    rw [perform, assign, Context.store_eq x.cell?_eq, Value.release_eq, Functor.map_map,
      Functor.map_map]
    simp only [Context.assignment_set]
    rfl
  | copySlot target source =>
    rw [perform, assign]
    by_cases h : target = source
    · subst h
      simp [Context.copySlot]
    · rw [if_neg h, Context.copySlot_eq (fun hs => h (Subtype.ext hs)) (ctx.get_variable source),
        Context.copyInto_eq target.cell?_eq, Value.overwrite_eq, Functor.map_map]
      simp only [Context.assignment_set, map_bind, map_pure]
      rfl

/-! ### What is out -/

/-- **One change.**  What is out beyond the context goes down by what is stored. -/
theorem measure_perform {host : Host η} (M : Measure host ν) {change : Change}
    {ctx ctx' : Context} {w w' : World η ν} (h : change.perform host ctx w = .ok (ctx', w')) :
    M.out w' - tally M.weigh ctx'.demand =
      M.out w - tally M.weigh ctx.demand -
        tally M.weigh (Value.demandAll change.stored?.toList) := by
  cases change with
  | store x value =>
    have hstore := M.store h
    rw [stored?, Option.toList_some, Value.demandAll_cons, Value.demandAll_nil, List.append_nil]
    omega
  | copySlot target source =>
    have hcopy := M.copySlot h
    rw [stored?, Option.toList_none, Value.demandAll_nil, tally_nil]
    omega

/-- **A run of changes.**  What is out beyond the context goes down by all that is stored. -/
theorem measure_foldlM {host : Host η} (M : Measure host ν) {changes : List Change}
    {ctx ctx' : Context} {w w' : World η ν}
    (h : changes.foldlM (perform host) ctx w = .ok (ctx', w')) :
    M.out w' - tally M.weigh ctx'.demand =
      M.out w - tally M.weigh ctx.demand -
        tally M.weigh (Value.demandAll (changes.filterMap stored?)) := by
  induction changes generalizing ctx w with
  | nil =>
    obtain ⟨rfl, rfl⟩ := Prod.mk.inj (pure_eq_ok.1 (by simpa only [List.foldlM_nil] using h))
    simp
  | cons change rest ih =>
    rw [List.foldlM_cons] at h
    obtain ⟨ctx₁, w₁, hchange, hrest⟩ := bind_eq_ok.1 h
    have h₁ := measure_perform M hchange
    have h₂ := ih hrest
    have hsum : tally M.weigh (Value.demandAll ((change :: rest).filterMap stored?)) =
        tally M.weigh (Value.demandAll change.stored?.toList) +
          tally M.weigh (Value.demandAll (rest.filterMap stored?)) := by
      cases hv : change.stored? <;> simp [hv]
    omega

end Change

namespace Host.Willing

variable {host : Host η} (willing : host.Willing)
include willing

/-- A variable can always be changed. -/
theorem assign (vars : Assignment) (change : Change) (w : World η ν) :
    ∃ vars' w', change.assign host vars w = .ok (vars', w') := by
  have release (v : Value) (w : World η ν) := willing.askAll
    (fun call hcall => (v.givesBack_of_mem_releaseCalls call hcall).clean) w
  have copy (v : Value) (w : World η ν) := willing.askAll
    (fun call hcall => (v.supplies_of_mem_copyCalls call hcall).clean) w
  rcases change with ⟨x, value⟩ | ⟨target, source⟩
  · obtain ⟨given, w', hrelease⟩ := release (vars x) w
    exact ⟨_, w', bind_eq_ok.2 ⟨given, w', hrelease, pure_eq_ok.2 rfl⟩⟩
  · by_cases hself : target = source
    · exact ⟨vars, w, by simp [Change.assign, hself]⟩
    · obtain ⟨given, w₁, hrelease⟩ := release (vars target) w
      obtain ⟨exchanges, w', hcopy⟩ := copy (vars source) w₁
      refine ⟨Function.update vars target ((vars source).filled (readings exchanges)), w', ?_⟩
      rw [Change.assign, if_neg hself]
      exact bind_eq_ok.2 ⟨given, w₁, hrelease,
        bind_eq_ok.2 ⟨exchanges, w', hcopy, pure_eq_ok.2 rfl⟩⟩

theorem assign_foldlM (vars : Assignment) (changes : List Change) (w : World η ν) :
    ∃ vars' w', changes.foldlM (Change.assign host) vars w = .ok (vars', w') := by
  induction changes generalizing vars w with
  | nil => exact ⟨vars, w, rfl⟩
  | cons change rest ih =>
    obtain ⟨vars₁, w₁, hchange⟩ := willing.assign vars change w
    obtain ⟨vars', w', hrest⟩ := ih vars₁ w₁
    rw [List.foldlM_cons]
    exact ⟨vars', w', bind_eq_ok.2 ⟨vars₁, w₁, hchange, hrest⟩⟩

end Host.Willing

namespace Context

/-- A run of changes is a run over the variables. -/
theorem assignment_foldlM (host : Host η) (ctx : Context) (changes : List Change) :
    (assignment <$> changes.foldlM (Change.perform host) ctx : WorldM η ν Assignment) =
      changes.foldlM (Change.assign host) ctx.assignment := by
  induction changes generalizing ctx with
  | nil => simp
  | cons change rest ih =>
    rw [List.foldlM_cons, List.foldlM_cons, map_bind, ← change.assignment_perform, bind_map_left]
    exact bind_congr ih

/-- **Slots are sixteen independent variables.**  Every cell of a context is that of one
variable, and its slot reads what the variable has.  Over any run of changes, and on any
host, the calls made, the fault if there is one and the values in the end are those of the
run over the variables.  Nothing at all is done to copy a slot onto itself.  With a
variable that gets another value the blocks of the old one go back, each of them once; to
copy one gives nothing back and reads the buffer fields that it refers to.  A host that
refuses only what it may refuse does all this, and on the host that counts, what is out
beyond the storage of the slots goes down by that of the values stored. -/
theorem independent_slots (host : Host η) (ctx : Context) (changes : List Change) :
    Function.Bijective Variable.cell ∧
      (∀ (ctx : Context) (x : Variable), ctx.get x.1 = .ok (ctx.assignment x)) ∧
      (assignment <$> changes.foldlM (Change.perform host) ctx : WorldM η ν Assignment) =
        changes.foldlM (Change.assign host) ctx.assignment ∧
      (∀ slot : Slot, (ctx.copySlot host slot slot : WorldM η ν Context) = pure ctx) ∧
      (∀ v : Value, v.GivenBackBy v.releaseCalls ∧
        v.copyCalls.filterMap HostCall.givenBack? = [] ∧
        v.copyCalls.filter HostCall.isRead = v.fields.map .readBufferField) ∧
      (host.Willing → ∀ w : World η ν, ∃ ctx' w',
        changes.foldlM (Change.perform host) ctx w = .ok (ctx', w')) ∧
      ∀ (w w' : World Counters ν) (ctx' : Context),
        changes.foldlM (Change.perform countingHost) ctx w = .ok (ctx', w') →
          w'.host.live - ctx'.storage =
            w.host.live - ctx.storage - Value.storageAll (changes.filterMap Change.stored?) := by
  refine ⟨⟨Variable.cell_injective, Variable.cell_surjective⟩, get_variable,
    assignment_foldlM host ctx changes, fun slot => by rw [copySlot, if_pos rfl],
    fun v => ⟨v.givenBackBy_releaseCalls, v.filterMap_givenBack?_copyCalls,
      v.filter_isRead_copyCalls⟩, fun willing w => ?_, fun w w' ctx' h => ?_⟩
  · obtain ⟨vars, w', hvars⟩ := willing.assign_foldlM ctx.assignment changes w
    rw [← assignment_foldlM] at hvars
    obtain ⟨ctx', h, -⟩ := map_eq_ok.1 hvars
    exact ⟨ctx', w', h⟩
  · have hout := Change.measure_foldlM Measure.live h
    simp only [Measure.weigh_live, tally_one_demand, Value.tally_one_demandAll] at hout
    exact hout

/-- `Value.mixed` goes into a local, a copy of it into an argument, and a copy of the copy
in the place of a buffer. -/
def mixedChanges : List Change :=
  [.store ⟨.loc 0, rfl⟩ Value.mixed, .store ⟨.ret, rfl⟩ (.buffer [1]),
    .copySlot ⟨.arg 0, rfl⟩ ⟨.loc 0, rfl⟩, .copySlot ⟨.loc 0, rfl⟩ ⟨.loc 0, rfl⟩,
    .copySlot ⟨.ret, rfl⟩ ⟨.arg 0, rfl⟩]

/-- The changes where buffer fields hold `0x5A`: the local has kept its references, the
copies have readings in their places. -/
theorem independent_slots_mixed :
    countingHost.Willing ∧ ∃ (ctx : Context) (w : World Counters Unit),
      mixedChanges.foldlM (Change.perform countingHost) fresh
          ⟨{ Counters.zero with fieldValue := 0x5A }, #[]⟩ = .ok (ctx, w) ∧
        mixedChanges.foldlM (Change.assign countingHost) fresh.assignment
          ⟨{ Counters.zero with fieldValue := 0x5A }, #[]⟩ = .ok (ctx.assignment, w) ∧
        ctx.get (.loc 0) = .ok Value.mixed ∧
        ctx.get (.arg 0) = .ok (Value.mixed.filled [0x5A, 0x5A]) ∧
        ctx.get .ret = .ok (Value.mixed.filled [0x5A, 0x5A]) ∧
        w.host.live - ctx.storage = -7 := by
  obtain ⟨-, -, hvars, -, -, hexists, hout⟩ := independent_slots countingHost fresh mixedChanges
  obtain ⟨ctx, w, hrun⟩ :=
    hexists willing_countingHost ⟨{ Counters.zero with fieldValue := 0x5A }, #[]⟩
  have hctx : ((mixedChanges.foldlM (Change.perform countingHost) fresh
      (⟨{ Counters.zero with fieldValue := 0x5A }, #[]⟩ : World Counters Unit)).toOption.map
        fun r => (r.1.get (.loc 0), r.1.get (.arg 0), r.1.get .ret)) =
      some (.ok Value.mixed, .ok (Value.mixed.filled [0x5A, 0x5A]),
        .ok (Value.mixed.filled [0x5A, 0x5A])) := by
    decide +kernel
  rw [hrun] at hctx
  obtain ⟨hloc, hslots⟩ := Prod.mk.inj (Option.some.inj hctx)
  obtain ⟨harg, hret⟩ := Prod.mk.inj hslots
  refine ⟨willing_countingHost, ctx, w, hrun, ?_, hloc, harg, hret, (hout _ _ _ hrun).trans ?_⟩
  · rw [← hvars]
    exact map_eq_ok.2 ⟨ctx, hrun, rfl⟩
  · decide +kernel

end Context
end Acpi
