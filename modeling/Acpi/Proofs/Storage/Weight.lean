/-
# The blocks that values take up

A value takes up the blocks that a copy of it asks for (`Value.demand`); contexts and
namespaces take up those of the values in them.  With a weight for each block, what
changes is a sum (`tally`):

| change | weight |
| --- | --- |
| putting `v` into a slot that held `u` | `+ v - u` |
| giving `v` up | `- v` |
| adding a node with an object | `+` the object |

If every block weighs one, the weight is the storage of `Acpi.Proofs.Storage.Count`.  The
weights together tell the blocks apart by kind and size (`perm_of_tally_eq`).
-/

import Acpi.Proofs.Storage.Count
import Acpi.Proofs.Storage.Parts
import Acpi.Proofs.Storage.Slots
import Mathlib.Algebra.BigOperators.Group.List.Lemmas

namespace Acpi

/-- What blocks weigh together. -/
def tally (weigh : Block → Nat) (blocks : List Block) : Nat := (blocks.map weigh).sum

section

variable (weigh : Block → Nat) (blocks blocks' : List Block)

@[simp] theorem tally_nil : tally weigh [] = 0 := rfl

@[simp] theorem tally_append :
    tally weigh (blocks ++ blocks') = tally weigh blocks + tally weigh blocks' := by
  simp [tally]

theorem tally_flatMap {α : Type} (f : α → List Block) (l : List α) :
    tally weigh (l.flatMap f) = (l.map fun a => tally weigh (f a)).sum := by
  induction l with
  | nil => rfl
  | cons a l ih => rw [List.flatMap_cons, tally_append, ih, List.map_cons, List.sum_cons]

theorem tally_perm {blocks blocks' : List Block} (h : blocks.Perm blocks') :
    tally weigh blocks = tally weigh blocks' :=
  (h.map weigh).sum_eq

theorem tally_one : tally (fun _ => 1) blocks = blocks.length := by
  simp [tally]

/-- The weight that tells one block from the others counts it. -/
theorem count_eq_tally (b : Block) :
    blocks.count b = tally (fun c => if c = b then 1 else 0) blocks := by
  induction blocks with
  | nil => rfl
  | cons c blocks ih => simp [tally, List.count_cons, ih, Nat.add_comm]

/-- Blocks that weigh as much as others, whatever a block weighs, are the same blocks. -/
theorem perm_of_tally_eq {blocks blocks' : List Block}
    (h : ∀ weigh, tally weigh blocks = tally weigh blocks') : blocks.Perm blocks' :=
  List.perm_iff_count.2 fun b => by rw [count_eq_tally, count_eq_tally, h]

/-- Blocks that never weigh more than others are among them. -/
theorem subperm_of_tally_le {blocks blocks' : List Block}
    (h : ∀ weigh, tally weigh blocks ≤ tally weigh blocks') : blocks.Subperm blocks' :=
  List.subperm_ext_iff.2 fun b _ => by
    rw [count_eq_tally, count_eq_tally]
    exact h _

end

namespace Value

variable {v : Value} {weigh : Block → Nat}

/-- The blocks that a value takes up. -/
def demand (v : Value) : List Block := v.copyCalls.filterMap HostCall.taken?

@[simp] theorem demand_null : null.demand = [] := by simp [demand, copyCalls]

mutual

theorem storage_eq_length : (v : Value) → v.storage = v.demand.length
  | null | integer _ | string _ | buffer _ => by
    simp [storage, demand, copyCalls, HostCall.taken?]
  | bufferField _ => by
    simp only [storage, demand, copyCalls]
    rfl
  | package elements => by
    simp [storage, demand, copyCalls, HostCall.taken?, storageAll_eq_length elements]

theorem storageAll_eq_length : (vs : List Value) →
    storageAll vs = ((copyCallsAll vs).filterMap HostCall.taken?).length
  | [] => by simp [storageAll, copyCallsAll]
  | v :: vs => by
    rw [storageAll, copyCallsAll, List.filterMap_append, List.length_append,
      storage_eq_length v, storageAll_eq_length vs, demand]

end

theorem tally_one_demand (v : Value) : tally (fun _ => 1) v.demand = v.storage := by
  rw [tally_one, storage_eq_length]

/-- A copy takes up the blocks that its source takes up. -/
theorem demand_of_copy {η ν : Type} {host : Host η} {w w' : World η ν} {u : Value}
    (h : v.copy host w = .ok (u, w')) : u.demand = v.demand := by
  rw [copy_eq] at h
  obtain ⟨exchanges, -, rfl⟩ := Effect.map_eq_ok.1 h
  exact v.filterMap_taken?_copyCalls_filled _

/-- A value without storage takes up no block. -/
theorem demand_of_storage_eq_zero (h : v.storage = 0) : v.demand = [] := by
  rwa [storage_eq_length, List.length_eq_zero_iff] at h

/-- What values take up together. -/
def demandAll (vs : List Value) : List Block := vs.flatMap demand

@[simp] theorem demandAll_nil : demandAll [] = [] := rfl

@[simp] theorem demandAll_cons (v : Value) (vs : List Value) :
    demandAll (v :: vs) = v.demand ++ demandAll vs := List.flatMap_cons

theorem tally_one_demandAll (vs : List Value) :
    tally (fun _ => 1) (demandAll vs) = storageAll vs := by
  simp only [demandAll, tally_flatMap, tally_one_demand, storageAll_eq_sum]

/-- Values without storage take up no blocks. -/
theorem demandAll_of_storageAll_eq_zero {vs : List Value} (h : storageAll vs = 0) :
    demandAll vs = [] := by
  rwa [← tally_one_demandAll, tally_one, List.length_eq_zero_iff] at h

/-- Taking a value out of a list takes its blocks with it. -/
theorem tally_erase (weigh : Block → Nat) {vs : List Value} (h : v ∈ vs) :
    tally weigh v.demand + tally weigh (demandAll (vs.erase v)) = tally weigh (demandAll vs) := by
  simpa only [demandAll, tally_flatMap] using
    List.sum_map_erase (fun u => tally weigh u.demand) h

end Value

/-- The blocks that an object takes up: those of a named value. -/
def Object.demand : Object → List Block
  | name value => value.demand
  | _ => []

/-- The blocks that are taken up by what the slots hold. -/
def Context.demand (ctx : Context) : List Block := Value.demandAll ctx.cells.toList

/-- The blocks that are taken up by the named values. -/
def Namespace.demand (ns : Namespace) : List Block := ns.objects.flatMap Object.demand

section

variable (weigh : Block → Nat)

/-- In an empty context nothing takes up a block. -/
theorem Context.IsEmpty.demand {ctx : Context} (h : ctx.IsEmpty) : ctx.demand = [] := by
  refine List.flatMap_eq_nil_iff.2 fun v hv => ?_
  rw [h v hv, Value.demand_null]

theorem Context.tally_one_demand (ctx : Context) :
    tally (fun _ => 1) ctx.demand = ctx.storage :=
  Value.tally_one_demandAll _

/-- A slot gives up the blocks of what it held for those of what it gets. -/
theorem Context.tally_set {ctx ctx' : Context} {slot : Slot} {u v : Value}
    (hget : ctx.get slot = .ok u) (hset : ctx.set slot v = .ok ctx') :
    tally weigh ctx'.demand + tally weigh u.demand =
      tally weigh ctx.demand + tally weigh v.demand := by
  obtain ⟨i, hi, rfl⟩ := set_eq_ok.1 hset
  simp only [get, hi, Except.ok.injEq] at hget
  have hcell : ctx.cells.toList[i.val]? = some u := by simp [← hget]
  simpa only [demand, Value.demandAll, tally_flatMap, Vector.toList_set] using
    sum_map_set (f := fun u => tally weigh u.demand) hcell v

namespace Namespace

variable {ns ns' : Namespace} {id parent : NodeId} {name : Segment} {object : Object}

theorem tally_one_demand (ns : Namespace) : tally (fun _ => 1) ns.demand = ns.storage := by
  rw [demand, tally_flatMap, storage]
  refine congrArg List.sum (List.map_congr_left fun object _ => ?_)
  cases object with
  | name value => exact value.tally_one_demand
  | _ => rfl

theorem tally_addChild (h : ns.addChild parent name object = .ok (id, ns')) :
    tally weigh ns'.demand = tally weigh ns.demand + tally weigh object.demand := by
  obtain ⟨_, _, _, _, hobjects, _⟩ := addChild_cases h
  simp [demand, hobjects]

/-- A node gives up the blocks of the object that it held for those of what it gets. -/
theorem tally_setObject {old : Object} (hold : ns.object id = .ok old)
    (h : ns.setObject id object = .ok ns') :
    tally weigh ns'.demand + tally weigh old.demand =
      tally weigh ns.demand + tally weigh object.demand := by
  obtain ⟨_, _, _, hobjects, _⟩ := setObject_cases h
  simpa only [demand, tally_flatMap, hobjects] using
    sum_map_set (f := fun object => tally weigh object.demand) (object_eq_ok_iff.1 hold) object

end Namespace

end

end Acpi
