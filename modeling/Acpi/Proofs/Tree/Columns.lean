/-
# What adding a node keeps

The arena read column by column: the names, the objects and the parents of all
nodes in order of creation.  Adding a node appends to these three columns and
changes nothing in them; putting another object in its place changes one entry
of one of them.  Only the links to children and siblings are rewritten
(`Acpi.Proofs.Tree.Links`).
-/

import Acpi.Namespace.Basic

namespace Acpi

/-- The value that an object has, if it is a named value. -/
def Object.value? : Object → Option Value
  | name value => some value
  | _ => none

namespace Namespace

/-- The names of all nodes. -/
def names (ns : Namespace) : List Segment := ns.nodes.toList.map (·.name)

/-- The objects of all nodes. -/
def objects (ns : Namespace) : List Object := ns.nodes.toList.map (·.object)

/-- The parents of all nodes, as the arena holds them. -/
def parents (ns : Namespace) : List (Option NodeId) := ns.nodes.toList.map (·.parent)

/-- The value that a node has. -/
def value? (ns : Namespace) (id : NodeId) : Option Value :=
  ns.nodes[id.index]?.bind (·.object.value?)

variable {ns ns' : Namespace} {id parent : NodeId} {name : Segment} {object : Object} {v : Value}

@[simp] theorem length_parents (ns : Namespace) : ns.parents.length = ns.size := by
  simp [parents, size]

theorem name_eq_ok_iff : ns.name id = .ok name ↔ ns.names[id.index]? = some name := by
  cases h : ns.nodes[id.index]? <;>
    simp [Namespace.name, node, names, h, Functor.map, Except.map]

theorem object_eq_ok_iff : ns.object id = .ok object ↔ ns.objects[id.index]? = some object := by
  cases h : ns.nodes[id.index]? <;>
    simp [Namespace.object, node, objects, h, Functor.map, Except.map]

/-- An object is that of a node. -/
theorem node_of_object (h : ns.object id = .ok object) :
    ∃ n, ns.node id = .ok n ∧ n.object = object := by
  cases hn : ns.node id with
  | error f => simp [Namespace.object, hn, Functor.map, Except.map] at h
  | ok n => exact ⟨n, rfl, by simpa [Namespace.object, hn, Functor.map, Except.map] using h⟩

theorem exists_name_of_object (h : ns.object id = .ok object) : ∃ name, ns.name id = .ok name := by
  obtain ⟨n, hn, -⟩ := node_of_object h
  exact ⟨n.name, by rw [Namespace.name, hn]; rfl⟩

theorem value?_of_object (h : ns.object id = .ok object) : ns.value? id = object.value? := by
  cases hn : ns.nodes[id.index]? with
  | none => simp [Namespace.object, node, hn, Functor.map, Except.map] at h
  | some n =>
    simp only [Namespace.object, node, hn, Functor.map, Except.map, Except.ok.injEq] at h
    rw [value?, hn, Option.bind_some, h]

theorem value?_eq_some_iff : ns.value? id = some v ↔ ns.object id = .ok (.name v) := by
  have hobject : ∀ o : Object, o.value? = some v ↔ o = .name v := fun o => by
    cases o <;> simp [Object.value?]
  cases h : ns.nodes[id.index]? <;>
    simp [value?, Namespace.object, node, h, hobject, Functor.map, Except.map]

/-- A column that a change of one node does not concern. -/
theorem map_modify_of_forall_eq {α : Type} (nodes : Array Node) (i : Nat) {f : Node → Node}
    {column : Node → α} (h : ∀ n, column (f n) = column n) :
    (nodes.modify i f).toList.map column = nodes.toList.map column := by
  apply List.ext_getElem?
  intro j
  simp only [List.getElem?_map, Array.getElem?_toList, Array.getElem?_modify]
  split
  · simp [Function.comp_def, h]
  · rfl

/-- **Adding a node appends to the three columns.** -/
theorem addChild_cases (h : ns.addChild parent name object = .ok (id, ns')) :
    id = ⟨ns.size⟩ ∧ parent.index ≤ ns.size ∧ ns'.root = ns.root ∧
      ns'.names = ns.names ++ [name] ∧ ns'.objects = ns.objects ++ [object] ∧
      ns'.parents = ns.parents ++ [some parent] := by
  simp only [addChild] at h
  split at h
  · cases h
  · rename_i p hp
    obtain ⟨rfl, rfl⟩ := Prod.mk.inj (Except.ok.inj h)
    have hlt := (Array.getElem?_eq_some_iff.1 hp).1
    rw [Array.size_push] at hlt
    refine ⟨rfl, Nat.le_of_lt_succ hlt, rfl, ?_⟩
    cases p.lastChild <;>
      simp only [names, objects, parents, map_modify_of_forall_eq, implies_true,
        Array.toList_push, List.map_append, List.map_cons, List.map_nil, and_self]

/-- Putting an object in its place changes one entry of one column. -/
theorem setObject_cases (h : ns.setObject id object = .ok ns') :
    id.index < ns.size ∧ ns'.root = ns.root ∧ ns'.names = ns.names ∧
      ns'.objects = ns.objects.set id.index object ∧ ns'.parents = ns.parents := by
  simp only [setObject] at h
  split at h
  · rename_i hlt
    obtain rfl := Except.ok.inj h
    refine ⟨hlt, rfl, ?_, ?_, ?_⟩
    · simp only [names, map_modify_of_forall_eq, implies_true]
    · apply List.ext_getElem?
      intro j
      simp only [objects, List.getElem?_map, Array.getElem?_toList, Array.getElem?_modify,
        List.getElem?_set, List.length_map, Array.length_toList]
      by_cases hj : id.index = j
      · subst hj
        simp [hlt]
      · simp [hj]
    · simp only [parents, map_modify_of_forall_eq, implies_true]
  · cases h

/-- A node keeps its name when another one is added. -/
theorem name_of_addChild {node : NodeId} {called : Segment}
    (h : ns.addChild parent name object = .ok (id, ns')) (hname : ns.name node = .ok called) :
    ns'.name node = .ok called := by
  obtain ⟨-, -, -, hnames, -, -⟩ := addChild_cases h
  rw [name_eq_ok_iff] at hname ⊢
  rw [hnames, List.getElem?_append_left (List.getElem?_eq_some_iff.1 hname).1, hname]

/-- A node keeps its name when another object is put in its place. -/
theorem name_of_setObject {node : NodeId} {called : Segment}
    (h : ns.setObject id object = .ok ns') (hname : ns.name node = .ok called) :
    ns'.name node = .ok called := by
  obtain ⟨-, -, hnames, -, -⟩ := setObject_cases h
  rw [name_eq_ok_iff] at hname ⊢
  rw [hnames, hname]

end Namespace
end Acpi
