/-
# Handles of another namespace

A node is to be added below a node of the same namespace, and a handle of another
namespace is to be refused.  But `Namespace.addChild` puts the new node into the arena
before it looks at the parent.  So of the handles that a namespace does not have, it
takes exactly one for its own: the next one, which the new node is about to get.  All
others are refused (`Built.addChild_any`).

A node that is added in this way is its own parent.  Nodes that were there before stay
as they were.  But a search that begins at the new node and finds nothing there has no
end, and neither has climbing from it.
-/

import Acpi.Proofs.Tree.Extension

namespace Acpi
namespace Namespace

variable {ns ns' : Namespace} {id handle : NodeId} {name : Segment} {object : Object}
  {v : List UInt8}

/-- A search at a node that is its own parent goes on for ever if it finds nothing. -/
theorem search_of_up_self (hup : ns.Up id id) (h : ns.descend id v = .ok none) :
    ns.search id v = .error .endless := by
  rw [search, h, hup]
  exact dif_neg (Nat.lt_irrefl _)

/-- Climbing from a node that is its own parent goes on for ever if it has no sibling. -/
theorem climb_of_up_self (hup : ns.Up id id) (h : ns.nextSibling id = .ok none) :
    ns.climb id = .error .endless := by
  rw [climb, h, hup]
  exact dif_neg (Nat.lt_irrefl _)

/-- A handle beyond the next one is refused. -/
theorem addChild_beyond (h : ns.size < handle.index) (name : Segment) (object : Object) :
    ns.addChild handle name object = .error (.noSuchNode handle) := by
  have hnone : ∀ n : Node, (ns.nodes.push n)[handle.index]? = none := fun n =>
    Array.getElem?_eq_none (by rw [Array.size_push]; exact h)
  simp only [addChild, hnone]

/-- With the next handle the new node is linked to itself, and nothing else changes. -/
theorem addChild_next (ns : Namespace) (name : Segment) (object : Object) :
    ns.addChild ⟨ns.size⟩ name object =
      .ok (⟨ns.size⟩, ⟨ns.nodes.push
        ⟨name, object, some ⟨ns.size⟩, some ⟨ns.size⟩, some ⟨ns.size⟩, none⟩, ns.root⟩) := by
  have hmodify (n : Node) (f : Node → Node) :
      (ns.nodes.push n).modify ns.size f = ns.nodes.push (f n) := by
    refine Array.ext_getElem? fun i => ?_
    rw [Array.getElem?_modify, Array.getElem?_push, Array.getElem?_push]
    by_cases hi : i = ns.nodes.size
    · simp [size, hi]
    · simp [size, hi, Ne.symm hi]
  have hself (n : Node) : (ns.nodes.push n)[ns.size]? = some n := Array.getElem?_push_size
  simp only [addChild, hself, hmodify]
  rfl

/-- A node that was there stays as it was if another one is only put behind it. -/
theorem node_push (n : Node) (h : id.index < ns.size) :
    (⟨ns.nodes.push n, ns.root⟩ : Namespace).node id = ns.node id := by
  have hsame : (ns.nodes.push n)[id.index]? = ns.nodes[id.index]? :=
    Array.getElem?_push.trans (if_neg (Nat.ne_of_lt h))
  simp only [node, hsame]

/-- **Which handles are taken.**  A node can be added below any node that the namespace
has, and all ways up still end.  The next handle is taken as well: the new node is its
own parent, and it is its own ancestor therefore.  Every handle behind that is refused. -/
theorem Built.addChild_any (built : ns.Built) (handle : NodeId) (name : Segment)
    (object : Object) :
    (handle.index < ns.size → ∃ ns', ns.addChild handle name object = .ok (⟨ns.size⟩, ns') ∧
      ns'.Built ∧ ns'.Up ⟨ns.size⟩ handle ∧ ∀ id, ¬Relation.TransGen ns'.Up id id) ∧
    (handle.index = ns.size → ∃ ns', ns.addChild handle name object = .ok (⟨ns.size⟩, ns') ∧
      ns'.Up ⟨ns.size⟩ ⟨ns.size⟩ ∧ (∀ id, id.index < ns.size → ns'.node id = ns.node id) ∧
      (∀ v, ns'.descend ⟨ns.size⟩ v = .ok none → ns'.search ⟨ns.size⟩ v = .error .endless) ∧
      ns'.climb ⟨ns.size⟩ = .error .endless) ∧
    (ns.size < handle.index → ns.addChild handle name object = .error (.noSuchNode handle)) := by
  refine ⟨fun h => ?_, fun h => ?_, fun h => addChild_beyond h name object⟩
  · obtain ⟨ns', hadd⟩ := addChild_eq_ok h name object
    have built' : ns'.Built := .addChild built h hadd
    have hnew : ⟨ns.size⟩ ∈ ns'.childList handle := by
      rw [childList_of_addChild hadd, if_pos rfl]
      exact List.mem_append_right _ (List.mem_singleton_self _)
    exact ⟨ns', hadd, built', built'.up_iff.2 hnew, fun id hup =>
      Nat.lt_irrefl _ (built'.transGen_up_lt hup)⟩
  · obtain rfl : handle = ⟨ns.size⟩ := NodeId.ext h
    refine ⟨_, addChild_next ns name object, ?_⟩
    generalize hgrown : (⟨ns.nodes.push _, ns.root⟩ : Namespace) = ns'
    have hroot : (⟨ns.size⟩ : NodeId) ≠ ns'.root := by
      rw [← hgrown, built.root_eq]
      exact fun he => Nat.ne_of_gt built.linked.nonempty (congrArg NodeId.index he)
    have hnode : ns'.node ⟨ns.size⟩ = .ok
        ⟨name, object, some ⟨ns.size⟩, some ⟨ns.size⟩, some ⟨ns.size⟩, none⟩ :=
      hgrown ▸ node_eq_ok_iff.2 Array.getElem?_push_size
    have hup : ns'.Up ⟨ns.size⟩ ⟨ns.size⟩ := by
      rw [Up, parent, if_neg hroot, hnode]
      rfl
    have hnext : ns'.nextSibling ⟨ns.size⟩ = .ok none := by
      rw [nextSibling, if_neg hroot, hnode]
      rfl
    exact ⟨hup, fun id hid => hgrown ▸ node_push _ hid, fun v => search_of_up_self hup,
      climb_of_up_self hup hnext⟩

/-- Of the handles around the end of three devices, one leads to a tree and one to a node
above itself. -/
theorem Built.addChild_any_threeDevices :
    threeDevices.Built ∧
      (∃ ns', threeDevices.addChild ⟨3⟩ ⟨0x41, 0x42, 0x43, 0x44⟩ .scope = .ok (⟨4⟩, ns') ∧
        ns'.Up ⟨4⟩ ⟨3⟩) ∧
      (∃ ns', threeDevices.addChild ⟨4⟩ ⟨0x41, 0x42, 0x43, 0x44⟩ .scope = .ok (⟨4⟩, ns') ∧
        ns'.Up ⟨4⟩ ⟨4⟩) ∧
      threeDevices.addChild ⟨5⟩ ⟨0x41, 0x42, 0x43, 0x44⟩ .scope = .error (.noSuchNode ⟨5⟩) := by
  have hany (handle : NodeId) :=
    built_threeDevices.addChild_any handle ⟨0x41, 0x42, 0x43, 0x44⟩ .scope
  obtain ⟨ns₁, hadd₁, -, hup₁, -⟩ := (hany ⟨3⟩).1 (by decide)
  obtain ⟨ns₂, hadd₂, hup₂, -⟩ := (hany ⟨4⟩).2.1 (by decide)
  exact ⟨built_threeDevices, ⟨ns₁, hadd₁, hup₁⟩, ⟨ns₂, hadd₂, hup₂⟩, (hany ⟨5⟩).2.2 (by decide)⟩

/-- **A foreign handle is taken.**  The empty namespace has one node, and yet a node can
be added below the second one.  It is its own ancestor then, and a search at it for a
string that leads nowhere has no end. -/
theorem empty_takes_foreign_handle :
    Namespace.empty.Built ∧ Namespace.empty.size ≤ (⟨1⟩ : NodeId).index ∧
      ∃ ns', Namespace.empty.addChild ⟨1⟩ ⟨0x41, 0x41, 0x41, 0x41⟩ .scope = .ok (⟨1⟩, ns') ∧
        Relation.TransGen ns'.Up ⟨1⟩ ⟨1⟩ ∧ ns'.search ⟨1⟩ [0x41] = .error .endless := by
  refine ⟨.empty, Nat.le_refl _, _, addChild_next Namespace.empty _ _, .single rfl, ?_⟩
  exact search_of_up_self rfl rfl

end Namespace
end Acpi
