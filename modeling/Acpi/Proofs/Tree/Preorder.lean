/-
# The preorder of a tree

`Namespace.pruned` lists what is below a node in preorder: each child in turn,
followed by what is below it, unless that is to be skipped.  `Namespace.below`
skips nothing.  It lists the proper descendants of a node (`Built.mem_below`),
each of them once and before its own descendants (`Built.pairwise_below`).  Both
go by induction towards the leaves (`Linked.induction`), which ends because
children are later than their parents.
-/

import Acpi.Proofs.Tree.Arena
import Mathlib.Data.List.Nodup

namespace Acpi
namespace Namespace

variable {ns : Namespace} {skip : NodeId → Bool} {id p c d : NodeId}

open Relation

/-- What is below a node in preorder, where nothing is listed that is below a node
to be skipped. -/
def pruned (ns : Namespace) (skip : NodeId → Bool) (p : NodeId) : List NodeId :=
  (ns.childList p).attach.flatMap fun c =>
    c.1 :: if _later : p.index < c.1.index ∧ skip c.1 = false then ns.pruned skip c.1 else []
termination_by ns.size - p.index
decreasing_by
  have := lt_size_of_mem_childList c.2
  omega

/-- What is below a node in preorder. -/
def below (ns : Namespace) (p : NodeId) : List NodeId := ns.pruned (fun _ => false) p

namespace Linked

/-- **Induction towards the leaves.**  What holds of a node if it holds of its
children holds of every node. -/
theorem induction (linked : ns.Linked) {motive : NodeId → Prop}
    (h : ∀ p, (∀ c ∈ ns.childList p, motive c) → motive p) (p : NodeId) : motive p := by
  induction hn : ns.size - p.index using Nat.strongRecOn generalizing p with
  | ind n ih =>
    refine h p fun c hc => ih (ns.size - c.index) ?_ c rfl
    have h₁ := linked.parent_lt hc
    have h₂ := lt_size_of_mem_childList hc
    omega

theorem pruned_eq (linked : ns.Linked) (skip : NodeId → Bool) (p : NodeId) :
    ns.pruned skip p =
      (ns.childList p).flatMap fun c => c :: if skip c then [] else ns.pruned skip c := by
  rw [pruned]
  conv_rhs => rw [← List.attach_map_subtype_val (ns.childList p), List.flatMap_map]
  refine List.flatMap_congr fun c _ => ?_
  cases hskip : skip c.1 <;> simp [linked.parent_lt c.2]

/-- The preorder depends on who is whose child and on nothing else. -/
theorem pruned_congr {ns' : Namespace} (linked : ns.Linked) (linked' : ns'.Linked)
    (h : ∀ p, ns'.childList p = ns.childList p) (skip : NodeId → Bool) (p : NodeId) :
    ns'.pruned skip p = ns.pruned skip p := by
  induction p using linked.induction with
  | h p ih =>
    rw [linked'.pruned_eq, linked.pruned_eq, h]
    refine List.flatMap_congr fun c hc => ?_
    rw [ih c hc]

/-- The recursion of the preorder. -/
theorem below_eq (linked : ns.Linked) (p : NodeId) :
    ns.below p = (ns.childList p).flatMap fun c => c :: ns.below c := by
  rw [below, linked.pruned_eq]
  rfl

end Linked

namespace Built

theorem mem_below (built : ns.Built) : id ∈ ns.below p ↔ TransGen ns.Up id p := by
  induction p using built.linked.induction with
  | h p ih =>
    rw [built.linked.below_eq, List.mem_flatMap, TransGen.tail'_iff]
    refine exists_congr fun c => ?_
    rw [and_comm, built.up_iff]
    refine and_congr_left fun hc => ?_
    rw [List.mem_cons, ih c hc, reflTransGen_iff_eq_or_transGen, eq_comm]

/-- Going up is unambiguous. -/
theorem rightUnique_up (built : ns.Built) : Relator.RightUnique ns.Up := fun _ _ _ h h' =>
  eq_of_mem_childList (built.up_iff.1 h) (built.up_iff.1 h')

/-- The children of a node have no descendant in common. -/
theorem eq_of_common_descendant (built : ns.Built) (hc : c ∈ ns.childList p)
    (hd : d ∈ ns.childList p) (hidc : ReflTransGen ns.Up id c) (hidd : ReflTransGen ns.Up id d) :
    c = d := by
  have above {c d : NodeId} (hc : c ∈ ns.childList p) (hd : d ∈ ns.childList p)
      (h : ReflTransGen ns.Up c d) : c = d := by
    rcases h.cases_head with rfl | ⟨up, hup, hrest⟩
    · rfl
    · obtain rfl := eq_of_mem_childList hc (built.up_iff.1 hup)
      exact absurd (built.linked.parent_lt hd) (Nat.not_lt.2 (built.reflTransGen_up_le hrest))
  rcases ReflTransGen.total_of_right_unique built.rightUnique_up hidc hidd with h | h
  · exact above hc hd h
  · exact (above hd hc h).symm

/-- A child and what is below it are the nodes from which one gets up to it. -/
theorem mem_cons_below (built : ns.Built) : id ∈ c :: ns.below c ↔ ReflTransGen ns.Up id c := by
  rw [List.mem_cons, built.mem_below, reflTransGen_iff_eq_or_transGen, eq_comm]

/-- **Nothing is listed again, and nothing is listed after what is below it**: from
a node of the list one does not get up to a later one. -/
theorem pairwise_below (built : ns.Built) (p : NodeId) :
    (ns.below p).Pairwise fun a b => ¬ReflTransGen ns.Up a b := by
  induction p using built.linked.induction with
  | h p ih =>
    rw [built.linked.below_eq, List.pairwise_flatMap]
    refine ⟨fun c hc => List.pairwise_cons.2 ⟨fun b hb hup => ?_, ih c hc⟩, ?_⟩
    · have hlt := built.transGen_up_lt (built.mem_below.1 hb)
      exact Nat.not_lt.2 (built.reflTransGen_up_le hup) hlt
    · refine (ns.nodup_childList p).imp_of_mem fun hc hd hne a ha b hb hup => hne ?_
      exact built.eq_of_common_descendant hc hd (built.mem_cons_below.1 ha)
        (hup.trans (built.mem_cons_below.1 hb))

theorem nodup_below (built : ns.Built) (p : NodeId) : (ns.below p).Nodup :=
  (built.pairwise_below p).imp fun h => by
    rintro rfl
    exact h .refl

theorem lt_size_of_mem_below (built : ns.Built) (h : id ∈ ns.below p) : id.index < ns.size := by
  obtain ⟨up, hup, -⟩ := TransGen.head'_iff.1 (built.mem_below.1 h)
  exact lt_size_of_mem_childList (built.up_iff.1 hup)

theorem lt_of_mem_below (built : ns.Built) (h : id ∈ ns.below p) : p.index < id.index :=
  built.transGen_up_lt (built.mem_below.1 h)

theorem length_below_le (built : ns.Built) (p : NodeId) : (ns.below p).length ≤ ns.size := by
  have hsub : ns.below p ⊆ (List.range ns.size).map NodeId.mk := fun id hid =>
    List.mem_map.2 ⟨id.index, List.mem_range.2 (built.lt_size_of_mem_below hid), rfl⟩
  simpa using (built.nodup_below p).length_le_of_subset hsub

/-- **Below the root there is every other node.** -/
theorem length_below_root (built : ns.Built) : (ns.below ns.root).length = ns.size - 1 := by
  have hmem (id : NodeId) :
      id ∈ ns.below ns.root ↔ id ∈ (List.range' 1 (ns.size - 1)).map NodeId.mk := by
    have hroot : ns.root.index = 0 := congrArg NodeId.index built.root_eq
    have hrange : id ∈ (List.range' 1 (ns.size - 1)).map NodeId.mk ↔
        0 < id.index ∧ id.index < ns.size := by
      simp only [List.mem_map, List.mem_range'_1]
      exact ⟨by rintro ⟨i, hi, rfl⟩; dsimp only; omega, fun hi => ⟨id.index, by omega, rfl⟩⟩
    rw [hrange]
    constructor
    · intro h
      exact ⟨hroot ▸ built.lt_of_mem_below h, built.lt_size_of_mem_below h⟩
    · rintro ⟨hpos, hlt⟩
      have hne : ns.root ≠ id := by
        rintro rfl
        omega
      have hreaches := reflTransGen_iff_eq_or_transGen.1 (built.reaches_root hlt)
      exact built.mem_below.2 (hreaches.resolve_left hne)
  have hnodup : ((List.range' 1 (ns.size - 1)).map NodeId.mk).Nodup :=
    List.Nodup.map (fun _ _ h => congrArg NodeId.index h) List.nodup_range'
  rw [((List.perm_ext_iff_of_nodup (built.nodup_below _) hnodup).2 hmem).length_eq,
    List.length_map, List.length_range']

end Built
end Namespace
end Acpi
