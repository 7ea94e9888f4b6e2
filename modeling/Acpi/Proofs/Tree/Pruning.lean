/-
# Walks that leave parts out

A walk decides at every node whether to go below it, so over one tree there are as many
walks as there are sets of nodes to be passed over.  Each of them lists
`Namespace.pruned` (`Linked.trail_pruned`), and that is the full preorder without the
nodes that have a node passed over between them and the root (`Built.pruned_eq_filter`).

One of these walks passes over a single node.  Up to that node it is the full walk, and
behind it the descendants of the node are missing: so passing over a node leads to the
first later node that is not below it (`Built.pruned_walk`).
-/

import Acpi.Proofs.Tree.Traversal
import Mathlib.Data.List.Perm.Basic
import Mathlib.Data.List.Flatten

namespace Acpi
namespace Namespace

variable {ns : Namespace} {skip : NodeId → Bool} {id p top : NodeId}

open Relation

/-- Along a trail each entry leads to the next one. -/
theorem Trail.successor_eq {before after : List NodeId}
    (h : ns.Trail skip (before ++ id :: after) none) :
    ns.successor (some id) (!skip id) = .ok after.head? := by
  induction before with
  | nil => rw [h.1, Option.or_none]
  | cons first rest ih => exact ih h.2

/-- Of two nodes above a third one, one is above the other. -/
theorem Built.above_or_above (built : ns.Built) {a b : NodeId} (ha : TransGen ns.Up id a)
    (hb : ReflTransGen ns.Up id b) : ReflTransGen ns.Up a b ∨ TransGen ns.Up b a := by
  rcases ReflTransGen.total_of_right_unique built.rightUnique_up ha.to_reflTransGen hb with h | h
  · exact .inl h
  · rcases reflTransGen_iff_eq_or_transGen.1 h with rfl | h
    · exact .inl .refl
    · exact .inr h

/-- **What a pruned preorder holds**: the nodes that have no node to be skipped between
them and the node at which it starts. -/
theorem Built.mem_pruned (built : ns.Built) :
    id ∈ ns.pruned skip p ↔ TransGen ns.Up id p ∧
      ∀ a, TransGen ns.Up id a → TransGen ns.Up a p → skip a = false := by
  induction p using built.linked.induction with
  | h p ih =>
    rw [built.linked.pruned_eq, List.mem_flatMap]
    constructor
    · rintro ⟨c, hc, hid⟩
      have hcp : ns.Up c p := built.up_iff.2 hc
      -- what is between the node and `p` is `c` or between the node and `c`
      have hbetween {a : NodeId} (hidc : ReflTransGen ns.Up id c) (ha : TransGen ns.Up id a)
          (hap : TransGen ns.Up a p) : ReflTransGen ns.Up a c := by
        rcases built.above_or_above ha hidc with h | h
        · exact h
        · obtain ⟨up, hup, hrest⟩ := TransGen.head'_iff.1 h
          obtain rfl := eq_of_mem_childList (built.up_iff.1 hup) hc
          have h₁ := built.reflTransGen_up_le hrest
          have h₂ := built.transGen_up_lt hap
          omega
      rcases List.mem_cons.1 hid with rfl | hid
      · refine ⟨.single hcp, fun a ha hap => ?_⟩
        have h₁ := built.transGen_up_lt ha
        have h₂ := built.reflTransGen_up_le (hbetween .refl ha hap)
        omega
      · cases hskip : skip c with
        | true =>
          rw [hskip, if_pos rfl] at hid
          exact absurd hid List.not_mem_nil
        | false =>
          rw [hskip, if_neg Bool.false_ne_true, ih c hc] at hid
          refine ⟨hid.1.tail hcp, fun a ha hap => ?_⟩
          rcases reflTransGen_iff_eq_or_transGen.1
            (hbetween hid.1.to_reflTransGen ha hap) with rfl | hac
          · exact hskip
          · exact hid.2 a ha hac
    · rintro ⟨hidp, hfree⟩
      obtain ⟨c, hidc, hcp⟩ := TransGen.tail'_iff.1 hidp
      refine ⟨c, built.up_iff.1 hcp, ?_⟩
      rcases reflTransGen_iff_eq_or_transGen.1 hidc with rfl | hidc
      · exact List.mem_cons_self ..
      · rw [hfree c hidc (.single hcp), if_neg Bool.false_ne_true]
        refine List.mem_cons_of_mem _ ((ih c (built.up_iff.1 hcp)).2 ⟨hidc, fun a ha hac => ?_⟩)
        exact hfree a ha (hac.tail hcp)

/-- Leaving parts out changes no order. -/
theorem Linked.pruned_sublist (linked : ns.Linked) (skip : NodeId → Bool) (p : NodeId) :
    (ns.pruned skip p).Sublist (ns.below p) := by
  induction p using linked.induction with
  | h p ih =>
    rw [linked.pruned_eq, linked.below_eq]
    refine List.Sublist.flatMap_right _ fun c hc => .cons_cons c ?_
    split
    · exact List.nil_sublist _
    · exact ih c hc

/-- **A pruned preorder is the preorder without what is below the nodes to be skipped.** -/
theorem Built.pruned_eq_filter (built : ns.Built) (skip : NodeId → Bool) (p : NodeId) :
    ns.pruned skip p =
      (ns.below p).filter fun id => ∀ a ∈ ns.below p, id ∈ ns.below a → skip a = false := by
  have hnodup := built.nodup_below p
  have hsub := built.linked.pruned_sublist skip p
  refine (hnodup.perm_iff_eq_of_sublist hsub List.filter_sublist).1 ?_
  refine (List.perm_ext_iff_of_nodup (hsub.nodup hnodup) (hnodup.filter _)).2 fun id => ?_
  rw [List.mem_filter, decide_eq_true_iff, built.mem_pruned, built.mem_below]
  refine and_congr_right fun _ => forall_congr' fun a => ?_
  rw [built.mem_below, built.mem_below]
  exact ⟨fun h hap hid => h hid hap, fun h hid hap => h hap hid⟩

/-- The walk that leaves parts out starts at the first node and follows the pruned
preorder to its end. -/
theorem Linked.trail_rootedAt (linked : ns.Linked) (htop : top.index < ns.size)
    (skip : NodeId → Bool) :
    (∀ flag, (ns.rootedAt top).successor none flag = .ok (ns.pruned skip top).head?) ∧
      (ns.rootedAt top).Trail skip (ns.pruned skip top) none := by
  have hrooted := linked.rootedAt top
  rw [← linked.pruned_rootedAt skip top top]
  refine ⟨fun flag => ?_, hrooted.trail_pruned skip top (Nat.le_refl _) none (climb_root _)⟩
  rw [hrooted.head?_pruned]
  exact hrooted.firstChild_eq htop

/-- The successor of a node of the full walk when nothing below it is to be visited. -/
theorem Built.successor_false (built : ns.Built) (htop : top.index < ns.size)
    {before after : List NodeId} (hbelow : ns.below top = before ++ id :: after) :
    (ns.rootedAt top).successor (some id) false =
      .ok (after.find? fun d => d ∉ ns.below id) := by
  -- the walk that passes over this node and no other one
  have hpruned : ns.pruned (· = id) top =
      (before ++ id :: after).filter fun d => d ∉ ns.below id := by
    rw [built.pruned_eq_filter, ← hbelow]
    refine List.filter_congr fun d _ => decide_eq_decide.2 ⟨fun h hd => ?_, fun h a _ hd => ?_⟩
    · exact absurd (h id (by simp [hbelow]) hd) (by simp)
    · exact decide_eq_false fun he => h (he ▸ hd)
  have hid : id ∉ ns.below id := fun h =>
    Nat.lt_irrefl _ (built.transGen_up_lt (built.mem_below.1 h))
  have htrail := (built.linked.trail_rootedAt htop (· = id)).2
  rw [hpruned, List.filter_append, List.filter_cons_of_pos (by simpa using hid)] at htrail
  have hnext := htrail.successor_eq
  rwa [decide_eq_true rfl, Bool.not_true, List.head?_filter] at hnext

/-- **Pruned and resumed walks.**  From any node as the root, and for any choice of nodes
to be passed over, the walk that goes below all the others starts at the same first node
whatever it is told there, and ends.  It lists in preorder, each of them once, the nodes
below the root that have no node passed over above them, short of the root.  In
particular, a walk can be taken up again at any node of the full walk: going below the
node leads to the one that follows in the full walk, and passing over it to the first
later one that is not below it, or to the end if there is none. -/
theorem Built.pruned_walk (built : ns.Built) (htop : top.index < ns.size) :
    (ns.rootedAt top).walk = .ok (ns.below top) ∧
    (∀ p id, id ∈ ns.below p ↔ TransGen ns.Up id p) ∧
    (∀ skip : NodeId → Bool, ∃ l : List NodeId,
      (∀ flag, (ns.rootedAt top).successor none flag = .ok l[0]?) ∧
      (∀ i (hi : i < l.length),
        (ns.rootedAt top).successor (some l[i]) (!skip l[i]) = .ok l[i + 1]?) ∧
      l.Sublist (ns.below top) ∧ l.Nodup ∧
      ∀ id, id ∈ l ↔ TransGen ns.Up id top ∧
        ∀ a, TransGen ns.Up id a → TransGen ns.Up a top → skip a = false) ∧
    ∀ before id after, ns.below top = before ++ id :: after →
      (ns.rootedAt top).successor (some id) true = .ok after.head? ∧
      (ns.rootedAt top).successor (some id) false =
        .ok (after.find? fun d => d ∉ ns.below id) := by
  have linked := built.linked
  refine ⟨Walk.collect_of_ahead (linked.ahead_start htop)
    (Nat.lt_succ_of_le (built.length_below_le top)), fun p id => built.mem_below,
    fun skip => ?_, fun before id after hbelow => ⟨?_, built.successor_false htop hbelow⟩⟩
  · obtain ⟨hfirst, htrail⟩ := linked.trail_rootedAt htop skip
    have hsub := linked.pruned_sublist skip top
    refine ⟨ns.pruned skip top, fun flag => ?_, fun i hi => ?_, hsub,
      hsub.nodup (built.nodup_below top), fun id => built.mem_pruned⟩
    · rw [hfirst, List.head?_eq_getElem?]
    · rw [← List.take_append_drop i (ns.pruned skip top), List.drop_eq_getElem_cons hi] at htrail
      rw [htrail.successor_eq, List.head?_drop]
  · have htrail := (linked.trail_rootedAt htop fun _ => false).2
    rw [show ns.pruned (fun _ => false) top = before ++ id :: after from hbelow] at htrail
    exact htrail.successor_eq

/-- Passing over the first of three devices leads past the one below it. -/
theorem Built.pruned_walk_threeDevices :
    threeDevices.Built ∧ NodeId.first.index < threeDevices.size ∧
      threeDevices.below NodeId.first = [] ++ ⟨1⟩ :: [⟨3⟩, ⟨2⟩] ∧
      (threeDevices.rootedAt NodeId.first).successor (some ⟨1⟩) true = .ok (some ⟨3⟩) ∧
      (threeDevices.rootedAt NodeId.first).successor (some ⟨1⟩) false = .ok (some ⟨2⟩) := by
  have htop : NodeId.first.index < threeDevices.size := by decide
  obtain ⟨hwalk, hmem, -, hresume⟩ := built_threeDevices.pruned_walk htop
  have hbelow : threeDevices.below NodeId.first = [] ++ ⟨1⟩ :: [⟨3⟩, ⟨2⟩] :=
    Except.ok.inj (hwalk.symm.trans (by decide +kernel))
  obtain ⟨hdown, hover⟩ := hresume _ _ _ hbelow
  refine ⟨built_threeDevices, htop, hbelow, hdown, hover.trans ?_⟩
  have h₃ : (⟨3⟩ : NodeId) ∈ threeDevices.below ⟨1⟩ := (hmem _ _).2 (.single rfl)
  have h₂ : (⟨2⟩ : NodeId) ∉ threeDevices.below ⟨1⟩ := fun h => by
    obtain ⟨up, hup, hrest⟩ := TransGen.head'_iff.1 ((hmem _ _).1 h)
    obtain rfl : up = NodeId.first := Option.some.inj (Except.ok.inj (hup.symm.trans rfl))
    exact absurd (built_threeDevices.reflTransGen_up_le hrest) (by decide)
  simp [h₂, h₃]

end Namespace
end Acpi
