/-
# Exact descent

What `descend` does along the links between siblings is told here in terms of parents,
names and the order in which nodes were added.  A string of bytes leads from a node to
another one just when it consists of whole segments and there is a line of nodes from
the one to the other in which each is the first to have been added of the children of
the one before that bear the next name of the string (`Namespace.Line`).  So the node
that is reached lies as many levels below as there are segments, and of siblings of one
name the first is taken for good: what follows in the string is looked up below it and
nowhere else.

Where no two siblings bear the same name, the choice of the first is no choice, and the
strings that lead to a node are those that spell the names on the way to it
(`Namespace.Spells`), of which there is one for every node below
(`Built.descend_exact`).
-/

import Acpi.Proofs.Tree.Address
import Acpi.Proofs.Tree.Ancestry
import Mathlib.Data.List.Induction

namespace Acpi

namespace Segment

theorem bytes_inj {s t : Segment} (h : s.bytes = t.bytes) : s = t := by
  cases s
  cases t
  simpa [bytes] using h

end Segment

namespace Path

/-- The bytes of a name stand where those of the names before it end. -/
theorem take_drop_joined {names : List Segment} {i : Nat} {s : Segment} (h : names[i]? = some s) :
    ((joined names).drop (4 * i)).take 4 = s.bytes := by
  induction names generalizing i with
  | nil => cases h
  | cons name names ih =>
    cases i with
    | zero =>
      obtain rfl := Option.some.inj h
      rfl
    | succ i => exact ih h

end Path

namespace Namespace

variable {ns : Namespace} {id p d : NodeId} {name : Segment} {names : List Segment}
  {v v' : List UInt8} {k : Nat} {n : Nat → NodeId}

open Relation

/-- Nodes each of which, for as many segments of a string, is the first child of the one
before it that bears the name the segment spells. -/
def Line (ns : Namespace) (v : List UInt8) (k : Nat) (n : Nat → NodeId) : Prop :=
  ∀ i < k, ∃ name, name.bytes = (v.drop (4 * i)).take 4 ∧ ns.FirstOfName (n i) name (n (i + 1))

/-- The names on the way from a node down to another one, one after another. -/
inductive Spells (ns : Namespace) (p : NodeId) : NodeId → List UInt8 → Prop
  | here : Spells ns p p []
  | child {up id : NodeId} {name : Segment} {v : List UInt8} : Spells ns p up v → ns.Up id up →
      ns.name id = .ok name → Spells ns p id (v ++ name.bytes)

/-- No two siblings bear the same name. -/
def SiblingsDiffer (ns : Namespace) : Prop :=
  ∀ p a b, ns.Up a p → ns.Up b p → ns.name a = ns.name b → a = b

/-- A line leads as many levels down as it has segments. -/
theorem Line.ancestor (h : ns.Line v k n) : ns.Ancestor k (n k) (n 0) := by
  induction k with
  | zero => exact .self _
  | succ k ih =>
    obtain ⟨name, -, hfirst⟩ := h k (Nat.lt_succ_self k)
    exact .step hfirst.up (ih fun i hi => h i (Nat.lt_succ_of_lt hi))

theorem Spells.reflTransGen (h : ns.Spells p d v) : ReflTransGen ns.Up d p := by
  induction h with
  | here => exact .refl
  | child _ hup _ ih => exact .head hup ih

namespace Built

/-- Names are followed along a line of nodes, by induction on the names: the line for
the first name and the others begins one node before that for the others. -/
theorem follow_eq_some_iff (built : ns.Built) :
    ns.follow p names = some d ↔ ∃ n : Nat → NodeId, n 0 = p ∧ n names.length = d ∧
      ∀ i name, names[i]? = some name → ns.FirstOfName (n i) name (n (i + 1)) := by
  induction names generalizing p with
  | nil =>
    refine ⟨fun h => ⟨fun _ => p, rfl, Option.some.inj h, nofun⟩, ?_⟩
    rintro ⟨n, rfl, rfl, -⟩
    rfl
  | cons first names ih =>
    rw [follow, Option.bind_eq_some_iff]
    constructor
    · rintro ⟨c, hc, hrest⟩
      obtain ⟨n, rfl, hd, hline⟩ := ih.1 hrest
      refine ⟨fun i => i.casesOn p n, rfl, hd, fun i name hname => ?_⟩
      cases i with
      | zero =>
        obtain rfl := Option.some.inj hname
        exact built.eldest_eq_some_iff.1 hc
      | succ i => exact hline i name hname
    · rintro ⟨n, rfl, hd, hline⟩
      refine ⟨n 1, built.eldest_eq_some_iff.2 (hline 0 first rfl), ?_⟩
      exact ih.2 ⟨fun i => n (i + 1), rfl, hd, fun i name hname => hline (i + 1) name hname⟩

/-- **A string of bytes leads along a line of nodes**, one for each of its segments. -/
theorem descend_eq_some_iff (built : ns.Built) (hp : p.index < ns.size) :
    ns.descend p v = .ok (some d) ↔
      ∃ k, v.length = 4 * k ∧ ∃ n : Nat → NodeId, n 0 = p ∧ n k = d ∧ ns.Line v k n := by
  by_cases hv : 4 ∣ v.length
  · obtain ⟨names, rfl⟩ : ∃ names, v = Path.joined names := ⟨_, (Path.joined_segmentsOf hv).symm⟩
    have hline (n : Nat → NodeId) : ns.Line (Path.joined names) names.length n ↔
        ∀ i name, names[i]? = some name → ns.FirstOfName (n i) name (n (i + 1)) := by
      constructor
      · intro h i name hname
        obtain ⟨name', hbytes, hfirst⟩ := h i (List.getElem?_eq_some_iff.1 hname).1
        rw [Path.take_drop_joined hname] at hbytes
        exact Segment.bytes_inj hbytes ▸ hfirst
      · intro h i hi
        have hname := List.getElem?_eq_getElem hi
        exact ⟨names[i], (Path.take_drop_joined hname).symm, h i _ hname⟩
    rw [built.descend_joined hp, Except.ok.injEq, built.follow_eq_some_iff]
    simp only [← hline]
    constructor
    · exact fun h => ⟨names.length, Path.length_joined names, h⟩
    · rintro ⟨k, hk, h⟩
      obtain rfl : names.length = k := by
        rw [Path.length_joined] at hk
        omega
      exact h
  · rw [built.descend_eq hp, if_neg hv]
    refine iff_of_false (fun h => by cases h) ?_
    rintro ⟨k, hk, -⟩
    exact hv ⟨k, hk⟩

/-- Descending spells the names that it passes. -/
theorem spells_of_follow (built : ns.Built) (h : ns.follow p names = some d) :
    ns.Spells p d (Path.joined names) := by
  induction names using List.reverseRecOn generalizing d with
  | nil =>
    obtain rfl := Option.some.inj h
    exact .here
  | append_singleton names name ih =>
    rw [follow_concat, Option.bind_eq_some_iff] at h
    obtain ⟨c, hc, hd⟩ := h
    have hfirst := built.eldest_eq_some_iff.1 hd
    rw [Path.joined_concat]
    exact (ih hc).child hfirst.up hfirst.named

/-- Without siblings of one name, whatever spells the names on a way is followed along
it. -/
theorem follow_of_spells (built : ns.Built) (hdiffer : ns.SiblingsDiffer) (h : ns.Spells p d v) :
    ∃ names, v = Path.joined names ∧ ns.follow p names = some d := by
  induction h with
  | here => exact ⟨[], rfl, rfl⟩
  | @child up id name v _ hup hname ih =>
    obtain ⟨names, rfl, hfollow⟩ := ih
    have hfirst : ns.FirstOfName up name id := ⟨hup, hname, fun sibling hsibling hnamed =>
      hdiffer up id sibling hup hsibling (hname.trans hnamed.symm) ▸ Nat.le_refl _⟩
    refine ⟨names ++ [name], (Path.joined_concat names name).symm, ?_⟩
    rw [follow_concat, hfollow, Option.bind_some]
    exact built.eldest_eq_some_iff.2 hfirst

theorem exists_spells (built : ns.Built) (h : ReflTransGen ns.Up d p) : ∃ v, ns.Spells p d v := by
  induction h using ReflTransGen.head_induction_on with
  | refl => exact ⟨[], .here⟩
  | head hup _ ih =>
    obtain ⟨v, hv⟩ := ih
    obtain ⟨name, hname⟩ := name_eq_ok_of_lt (lt_size_of_mem_childList (built.up_iff.1 hup))
    exact ⟨v ++ name.bytes, hv.child hup hname⟩

theorem spells_unique (built : ns.Built) (h : ns.Spells p d v) (h' : ns.Spells p d v') :
    v = v' := by
  have hround {up : NodeId} {v : List UInt8} (hspells : ns.Spells p up v) : ¬ns.Up p up :=
    fun hup => Nat.lt_irrefl _ (built.transGen_up_lt (.head' hup hspells.reflTransGen))
  induction h generalizing v' with
  | here =>
    cases h' with
    | here => rfl
    | child hspells hup => exact absurd hup (hround hspells)
  | child hspells hup hname ih =>
    cases h' with
    | here => exact absurd hup (hround hspells)
    | child hspells' hup' hname' =>
      obtain rfl := up_unique hup hup'
      obtain rfl := Except.ok.inj (hname.symm.trans hname')
      rw [ih hspells']

/-- **Exact descent.**  Every string of bytes leads somewhere or nowhere.  It leads to a
node just when it consists of whole segments and there is a line of nodes to that one,
each the first to have been added of the children of the one before that bear the name
of the segment.  The node lies exactly as many levels below as there are segments; once
the beginning of a string has led to a node, the rest is looked up below this one; and a
string that does not consist of whole segments leads nowhere.  If no two siblings bear
the same name, what leads to a node is what spells the names on the way down to it, and
there is one such string for every node below. -/
theorem descend_exact (built : ns.Built) (hp : p.index < ns.size) :
    (∀ v, ∃ found, ns.descend p v = .ok found) ∧
    (∀ v d, ns.descend p v = .ok (some d) ↔
      ∃ k, v.length = 4 * k ∧ ∃ n : Nat → NodeId, n 0 = p ∧ n k = d ∧ ns.Line v k n) ∧
    (∀ v d, ns.descend p v = .ok (some d) → ∀ k, ns.Ancestor k d p ↔ v.length = 4 * k) ∧
    (∀ u v c, ns.descend p u = .ok (some c) → ns.descend p (u ++ v) = ns.descend c v) ∧
    (∀ v, ¬4 ∣ v.length → ns.descend p v = .ok none) ∧
    (ns.SiblingsDiffer → ∀ d,
      (∀ v, ns.descend p v = .ok (some d) ↔ ns.Spells p d v) ∧
      (ReflTransGen ns.Up d p → ∃! v, ns.Spells p d v)) := by
  have hwhole {v : List UInt8} {d : NodeId} (h : ns.descend p v = .ok (some d)) :
      4 ∣ v.length := by
    obtain ⟨k, hk, -⟩ := (built.descend_eq_some_iff hp).1 h
    exact ⟨k, hk⟩
  refine ⟨built.exists_descend hp, fun v d => built.descend_eq_some_iff hp, fun v d h j => ?_,
    fun u v c h => ?_, fun v hv => ?_, fun hdiffer d => ⟨fun v => ⟨fun h => ?_, fun h => ?_⟩,
    fun hbelow => ?_⟩⟩
  · obtain ⟨k, hk, n, rfl, rfl, hline⟩ := (built.descend_eq_some_iff hp).1 h
    constructor
    · intro hj
      rw [built.ancestor_steps_unique hj hline.ancestor, hk]
    · intro hj
      obtain rfl : k = j := by omega
      exact hline.ancestor
  · rw [descend_append (hwhole h), h]
    rfl
  · rw [built.descend_eq hp, if_neg hv]
  · have hv := hwhole h
    rw [built.descend_eq hp, if_pos hv, Except.ok.injEq] at h
    exact Path.joined_segmentsOf hv ▸ built.spells_of_follow h
  · obtain ⟨names, rfl, hfollow⟩ := built.follow_of_spells hdiffer h
    rw [built.descend_joined hp, hfollow]
  · obtain ⟨v, hv⟩ := built.exists_spells hbelow
    exact ⟨v, hv, fun v' hv' => built.spells_unique hv' hv⟩

/-- Of the two nodes called `_SB_`, the one with a bridge below it was added first; the
names of three devices are spelled in one way. -/
theorem descend_exact_rootBridge :
    rootBridge.Built ∧ (⟨0⟩ : NodeId).index < rootBridge.size ∧
      rootBridge.descend ⟨0⟩ (Path.joined [busName, bridgeName]) = .ok (some ⟨2⟩) ∧
      rootBridge.Ancestor 2 ⟨2⟩ ⟨0⟩ ∧
      threeDevices.Built ∧ (⟨0⟩ : NodeId).index < threeDevices.size ∧
      threeDevices.SiblingsDiffer ∧ ∃! v, threeDevices.Spells ⟨0⟩ ⟨3⟩ v := by
  have hroot : (⟨0⟩ : NodeId).index < rootBridge.size := by decide
  obtain ⟨-, hline, hlevels, -⟩ := built_rootBridge.descend_exact hroot
  have hbus : rootBridge.FirstOfName ⟨0⟩ busName ⟨1⟩ :=
    built_rootBridge.eldest_eq_some_iff.1 (by decide)
  have hbridge : rootBridge.FirstOfName ⟨1⟩ bridgeName ⟨2⟩ :=
    built_rootBridge.eldest_eq_some_iff.1 (by decide)
  have hfound : rootBridge.descend ⟨0⟩ (Path.joined [busName, bridgeName]) = .ok (some ⟨2⟩) := by
    refine (hline _ _).2 ⟨2, rfl, NodeId.mk, rfl, rfl, fun i hi => ?_⟩
    match i with
    | 0 => exact ⟨busName, rfl, hbus⟩
    | 1 => exact ⟨bridgeName, rfl, hbridge⟩
  have htop : (⟨0⟩ : NodeId).index < threeDevices.size := by decide
  have hdiffer : threeDevices.SiblingsDiffer := by
    intro p a b ha hb hname
    have hchildren : ∀ i < 4, ∀ a ∈ threeDevices.childList ⟨i⟩, ∀ b ∈ threeDevices.childList ⟨i⟩,
        threeDevices.name a = threeDevices.name b → a = b := by
      decide
    rw [built_threeDevices.up_iff] at ha hb
    have hp := Nat.lt_trans (built_threeDevices.linked.parent_lt ha) (lt_size_of_mem_childList ha)
    exact hchildren p.index hp a ha b hb hname
  obtain ⟨-, -, -, -, -, hspells⟩ := built_threeDevices.descend_exact htop
  refine ⟨built_rootBridge, hroot, hfound, (hlevels _ _ hfound 2).2 rfl, built_threeDevices, htop,
    hdiffer, (hspells hdiffer ⟨3⟩).2 (built_threeDevices.reaches_root ?_)⟩
  decide

end Built
end Namespace
end Acpi
