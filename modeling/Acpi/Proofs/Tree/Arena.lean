/-
# The arena is a tree

A namespace is built by adding nodes below nodes that it has and by putting other
objects in the place of objects (`Namespace.Built`).  Whatever the order, its
links are those of a tree: following them from a node to its first child and from
sibling to sibling lists the nodes that name it as their parent, in order of
creation, and going up from any node ends at the root (`Namespace.Built.tree`).
-/

import Acpi.Namespace.Lookup
import Acpi.Proofs.Tree.Links
import Mathlib.Logic.ExistsUnique
import Mathlib.Logic.Relation

namespace Acpi
namespace Namespace

variable {ns ns' : Namespace} {id p q : NodeId}

/-- A namespace that has been built from the empty one with its own handles. -/
inductive Built : Namespace → Prop
  | empty : Built Namespace.empty
  | addChild {ns ns' parent name object id} : Built ns → parent.index < ns.size →
      ns.addChild parent name object = .ok (id, ns') → Built ns'
  | setObject {ns ns' id object} : Built ns → ns.setObject id object = .ok ns' → Built ns'

/-- One step towards the root. -/
def Up (ns : Namespace) (id up : NodeId) : Prop := ns.parent id = .ok (some up)

theorem node_eq_ok_of_lt (h : id.index < ns.size) : ∃ n, ns.node id = .ok n :=
  ⟨ns.nodes[id.index], node_eq_ok_iff.2 (Array.getElem?_eq_getElem h)⟩

/-- Away from the root the parent of a node is the one that the arena holds. -/
theorem up_iff_of_ne_root (h : id ≠ ns.root) : ns.Up id p ↔ id ∈ ns.childList p := by
  rw [Up, parent, if_neg h, mem_childList]
  cases hn : ns.node id with
  | error f =>
    simp only [Functor.map, Except.map, reduceCtorEq, false_iff]
    rintro ⟨n, hn', -⟩
    rw [node_eq_ok_iff.2 hn'] at hn
    cases hn
  | ok n =>
    simp only [Functor.map, Except.map, Except.ok.injEq, node_eq_ok_iff.1 hn, Option.some.injEq,
      exists_eq_left']

theorem siblingsFrom_last {n : Node} (hn : ns.nodes[id.index]? = some n) (hroot : id ≠ ns.root)
    (hnext : n.next = none) : ns.siblingsFrom id = .ok [id] := by
  rw [siblingsFrom]
  split
  · rename_i hnone
    rw [hn] at hnone
    cases hnone
  · rename_i m hm
    obtain rfl := Option.some.inj (hn.symm.trans hm)
    simp only [if_neg hroot, hnext]

theorem siblingsFrom_next {n : Node} {next : NodeId} (hn : ns.nodes[id.index]? = some n)
    (hroot : id ≠ ns.root) (hnext : n.next = some next) (hlater : id.index < next.index) :
    ns.siblingsFrom id = (id :: ·) <$> ns.siblingsFrom next := by
  rw [siblingsFrom]
  split
  · rename_i hnone
    rw [hn] at hnone
    cases hnone
  · rename_i m hm
    obtain rfl := Option.some.inj (hn.symm.trans hm)
    simp only [if_neg hroot, hnext, dif_pos hlater]

/-- From a child on, the links between siblings run along the list of children. -/
theorem Linked.siblingsFrom_eq (linked : ns.Linked) {l l' : List NodeId}
    (hlist : ns.childList p = l ++ id :: l') (hroot : ns.root ∉ ns.childList p) :
    ns.siblingsFrom id = .ok (id :: l') := by
  induction l' generalizing id l with
  | nil =>
    have hmem : id ∈ ns.childList p := by simp [hlist]
    obtain ⟨n, hn, -⟩ := mem_childList.1 hmem
    exact siblingsFrom_last hn (fun he => hroot (he ▸ hmem)) (linked.next hlist hn)
  | cons next l' ih =>
    have hmem : id ∈ ns.childList p := by simp [hlist]
    obtain ⟨n, hn, -⟩ := mem_childList.1 hmem
    have hlater : id.index < next.index := by
      have hsorted := hlist ▸ ns.pairwise_childList p
      exact List.rel_of_pairwise_cons (List.pairwise_append.1 hsorted).2.1 (List.mem_cons_self ..)
    rw [siblingsFrom_next hn (fun he => hroot (he ▸ hmem)) (linked.next hlist hn) hlater,
      ih (l := l ++ [id]) (by rw [hlist, List.append_assoc, List.singleton_append])]
    rfl

theorem Linked.firstChild_eq (linked : ns.Linked) (hp : p.index < ns.size) :
    ns.firstChild p = .ok (ns.childList p).head? := by
  obtain ⟨n, hn⟩ := node_eq_ok_of_lt hp
  rw [Namespace.firstChild, hn]
  exact congrArg Except.ok (linked.firstChild (node_eq_ok_iff.1 hn))

/-- The sibling of a child is the one behind it in the list. -/
theorem Linked.nextSibling_eq (linked : ns.Linked) {l l' : List NodeId}
    (hlist : ns.childList p = l ++ id :: l') (hroot : id ≠ ns.root) :
    ns.nextSibling id = .ok l'.head? := by
  obtain ⟨n, hn, -⟩ := mem_childList.1 (show id ∈ ns.childList p by simp [hlist])
  rw [nextSibling, if_neg hroot, node_eq_ok_iff.2 hn]
  exact congrArg Except.ok (linked.next hlist hn)

/-- **The links list the children**: those that name the node as their parent. -/
theorem Linked.children_eq (linked : ns.Linked) (hp : p.index < ns.size)
    (hroot : ns.root ∉ ns.childList p) : ns.children p = .ok (ns.childList p) := by
  simp only [children, linked.firstChild_eq hp, bind, Except.bind]
  cases hl : ns.childList p with
  | nil => rfl
  | cons first rest => exact linked.siblingsFrom_eq (l := []) hl hroot

namespace Built

theorem root_eq (built : ns.Built) : ns.root = NodeId.first := by
  induction built with
  | empty => rfl
  | addChild _ _ hadd ih =>
    obtain ⟨-, -, hroot, -⟩ := addChild_cases hadd
    exact hroot.trans ih
  | setObject _ hset ih =>
    obtain ⟨-, hroot, -⟩ := setObject_cases hset
    exact hroot.trans ih

theorem linked (built : ns.Built) : ns.Linked := by
  induction built with
  | empty => exact .empty
  | addChild _ hparent hadd ih => exact ih.addChild hparent hadd
  | setObject _ hset ih => exact ih.setObject hset

theorem root_lt_size (built : ns.Built) : ns.root.index < ns.size :=
  built.root_eq ▸ built.linked.nonempty

/-- The root is nobody's child. -/
theorem root_not_mem (built : ns.Built) (p : NodeId) : ns.root ∉ ns.childList p := by
  intro h
  have := built.linked.parent_lt h
  rw [built.root_eq] at this
  exact Nat.not_lt_zero _ this

theorem up_iff (built : ns.Built) : ns.Up id p ↔ id ∈ ns.childList p := by
  by_cases h : id = ns.root
  · subst h
    refine iff_of_false ?_ (built.root_not_mem p)
    rw [Up, parent_root]
    simp
  · exact up_iff_of_ne_root h

theorem ne_root_of_up (built : ns.Built) (h : ns.Up id p) : id ≠ ns.root := by
  rintro rfl
  exact built.root_not_mem p (built.up_iff.1 h)

theorem exists_up (built : ns.Built) (h : id.index < ns.size) (hroot : id ≠ ns.root) :
    ∃ up, ns.Up id up ∧ up.index < id.index := by
  obtain ⟨n, hn⟩ := node_eq_ok_of_lt h
  have hpos : 0 < id.index := Nat.pos_of_ne_zero fun h0 =>
    hroot (built.root_eq ▸ NodeId.ext h0)
  obtain ⟨up, hup, hlt⟩ := built.linked.parent (node_eq_ok_iff.1 hn) hpos
  exact ⟨up, built.up_iff.2 (mem_childList.2 ⟨n, node_eq_ok_iff.1 hn, hup⟩), hlt⟩

theorem transGen_up_lt (built : ns.Built) (h : Relation.TransGen ns.Up id p) :
    p.index < id.index := by
  induction h with
  | single hup => exact built.linked.parent_lt (built.up_iff.1 hup)
  | tail _ hup ih => exact Nat.lt_trans (built.linked.parent_lt (built.up_iff.1 hup)) ih

theorem reflTransGen_up_le (built : ns.Built) (h : Relation.ReflTransGen ns.Up id p) :
    p.index ≤ id.index := by
  rcases Relation.reflTransGen_iff_eq_or_transGen.1 h with rfl | h
  · exact Nat.le_refl _
  · exact Nat.le_of_lt (built.transGen_up_lt h)

/-- **Every node is below the root**, by induction on its number: its parent is
earlier. -/
theorem reaches_root (built : ns.Built) (h : id.index < ns.size) :
    Relation.ReflTransGen ns.Up id ns.root := by
  induction hi : id.index using Nat.strongRecOn generalizing id with
  | ind i ih =>
    by_cases hroot : id = ns.root
    · rw [hroot]
    · obtain ⟨up, hup, hlt⟩ := built.exists_up h hroot
      exact .head hup (ih up.index (hi ▸ hlt) (Nat.lt_trans hlt h) rfl)

/-- **Arena invariant.**  The root is the node that is there from the start; the
arena holds no parent and no sibling for it, and it is the only node without a
parent.  Every other node has a parent that was there before it.  Following the
links from a node that the namespace has lists exactly the nodes whose parent it
is, in order of creation, and the link to its last child leads to the end of that
list.  So there is no way round in a circle, every node reaches the root, and every
node but the root is listed once, under one parent. -/
theorem tree (built : ns.Built) :
    (ns.root = NodeId.first ∧
      ∃ n, ns.node ns.root = .ok n ∧ n.parent = none ∧ n.next = none) ∧
    (∀ id, id.index < ns.size → (ns.parent id = .ok none ↔ id = ns.root)) ∧
    (∀ id, id.index < ns.size → id ≠ ns.root → ∃ up, ns.Up id up ∧ up.index < id.index) ∧
    (∀ p, p.index < ns.size → ∃ l n, ns.children p = .ok l ∧
      ns.firstChild p = .ok l.head? ∧
      (∀ before id rest, l = before ++ id :: rest → ns.nextSibling id = .ok rest.head?) ∧
      (∀ id, id ∈ l ↔ ns.Up id p) ∧ l.Pairwise (·.index < ·.index) ∧
      ns.node p = .ok n ∧ n.lastChild = l.getLast?) ∧
    (∀ id, ¬Relation.TransGen ns.Up id id) ∧
    (∀ id, id.index < ns.size → Relation.ReflTransGen ns.Up id ns.root) ∧
    (∀ id, id.index < ns.size → id ≠ ns.root →
      ∃! p, p.index < ns.size ∧ ∃ l, ns.children p = .ok l ∧ id ∈ l) := by
  have linked := built.linked
  have hchildren {p : NodeId} (hp : p.index < ns.size) : ns.children p = .ok (ns.childList p) :=
    linked.children_eq hp (built.root_not_mem p)
  refine ⟨⟨built.root_eq, ?_⟩, fun id h => ⟨fun hnone => ?_, ?_⟩, fun id h => built.exists_up h,
    fun p hp => ?_, fun id h => Nat.lt_irrefl _ (built.transGen_up_lt h),
    fun id h => built.reaches_root h, fun id h hroot => ?_⟩
  · rw [built.root_eq]
    obtain ⟨n, hn⟩ := node_eq_ok_of_lt (show NodeId.first.index < ns.size from linked.nonempty)
    exact ⟨n, hn, linked.origin (node_eq_ok_iff.1 hn)⟩
  · refine Classical.byContradiction fun hroot => ?_
    obtain ⟨up, hup, -⟩ := built.exists_up h hroot
    rw [Up, hnone] at hup
    cases hup
  · rintro rfl
    exact parent_root ns
  · obtain ⟨n, hn⟩ := node_eq_ok_of_lt hp
    refine ⟨ns.childList p, n, hchildren hp, linked.firstChild_eq hp, fun before id rest hl => ?_,
      fun id => built.up_iff.symm, ns.pairwise_childList p, hn,
      linked.lastChild (node_eq_ok_iff.1 hn)⟩
    refine linked.nextSibling_eq hl fun hroot => built.root_not_mem p ?_
    rw [← hroot, hl]
    exact List.mem_append_right _ (List.mem_cons_self ..)
  · obtain ⟨up, hup, hlt⟩ := built.exists_up h hroot
    refine ⟨up, ⟨Nat.lt_trans hlt h, _, hchildren (Nat.lt_trans hlt h), built.up_iff.1 hup⟩, ?_⟩
    rintro p ⟨hp, l, hl, hmem⟩
    obtain rfl := Except.ok.inj ((hchildren hp).symm.trans hl)
    exact eq_of_mem_childList hmem (built.up_iff.1 hup)

end Built

/-- A root with two devices below it, and a third below the first of them. -/
def threeDevices : Namespace :=
  ⟨#[⟨Segment.root, .scope, none, some ⟨1⟩, some ⟨2⟩, none⟩,
    ⟨⟨0x50, 0x43, 0x49, 0x30⟩, .device, some ⟨0⟩, some ⟨3⟩, some ⟨3⟩, some ⟨2⟩⟩,
    ⟨⟨0x50, 0x43, 0x49, 0x31⟩, .device, some ⟨0⟩, none, none, none⟩,
    ⟨⟨0x4E, 0x49, 0x43, 0x30⟩, .device, some ⟨1⟩, none, none, none⟩], NodeId.first⟩

theorem built_threeDevices : threeDevices.Built := by
  have h₁ : Namespace.empty.addChild ⟨0⟩ ⟨0x50, 0x43, 0x49, 0x30⟩ .device = .ok (⟨1⟩,
      ⟨#[⟨Segment.root, .scope, none, some ⟨1⟩, some ⟨1⟩, none⟩,
        ⟨⟨0x50, 0x43, 0x49, 0x30⟩, .device, some ⟨0⟩, none, none, none⟩], .first⟩) :=
    rfl
  have h₂ : (⟨#[⟨Segment.root, .scope, none, some ⟨1⟩, some ⟨1⟩, none⟩,
        ⟨⟨0x50, 0x43, 0x49, 0x30⟩, .device, some ⟨0⟩, none, none, none⟩], .first⟩ :
      Namespace).addChild ⟨0⟩ ⟨0x50, 0x43, 0x49, 0x31⟩ .device = .ok (⟨2⟩,
      ⟨#[⟨Segment.root, .scope, none, some ⟨1⟩, some ⟨2⟩, none⟩,
        ⟨⟨0x50, 0x43, 0x49, 0x30⟩, .device, some ⟨0⟩, none, none, some ⟨2⟩⟩,
        ⟨⟨0x50, 0x43, 0x49, 0x31⟩, .device, some ⟨0⟩, none, none, none⟩], .first⟩) :=
    rfl
  have h₃ : (⟨#[⟨Segment.root, .scope, none, some ⟨1⟩, some ⟨2⟩, none⟩,
        ⟨⟨0x50, 0x43, 0x49, 0x30⟩, .device, some ⟨0⟩, none, none, some ⟨2⟩⟩,
        ⟨⟨0x50, 0x43, 0x49, 0x31⟩, .device, some ⟨0⟩, none, none, none⟩], .first⟩ :
      Namespace).addChild ⟨1⟩ ⟨0x4E, 0x49, 0x43, 0x30⟩ .device = .ok (⟨3⟩, threeDevices) :=
    rfl
  exact .addChild (.addChild (.addChild .empty (by decide) h₁) (by decide) h₂) (by decide) h₃

theorem Built.tree_threeDevices : threeDevices.Built ∧ ¬Relation.TransGen threeDevices.Up ⟨3⟩ ⟨3⟩ ∧
    Relation.ReflTransGen threeDevices.Up ⟨3⟩ threeDevices.root := by
  obtain ⟨-, -, -, -, hacyclic, hreaches, -⟩ := built_threeDevices.tree
  exact ⟨built_threeDevices, hacyclic ⟨3⟩, hreaches ⟨3⟩ (by decide)⟩

end Namespace
end Acpi
