/-
# The links of the arena

A node can be found in two ways: through the parent that it names, and through
the links that lead from a node to its first child and from sibling to sibling.
`Namespace.childList` goes by the parents alone: it lists the nodes that name a
node as their parent, in order of creation.  `Namespace.Linked` says that the
other links agree with it.  Adding a node appends it to the list of its parent,
and the links that are rewritten are those at the end of that list, so an arena
that is linked stays linked (`Namespace.Linked.addChild`); objects are of no
concern to the links.
-/

import Acpi.Proofs.Tree.Columns

namespace Acpi
namespace Namespace

variable {ns ns' : Namespace} {id parent p q : NodeId} {name : Segment} {object : Object} {i : Nat}
  {n : Node}

/-- The nodes that name `p` as their parent, in order of creation. -/
def childList (ns : Namespace) (p : NodeId) : List NodeId :=
  ((List.range ns.size).filter fun i => ns.parents[i]? = some (some p)).map NodeId.mk

theorem mem_childList :
    id ∈ ns.childList p ↔ ∃ n, ns.nodes[id.index]? = some n ∧ n.parent = some p := by
  simp only [childList, List.mem_map, List.mem_filter, List.mem_range, decide_eq_true_eq, parents,
    List.getElem?_map, Array.getElem?_toList, Option.map_eq_some_iff]
  constructor
  · rintro ⟨i, ⟨-, h⟩, rfl⟩
    exact h
  · rintro ⟨n, hn, hp⟩
    exact ⟨id.index, ⟨(Array.getElem?_eq_some_iff.1 hn).1, n, hn, hp⟩, rfl⟩

/-- Siblings stand in order of creation. -/
theorem pairwise_childList (ns : Namespace) (p : NodeId) :
    (ns.childList p).Pairwise (·.index < ·.index) := by
  rw [childList, List.pairwise_map]
  exact List.pairwise_lt_range.filter _

theorem nodup_childList (ns : Namespace) (p : NodeId) : (ns.childList p).Nodup :=
  (ns.pairwise_childList p).imp fun h => by
    rintro rfl
    exact absurd h (Nat.lt_irrefl _)

theorem lt_size_of_mem_childList (h : id ∈ ns.childList p) : id.index < ns.size := by
  obtain ⟨n, hn, -⟩ := mem_childList.1 h
  exact (Array.getElem?_eq_some_iff.1 hn).1

/-- No node is listed under two parents. -/
theorem eq_of_mem_childList (h : id ∈ ns.childList p) (h' : id ∈ ns.childList q) : p = q := by
  obtain ⟨n, hn, hp⟩ := mem_childList.1 h
  obtain ⟨m, hm, hq⟩ := mem_childList.1 h'
  obtain rfl := Option.some.inj (hn.symm.trans hm)
  exact Option.some.inj (hp.symm.trans hq)

@[simp] theorem childList_rootedAt (ns : Namespace) (top p : NodeId) :
    (ns.rootedAt top).childList p = ns.childList p :=
  rfl

theorem size_of_addChild (h : ns.addChild parent name object = .ok (id, ns')) :
    ns'.size = ns.size + 1 := by
  obtain ⟨-, -, -, -, -, hparents⟩ := addChild_cases h
  rw [← length_parents, hparents, List.length_append, length_parents, List.length_singleton]

theorem lt_size_of_addChild (h : ns.addChild parent name object = .ok (id, ns'))
    (hp : p.index < ns.size) : p.index < ns'.size :=
  size_of_addChild h ▸ Nat.lt_succ_of_lt hp

/-- A node that is added goes to the end of its parent's list. -/
theorem childList_of_addChild (h : ns.addChild parent name object = .ok (id, ns')) (p : NodeId) :
    ns'.childList p = ns.childList p ++ if parent = p then [⟨ns.size⟩] else [] := by
  obtain ⟨-, -, -, -, -, hparents⟩ := addChild_cases h
  have hold : (List.range ns.size).filter (fun i => ns'.parents[i]? = some (some p)) =
      (List.range ns.size).filter fun i => ns.parents[i]? = some (some p) := by
    refine List.filter_congr fun i hi => ?_
    rw [hparents, List.getElem?_append_left (by simpa using hi)]
  have hnew : ns'.parents[ns.size]? = some (some parent) := by
    rw [hparents, ← length_parents, List.getElem?_concat_length]
  rw [childList, size_of_addChild h, List.range_succ, List.filter_append, hold, List.map_append,
    childList]
  congr 1
  by_cases hp : parent = p <;> simp [hnew, hp]

theorem childList_of_setObject (h : ns.setObject id object = .ok ns') (p : NodeId) :
    ns'.childList p = ns.childList p := by
  obtain ⟨-, -, -, -, hparents⟩ := setObject_cases h
  rw [childList, childList, ← length_parents, ← length_parents, hparents]

/-- **What adding a node writes.**  Of the nodes that were there, the parent gets
a last child, and a first child if it had none; its last child gets a sibling. -/
theorem nodes_of_addChild (hparent : parent.index < ns.size)
    (h : ns.addChild parent name object = .ok (id, ns')) :
    ∃ q, ns.nodes[parent.index]? = some q ∧
      (∀ i < ns.size, ns'.nodes[i]? = ns.nodes[i]?.map fun n => { n with
        firstChild := if parent.index = i ∧ q.lastChild = none then some ⟨ns.size⟩ else n.firstChild
        lastChild := if parent.index = i then some ⟨ns.size⟩ else n.lastChild
        next := if q.lastChild = some ⟨i⟩ then some ⟨ns.size⟩ else n.next }) ∧
      (q.lastChild ≠ some ⟨ns.size⟩ →
        ns'.nodes[ns.size]? = some ⟨name, object, some parent, none, none, none⟩) := by
  simp only [addChild] at h
  split at h
  · cases h
  · rename_i q hq
    obtain ⟨-, rfl⟩ := Prod.mk.inj (Except.ok.inj h)
    have hne : parent.index ≠ ns.nodes.size := Nat.ne_of_lt hparent
    refine ⟨q, by rw [← hq, Array.getElem?_push, if_neg hne], fun i hi => ?_, fun hlast => ?_⟩
    · have hi' : ns.nodes[i]? = some ns.nodes[i] := Array.getElem?_eq_getElem hi
      have hne' : i ≠ ns.nodes.size := Nat.ne_of_lt hi
      cases hlast : q.lastChild with
      | none =>
        by_cases hpi : parent.index = i <;>
          simp [Array.getElem?_modify, Array.getElem?_push, hpi, hi', hne', size]
      | some last =>
        by_cases hpi : parent.index = i <;> by_cases hli : last.index = i <;>
          simp [Array.getElem?_modify, Array.getElem?_push, hpi, hli, hi', hne', size,
            NodeId.ext_iff]
    · simp only [size]
      cases hq : q.lastChild with
      | none =>
        rw [Array.getElem?_modify, if_neg hne, Array.getElem?_modify, if_neg hne,
          Array.getElem?_push_size]
      | some last =>
        have hne' : last.index ≠ ns.nodes.size := fun h => hlast (hq.trans (by rw [size, ← h]))
        dsimp only
        rw [Array.getElem?_modify, if_neg hne', Array.getElem?_modify, if_neg hne,
          Array.getElem?_push_size]

/-- What replacing an object writes: no link. -/
theorem nodes_of_setObject (h : ns.setObject id object = .ok ns') (i : Nat) :
    ns'.nodes[i]? =
      ns.nodes[i]?.map fun n => { n with object := if id.index = i then object else n.object } := by
  simp only [setObject] at h
  split at h
  · obtain rfl := Except.ok.inj h
    rw [Array.getElem?_modify]
    split <;> simp
  · cases h

/-- An entry of a list that has got one more at its end is the new one, or stands
where it stood. -/
theorem concat_eq_append_cons {l₀ l l' : List NodeId} (h : l₀ ++ [q] = l ++ id :: l') :
    (id = q ∧ l' = []) ∨ ∃ rest, l₀ = l ++ id :: rest ∧ l' = rest ++ [q] := by
  rcases l'.eq_nil_or_concat with rfl | ⟨rest, x, rfl⟩
  · obtain ⟨-, hid⟩ := List.append_inj' h rfl
    exact .inl ⟨(List.cons.inj hid).1.symm, rfl⟩
  · rw [List.concat_eq_append, ← List.cons_append, ← List.append_assoc] at h
    obtain ⟨hl₀, hx⟩ := List.append_inj' h rfl
    exact .inr ⟨rest, hl₀, by rw [List.concat_eq_append, (List.cons.inj hx).1]⟩

theorem getLast?_eq_some_iff_of_nodup {l l' : List NodeId} (h : (l ++ id :: l').Nodup) :
    (l ++ id :: l').getLast? = some id ↔ l' = [] := by
  cases l' with
  | nil => simp
  | cons next rest =>
    have hend : (l ++ id :: next :: rest).getLast? = (next :: rest).getLast? := by
      simp [List.getLast?_cons]
    rw [hend]
    refine iff_of_false (fun hid => ?_) (List.cons_ne_nil _ _)
    exact (List.nodup_cons.1 (List.nodup_append.1 h).2.1).1 (List.mem_of_getLast? hid)

/-- **The arena is linked**: the node that is there from the start stands alone,
every other node names an earlier one as its parent, and the links from parents to
children and between siblings go along the lists of children. -/
structure Linked (ns : Namespace) : Prop where
  nonempty : 0 < ns.size
  origin : ∀ {n}, ns.nodes[0]? = some n → n.parent = none ∧ n.next = none
  parent : ∀ {i n}, ns.nodes[i]? = some n → 0 < i → ∃ p, n.parent = some p ∧ p.index < i
  firstChild : ∀ {i n}, ns.nodes[i]? = some n → n.firstChild = (ns.childList ⟨i⟩).head?
  lastChild : ∀ {i n}, ns.nodes[i]? = some n → n.lastChild = (ns.childList ⟨i⟩).getLast?
  next : ∀ {p l i l' n}, ns.childList p = l ++ ⟨i⟩ :: l' → ns.nodes[i]? = some n →
    n.next = l'.head?

namespace Linked

/-- Parents are earlier than their children. -/
theorem parent_lt (linked : ns.Linked) (h : id ∈ ns.childList p) : p.index < id.index := by
  obtain ⟨n, hn, hp⟩ := mem_childList.1 h
  obtain ⟨q, hq, hlt⟩ := linked.parent hn (Nat.pos_of_ne_zero fun h0 => by
    rw [(linked.origin (h0 ▸ hn)).1] at hp
    cases hp)
  obtain rfl := Option.some.inj (hp.symm.trans hq)
  exact hlt

theorem childList_eq_nil (linked : ns.Linked) (h : ns.size ≤ p.index) : ns.childList p = [] :=
  List.eq_nil_iff_forall_not_mem.2 fun id hid => by
    have h₁ := linked.parent_lt hid
    have h₂ := lt_size_of_mem_childList hid
    omega

theorem nodes_empty (h : Namespace.empty.nodes[i]? = some n) :
    i = 0 ∧ n = ⟨Segment.root, .scope, none, none, none, none⟩ := by
  obtain ⟨hlt, rfl⟩ := Array.getElem?_eq_some_iff.1 h
  obtain rfl := Nat.lt_one_iff.1 hlt
  exact ⟨rfl, rfl⟩

theorem childList_empty (p : NodeId) : Namespace.empty.childList p = [] :=
  List.eq_nil_iff_forall_not_mem.2 fun id hid => by
    obtain ⟨n, hn, hp⟩ := mem_childList.1 hid
    obtain ⟨-, rfl⟩ := nodes_empty hn
    cases hp

theorem empty : Linked Namespace.empty where
  nonempty := Nat.one_pos
  origin := by
    intro n hn
    obtain ⟨-, rfl⟩ := nodes_empty hn
    exact ⟨rfl, rfl⟩
  parent := fun hn hi => absurd (nodes_empty hn).1 (Nat.ne_of_gt hi)
  firstChild := by
    intro i n hn
    obtain ⟨rfl, rfl⟩ := nodes_empty hn
    rw [childList_empty, List.head?_nil]
  lastChild := by
    intro i n hn
    obtain ⟨rfl, rfl⟩ := nodes_empty hn
    rw [childList_empty, List.getLast?_nil]
  next := by
    intro p l i l' n hl
    rw [childList_empty] at hl
    exact absurd hl.symm (by simp)

theorem setObject (linked : ns.Linked) (h : ns.setObject id object = .ok ns') : ns'.Linked := by
  have hlist := childList_of_setObject h
  have hold {i : Nat} {n : Node} (hn : ns'.nodes[i]? = some n) : ∃ n₀, ns.nodes[i]? = some n₀ ∧
      n = { n₀ with object := if id.index = i then object else n₀.object } := by
    rw [nodes_of_setObject h, Option.map_eq_some_iff] at hn
    obtain ⟨n₀, hn₀, rfl⟩ := hn
    exact ⟨n₀, hn₀, rfl⟩
  constructor
  case nonempty =>
    obtain ⟨-, -, -, -, hparents⟩ := setObject_cases h
    rw [← length_parents, hparents, length_parents]
    exact linked.nonempty
  case origin =>
    intro n hn
    obtain ⟨n₀, hn₀, rfl⟩ := hold hn
    exact linked.origin (n := n₀) hn₀
  case parent =>
    intro i n hn hi
    obtain ⟨n₀, hn₀, rfl⟩ := hold hn
    exact linked.parent (n := n₀) hn₀ hi
  case firstChild =>
    intro i n hn
    obtain ⟨n₀, hn₀, rfl⟩ := hold hn
    rw [hlist, ← linked.firstChild hn₀]
  case lastChild =>
    intro i n hn
    obtain ⟨n₀, hn₀, rfl⟩ := hold hn
    rw [hlist, ← linked.lastChild hn₀]
  case next =>
    intro p l i l' n hl hn
    obtain ⟨n₀, hn₀, rfl⟩ := hold hn
    exact linked.next (n := n₀) ((hlist p).symm.trans hl) hn₀

/-- After a node has been added, a node is the new one, or it was there and has at
most got links to the new one. -/
theorem node_of_addChild (linked : ns.Linked) (hparent : parent.index < ns.size)
    (h : ns.addChild parent name object = .ok (id, ns')) (hn : ns'.nodes[i]? = some n) :
    (i = ns.size ∧ n = ⟨name, object, some parent, none, none, none⟩) ∨
      i < ns.size ∧ ∃ n₀, ns.nodes[i]? = some n₀ ∧ n = { n₀ with
        firstChild :=
          if parent = ⟨i⟩ ∧ ns.childList parent = [] then some ⟨ns.size⟩ else n₀.firstChild
        lastChild := if parent = ⟨i⟩ then some ⟨ns.size⟩ else n₀.lastChild
        next :=
          if (ns.childList parent).getLast? = some ⟨i⟩ then some ⟨ns.size⟩ else n₀.next } := by
  obtain ⟨q, hq, hold, hnew⟩ := nodes_of_addChild hparent h
  simp only [linked.lastChild hq, List.getLast?_eq_none_iff] at hold hnew
  have hlt : i < ns.size + 1 := size_of_addChild h ▸ (Array.getElem?_eq_some_iff.1 hn).1
  rcases Nat.lt_succ_iff_lt_or_eq.1 hlt with hi | rfl
  · rw [hold i hi, Option.map_eq_some_iff] at hn
    obtain ⟨n₀, hn₀, rfl⟩ := hn
    simp only [NodeId.ext_iff]
    exact .inr ⟨hi, n₀, hn₀, rfl⟩
  · refine .inl ⟨rfl, Option.some.inj (hn.symm.trans (hnew fun hlast => ?_))⟩
    exact Nat.lt_irrefl _ (lt_size_of_mem_childList (List.mem_of_getLast? hlast))

/-- The link to the next sibling after a node has been added: only the child that
was the last one gets another. -/
theorem next_of_addChild (linked : ns.Linked) (hparent : parent.index < ns.size)
    (h : ns.addChild parent name object = .ok (id, ns')) {l l' : List NodeId}
    (hl : ns'.childList p = l ++ ⟨i⟩ :: l') (hn : ns'.nodes[i]? = some n) : n.next = l'.head? := by
  rw [childList_of_addChild h] at hl
  by_cases hp : parent = p
  · subst hp
    rw [if_pos rfl] at hl
    rcases concat_eq_append_cons hl with ⟨hi, rfl⟩ | ⟨rest, hold, rfl⟩
    · obtain rfl := congrArg NodeId.index hi
      rcases linked.node_of_addChild hparent h hn with ⟨-, rfl⟩ | ⟨hlt, -⟩
      · rfl
      · exact absurd hlt (Nat.lt_irrefl _)
    · have hlt := lt_size_of_mem_childList (show ⟨i⟩ ∈ ns.childList parent by simp [hold])
      rcases linked.node_of_addChild hparent h hn with ⟨hi, -⟩ | ⟨-, n₀, hn₀, rfl⟩
      · exact absurd hi (Nat.ne_of_lt hlt)
      · have hlast := getLast?_eq_some_iff_of_nodup (hold ▸ ns.nodup_childList parent)
        dsimp only
        rw [hold, linked.next hold hn₀]
        cases rest with
        | nil => exact if_pos (hlast.2 rfl)
        | cons next rest => exact if_neg fun he => List.cons_ne_nil _ _ (hlast.1 he)
  · rw [if_neg hp, List.append_nil] at hl
    have hmem : (⟨i⟩ : NodeId) ∈ ns.childList p := by simp [hl]
    rcases linked.node_of_addChild hparent h hn with ⟨rfl, -⟩ | ⟨-, n₀, hn₀, rfl⟩
    · exact absurd (lt_size_of_mem_childList hmem) (Nat.lt_irrefl _)
    · have hne : (ns.childList parent).getLast? ≠ some ⟨i⟩ := fun he =>
        hp (eq_of_mem_childList (List.mem_of_getLast? he) hmem)
      exact (if_neg hne).trans (linked.next (n := n₀) hl hn₀)

/-- **Adding a node below one that is there keeps the arena linked.**  The new
node is the last of its parent's list; the node that was the last one before, or
the parent if there was none, gets a link to it. -/
theorem addChild (linked : ns.Linked) (hparent : parent.index < ns.size)
    (h : ns.addChild parent name object = .ok (id, ns')) : ns'.Linked := by
  have hlist := childList_of_addChild h
  have hempty : ns'.childList ⟨ns.size⟩ = [] := by
    rw [hlist, linked.childList_eq_nil (p := ⟨ns.size⟩) (Nat.le_refl _),
      if_neg fun he => absurd hparent (by simp [he]), List.append_nil]
  constructor
  case nonempty => exact size_of_addChild h ▸ Nat.succ_pos _
  case origin =>
    intro n hn
    rcases linked.node_of_addChild hparent h hn with ⟨h0, -⟩ | ⟨-, n₀, hn₀, rfl⟩
    · exact absurd h0 (Nat.ne_of_lt linked.nonempty)
    · have hne : (ns.childList parent).getLast? ≠ some ⟨0⟩ := fun he =>
        absurd (linked.parent_lt (List.mem_of_getLast? he)) (Nat.not_lt_zero _)
      obtain ⟨hparent₀, hnext₀⟩ := linked.origin hn₀
      exact ⟨hparent₀, (if_neg hne).trans hnext₀⟩
  case parent =>
    intro i n hn hi
    rcases linked.node_of_addChild hparent h hn with ⟨rfl, rfl⟩ | ⟨-, n₀, hn₀, rfl⟩
    · exact ⟨parent, rfl, hparent⟩
    · exact linked.parent (n := n₀) hn₀ hi
  case firstChild =>
    intro i n hn
    rcases linked.node_of_addChild hparent h hn with ⟨rfl, rfl⟩ | ⟨-, n₀, hn₀, rfl⟩
    · rw [hempty, List.head?_nil]
    · by_cases hp : parent = ⟨i⟩
      · rw [hlist, if_pos hp, linked.firstChild hn₀, ← hp]
        cases ns.childList parent <;> simp
      · simp [hlist, hp, linked.firstChild hn₀]
  case lastChild =>
    intro i n hn
    rcases linked.node_of_addChild hparent h hn with ⟨rfl, rfl⟩ | ⟨-, n₀, hn₀, rfl⟩
    · rw [hempty, List.getLast?_nil]
    · by_cases hp : parent = ⟨i⟩
      · simp [hlist, hp]
      · simp [hlist, hp, linked.lastChild hn₀]
  case next => exact linked.next_of_addChild hparent h

end Linked
end Namespace
end Acpi
