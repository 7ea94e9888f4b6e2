/-
# Going down by names

Looking a string of bytes up is a descent through the tree: for each segment of
the string the earliest child of that name is taken.  `Namespace.eldest` is that
child (`Built.eldest_eq_some_iff`) and `Namespace.follow` the whole descent, both
read off the lists of children alone.  In a namespace that has been built, `descend` follows the
segments of a string of whole segments, and leads nowhere otherwise; it has an
answer in every case (`Built.descend_eq`).
-/

import Acpi.Proofs.Names.Spelling
import Acpi.Proofs.Tree.Arena

namespace Acpi

namespace Namespace

variable {ns : Namespace} {id p c : NodeId} {name : Segment} {names names' : List Segment}

theorem isNamed_iff : ns.isNamed name id = true ↔ ns.name id = .ok name := by
  cases h : ns.nodes[id.index]? <;>
    simp [isNamed, Namespace.name, node, h, Functor.map, Except.map]

/-- The earliest child of that name. -/
def eldest (ns : Namespace) (p : NodeId) (name : Segment) : Option NodeId :=
  (ns.childList p).find? (ns.isNamed name)

/-- The node that was added first of the children of `p` with that name. -/
structure FirstOfName (ns : Namespace) (p : NodeId) (name : Segment) (id : NodeId) : Prop where
  up : ns.Up id p
  named : ns.name id = .ok name
  first : ∀ sibling, ns.Up sibling p → ns.name sibling = .ok name → id.index ≤ sibling.index

/-- The node to which one gets from `p` by taking, for each name in turn, the
earliest child of that name. -/
def follow (ns : Namespace) (p : NodeId) : List Segment → Option NodeId
  | [] => some p
  | name :: rest => (ns.eldest p name).bind fun c => ns.follow c rest

theorem mem_childList_of_eldest (h : ns.eldest p name = some c) : c ∈ ns.childList p :=
  List.mem_of_find?_eq_some h

theorem name_of_eldest (h : ns.eldest p name = some c) : ns.name c = .ok name :=
  isNamed_iff.1 (List.find?_some h)

theorem follow_append : ns.follow p (names ++ names') =
    (ns.follow p names).bind fun c => ns.follow c names' := by
  induction names generalizing p with
  | nil => rfl
  | cons name rest ih =>
    rw [List.cons_append, follow, follow, Option.bind_assoc]
    simp only [ih]

/-- The last name of a descent leads to a child of where the others lead. -/
theorem follow_concat :
    ns.follow p (names ++ [name]) = (ns.follow p names).bind (ns.eldest · name) := by
  simp only [follow_append, follow, Option.bind_fun_some]

/-- A descent by whole segments and some more goes on from where they lead. -/
theorem descend_append {u : List UInt8} (hu : 4 ∣ u.length) (v : List UInt8) :
    ns.descend p (u ++ v) = (do
      match ← ns.descend p u with
      | some c => ns.descend c v
      | none => return none) := by
  induction u using Path.segmentsOf.induct generalizing p with
  | case1 a b c d rest ih =>
    have hrest : 4 ∣ rest.length := by
      simp only [List.length_cons] at hu
      omega
    simp only [List.cons_append, descend]
    cases ns.childNamed p ⟨a, b, c, d⟩ with
    | error fault => rfl
    | ok found =>
      cases found with
      | none => rfl
      | some child => exact ih hrest
  | case2 u hshort =>
    match u with
    | [] => rfl
    | [_] | [_, _] | [_, _, _] => simp at hu
    | a :: b :: c :: d :: rest => exact absurd rfl (hshort a b c d rest)

namespace Built

theorem firstOfName_of_eldest (built : ns.Built) (h : ns.eldest p name = some c) :
    ns.FirstOfName p name c := by
  refine ⟨built.up_iff.2 (mem_childList_of_eldest h), name_of_eldest h, fun d hup hname => ?_⟩
  obtain ⟨-, before, rest, hlist, hbefore⟩ := List.find?_eq_some_iff_append.1 h
  have hsorted := hlist ▸ ns.pairwise_childList p
  have hd : d ∈ before ++ c :: rest := hlist ▸ built.up_iff.1 hup
  rw [List.mem_append, List.mem_cons] at hd
  rcases hd with hd | rfl | hd
  · have := hbefore d hd
    rw [isNamed_iff.2 hname] at this
    cases this
  · exact Nat.le_refl _
  · exact Nat.le_of_lt (List.rel_of_pairwise_cons (List.pairwise_append.1 hsorted).2.1 hd)

/-- The earliest child of a name is the one that was added first. -/
theorem eldest_eq_some_iff (built : ns.Built) :
    ns.eldest p name = some c ↔ ns.FirstOfName p name c := by
  refine ⟨built.firstOfName_of_eldest, fun h => ?_⟩
  cases hfind : ns.eldest p name with
  | none =>
    have hnone := List.find?_eq_none.1 hfind c (built.up_iff.1 h.up)
    exact absurd (isNamed_iff.2 h.named) hnone
  | some d =>
    have hd := built.firstOfName_of_eldest hfind
    have hle := hd.first c h.up h.named
    exact congrArg some (NodeId.ext (Nat.le_antisymm hle (h.first d hd.up hd.named)))

theorem childNamed_eq (built : ns.Built) (hp : p.index < ns.size) (name : Segment) :
    ns.childNamed p name = .ok (ns.eldest p name) := by
  rw [childNamed, built.linked.children_eq hp (built.root_not_mem p)]
  rfl

/-- A descent takes the earliest child for its first segment and goes on from there. -/
theorem descend_cons (built : ns.Built) (hp : p.index < ns.size) (name : Segment)
    (v : List UInt8) : ns.descend p (name.bytes ++ v) = match ns.eldest p name with
      | some c => ns.descend c v
      | none => .ok none := by
  have hstep : ns.descend p (name.bytes ++ v) = (do
      match ← ns.childNamed p name with
      | some child => ns.descend child v
      | none => return none) := rfl
  rw [hstep, built.childNamed_eq hp]
  cases ns.eldest p name <;> rfl

/-- **A string of bytes is followed segment by segment**; if it does not consist
of whole segments, it leads nowhere. -/
theorem descend_eq (built : ns.Built) (hp : p.index < ns.size) (v : List UInt8) :
    ns.descend p v = .ok (if 4 ∣ v.length then ns.follow p (Path.segmentsOf v) else none) := by
  induction v using Path.segmentsOf.induct generalizing p with
  | case1 a b c d rest ih =>
    have hlength : 4 ∣ (a :: b :: c :: d :: rest).length ↔ 4 ∣ rest.length := by
      simp only [List.length_cons]
      omega
    simp only [hlength, Path.segmentsOf, follow]
    refine (built.descend_cons hp ⟨a, b, c, d⟩ rest).trans ?_
    cases hc : ns.eldest p ⟨a, b, c, d⟩ with
    | none => simp
    | some child => exact ih (lt_size_of_mem_childList (mem_childList_of_eldest hc))
  | case2 v hshort =>
    rcases v with _ | ⟨a, _ | ⟨b, _ | ⟨c, _ | ⟨d, rest⟩⟩⟩⟩
    case cons.cons.cons.cons => exact absurd rfl (hshort a b c d rest)
    all_goals rfl

theorem exists_descend (built : ns.Built) (hp : p.index < ns.size) (v : List UInt8) :
    ∃ r, ns.descend p v = .ok r :=
  ⟨_, built.descend_eq hp v⟩

theorem descend_joined (built : ns.Built) (hp : p.index < ns.size) (names : List Segment) :
    ns.descend p (Path.joined names) = .ok (ns.follow p names) := by
  rw [built.descend_eq hp, if_pos ⟨_, Path.length_joined names⟩, Path.segmentsOf_joined]

end Built
end Namespace
end Acpi
