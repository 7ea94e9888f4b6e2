/-
# Walking is preorder

The successor of a node depends on the node alone.  `Namespace.Trail` says of a
list that each successor leads to the next entry, and from the last one to a given
exit.  What is below a node is such a list, and it leads to where climbing from
the node leads (`Linked.trail_pruned`): the proof goes down the tree and, at each
node, along its children.  From the root there is nowhere to climb to, so a walk
lists what is below the root and ends (`Built.walk_preorder`).  The root may be any
node: climbing stops at it.
-/

import Acpi.Namespace.Walk
import Acpi.Proofs.Tree.Preorder

namespace Acpi
namespace Namespace

variable {ns : Namespace} {skip : NodeId → Bool} {id p c : NodeId} {exit : Option NodeId}

/-- A list along which each successor is the next entry, and that of the last entry
is the exit.  The walk does not go below the nodes to be skipped. -/
def Trail (ns : Namespace) (skip : NodeId → Bool) : List NodeId → Option NodeId → Prop
  | [], _ => True
  | id :: rest, exit =>
    ns.successor (some id) (!skip id) = .ok (rest.head?.or exit) ∧ ns.Trail skip rest exit

theorem Trail.append {l l' : List NodeId} (h : ns.Trail skip l (l'.head?.or exit))
    (h' : ns.Trail skip l' exit) : ns.Trail skip (l ++ l') exit := by
  induction l with
  | nil => exact h'
  | cons id rest ih =>
    refine ⟨h.1.trans ?_, ih h.2⟩
    cases rest <;> rfl

@[simp] theorem climb_root (ns : Namespace) : ns.climb ns.root = .ok none := by
  rw [climb, nextSibling_root, parent_root]
  rfl

namespace Linked

/-- From a child one climbs to its next sibling, and from the last child to
wherever its parent leads. -/
theorem climb_eq (linked : ns.Linked) {l l' : List NodeId} (hlist : ns.childList p = l ++ c :: l')
    (hroot : c ≠ ns.root) :
    ns.climb c = match l' with
      | [] => ns.climb p
      | next :: _ => .ok (some next) := by
  have hmem : c ∈ ns.childList p := by simp [hlist]
  have hup : ns.parent c = .ok (some p) := (up_iff_of_ne_root hroot).2 hmem
  rw [climb, linked.nextSibling_eq hlist hroot, hup]
  cases l' with
  | nil => exact dif_pos (linked.parent_lt hmem)
  | cons next l' => rfl

theorem successor_true (linked : ns.Linked) (h : id.index < ns.size) :
    ns.successor (some id) true = match ns.childList id with
      | [] => ns.climb id
      | first :: _ => .ok (some first) := by
  rw [successor, after, if_pos rfl, linked.firstChild_eq h]
  cases ns.childList id <;> rfl

theorem head?_pruned (linked : ns.Linked) (skip : NodeId → Bool) (p : NodeId) :
    (ns.pruned skip p).head? = (ns.childList p).head? := by
  rw [linked.pruned_eq]
  cases ns.childList p <;> rfl

/-- **What is below a node leads to where climbing from the node leads.** -/
theorem trail_pruned (linked : ns.Linked) (skip : NodeId → Bool) (p : NodeId) :
    ns.root.index ≤ p.index → ∀ exit, ns.climb p = .ok exit →
      ns.Trail skip (ns.pruned skip p) exit := by
  induction p using linked.induction with
  | h p ih =>
    intro hroot exit hclimb
    rw [linked.pruned_eq]
    -- along the children: those that are left are a suffix of all
    have along (l cs : List NodeId) (hlist : ns.childList p = l ++ cs) :
        ns.Trail skip (cs.flatMap fun c => c :: if skip c then [] else ns.pruned skip c) exit := by
      induction cs generalizing l with
      | nil => trivial
      | cons c cs ihcs =>
        have hmem : c ∈ ns.childList p := by simp [hlist]
        have hlt := linked.parent_lt hmem
        have hne : c ≠ ns.root := by
          rintro rfl
          omega
        rw [List.flatMap_cons]
        refine .append ?_ (ihcs (l ++ [c]) (by simp [hlist]))
        have hexit : ns.climb c = .ok
            ((cs.flatMap fun c => c :: if skip c then [] else ns.pruned skip c).head?.or exit) := by
          rw [linked.climb_eq hlist hne]
          cases cs with
          | nil => exact hclimb
          | cons next cs => rfl
        cases hskip : skip c with
        | true => exact ⟨by rw [hskip]; exact hexit, trivial⟩
        | false =>
          refine ⟨?_, ih c hmem (by omega) _ hexit⟩
          have hsize := lt_size_of_mem_childList hmem
          rw [hskip, Bool.not_false, linked.successor_true hsize, if_neg Bool.false_ne_true,
            linked.head?_pruned]
          cases ns.childList c with
          | nil => exact hexit
          | cons first rest => rfl
    exact along [] _ rfl

/-- The links do not depend on which node is the root. -/
theorem rootedAt (linked : ns.Linked) (top : NodeId) : (ns.rootedAt top).Linked :=
  ⟨linked.nonempty, linked.origin, linked.parent, linked.firstChild, linked.lastChild,
    linked.next⟩

theorem pruned_rootedAt (linked : ns.Linked) (skip : NodeId → Bool) (top p : NodeId) :
    (ns.rootedAt top).pruned skip p = ns.pruned skip p :=
  linked.pruned_congr (linked.rootedAt top) (fun p => childList_rootedAt ns top p) skip p

end Linked
end Namespace

namespace Walk

variable {ns : Namespace} {walk : Walk} {ahead : List NodeId}

/-- The nodes that are still ahead of a walk. -/
def Ahead (ns : Namespace) (walk : Walk) (ahead : List NodeId) : Prop :=
  (walk.finished = true ∧ ahead = []) ∨
    walk.finished = false ∧ ns.successor walk.cursor true = .ok ahead.head? ∧
      ns.Trail (fun _ => false) ahead none

/-- A step of a walk gives the first of the nodes ahead, or nothing once there is
none. -/
theorem next_of_ahead (h : walk.Ahead ns ahead) :
    ∃ walk', walk.next ns = .ok (ahead.head?, walk') ∧ walk'.Ahead ns ahead.tail := by
  rcases h with ⟨hfinished, rfl⟩ | ⟨hfinished, hnext, htrail⟩
  · exact ⟨walk, by rw [next, if_pos hfinished]; rfl, .inl ⟨hfinished, rfl⟩⟩
  · refine ⟨⟨ahead.head?, ahead.head?.isNone⟩, ?_, ?_⟩
    · rw [next, if_neg (by rw [hfinished]; exact Bool.false_ne_true), hnext]
      rfl
    · cases ahead with
      | nil => exact .inl ⟨rfl, rfl⟩
      | cons id rest =>
        refine .inr ⟨rfl, htrail.1.trans ?_, htrail.2⟩
        rw [Option.or_none]
        rfl

/-- **A walk goes through the nodes ahead and then gives nothing forever.** -/
theorem take_of_ahead (h : walk.Ahead ns ahead) (n : Nat) :
    take ns n walk = .ok ((List.range n).map (ahead[·]?)) := by
  induction n generalizing walk ahead with
  | zero => rfl
  | succ n ih =>
    obtain ⟨walk', hnext, hrest⟩ := next_of_ahead h
    simp only [take, hnext, bind, Except.bind, ih hrest, pure, Except.pure,
      List.range_succ_eq_map, List.map_cons, List.map_map]
    refine congrArg Except.ok (congrArg₂ List.cons ?_ (List.map_congr_left fun i _ => ?_))
    · cases ahead <;> rfl
    · cases ahead <;> simp

theorem collect_of_ahead (h : walk.Ahead ns ahead) {bound : Nat} (hbound : ahead.length < bound) :
    collect ns bound walk = .ok ahead := by
  induction bound generalizing walk ahead with
  | zero => exact absurd hbound (Nat.not_lt_zero _)
  | succ bound ih =>
    obtain ⟨walk', hnext, hrest⟩ := next_of_ahead h
    cases ahead with
    | nil => simp only [collect, hnext, bind, Except.bind, List.head?_nil, pure, Except.pure]
    | cons id rest =>
      simp only [collect, hnext, bind, Except.bind, List.head?_cons, List.tail_cons, pure,
        Except.pure] at hrest ⊢
      rw [ih hrest (Nat.lt_of_succ_lt_succ hbound)]

end Walk
namespace Namespace

variable {ns : Namespace} {top : NodeId}

theorem Linked.ahead_start (linked : ns.Linked) (htop : top.index < ns.size) :
    Walk.start.Ahead (ns.rootedAt top) (ns.below top) := by
  have hrooted := linked.rootedAt top
  rw [below, ← linked.pruned_rootedAt _ top top]
  refine .inr ⟨rfl, ?_, hrooted.trail_pruned _ top (Nat.le_refl _) none (climb_root _)⟩
  rw [hrooted.head?_pruned]
  exact hrooted.firstChild_eq htop

/-- A walk from a node as the root lists what is below it. -/
theorem Built.walk_rootedAt (built : ns.Built) (htop : top.index < ns.size) :
    (ns.rootedAt top).walk = .ok (ns.below top) :=
  Walk.collect_of_ahead (built.linked.ahead_start htop)
    (Nat.lt_succ_of_le (built.length_below_le top))

/-- A walk from the root of the arena lists what is below it. -/
theorem Built.walk_eq (built : ns.Built) : ns.walk = .ok (ns.below ns.root) :=
  built.walk_rootedAt built.root_lt_size

/-- **A walk is the preorder.**  The preorder is defined by recursion over the tree:
each child of a node in turn, followed by what is below it.  Walking from a node as
the root lists what is below that node in this order, comes to an end, and gives
nothing from then on.  The list holds the proper descendants of the node, each of
them once and before its own descendants, and nothing else; below the root of the
arena these are all nodes but one. -/
theorem Built.walk_preorder (built : ns.Built) (htop : top.index < ns.size) :
    (∀ p, p.index < ns.size → ∃ children, ns.children p = .ok children ∧
      ns.below p = children.flatMap fun c => c :: ns.below c) ∧
    (ns.rootedAt top).walk = .ok (ns.below top) ∧
    (∀ n, Walk.take (ns.rootedAt top) n Walk.start =
      .ok ((List.range n).map ((ns.below top)[·]?))) ∧
    (∀ id, id ∈ ns.below top ↔ Relation.TransGen ns.Up id top) ∧ top ∉ ns.below top ∧
    (ns.below top).Nodup ∧ (ns.below top).Pairwise (fun a b => ¬Relation.TransGen ns.Up a b) ∧
    (top = ns.root → (ns.below top).length = ns.size - 1) := by
  have hahead := built.linked.ahead_start htop
  refine ⟨fun p hp => ⟨_, built.linked.children_eq hp (built.root_not_mem p),
    built.linked.below_eq p⟩, ?_, Walk.take_of_ahead hahead, fun id => built.mem_below,
    fun hmem => Nat.lt_irrefl _ (built.transGen_up_lt (built.mem_below.1 hmem)),
    built.nodup_below top, ?_, ?_⟩
  · exact Walk.collect_of_ahead hahead (Nat.lt_succ_of_le (built.length_below_le top))
  · exact (built.pairwise_below top).imp fun h hup => h hup.to_reflTransGen
  · rintro rfl
    exact built.length_below_root

theorem Built.walk_preorder_threeDevices :
    threeDevices.Built ∧ (⟨1⟩ : NodeId).index < threeDevices.size ∧
      (threeDevices.rootedAt ⟨1⟩).walk = .ok (threeDevices.below ⟨1⟩) ∧
      ⟨3⟩ ∈ threeDevices.below ⟨1⟩ := by
  have htop : (⟨1⟩ : NodeId).index < threeDevices.size := by decide
  obtain ⟨-, hwalk, -, hmem, -⟩ := built_threeDevices.walk_preorder htop
  exact ⟨built_threeDevices, htop, hwalk, (hmem ⟨3⟩).2 (.single rfl)⟩

end Namespace
end Acpi
