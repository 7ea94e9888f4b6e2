/-
# Every lookup has an answer

Looking up and walking follow the links of the arena in loops: along siblings, up to
the root, and in turn along siblings and up.  In a namespace that has been built, links
to siblings lead to later nodes and links to parents lead to earlier ones, so none of
these loops goes on forever (`Built.wellFounded_up`, `Built.wellFounded_nextSibling`).
They never leave the arena either.  Hence all lookups answer, whatever the name, the
string of bytes, the path or the text, and what they answer with is a node of the
namespace or nothing (`Namespace.Answers`); the fault `endless`, with which a lookup
would stop at links that lead round in a circle, does not occur.
-/

import Acpi.Proofs.Tree.Ancestry
import Acpi.Proofs.Tree.Descent
import Acpi.Proofs.Tree.Traversal

namespace Acpi
namespace Namespace

variable {ns : Namespace} {id p c : NodeId} {names : List Segment}

/-- A lookup that answers, and if with a node, then with one of the namespace. -/
def Answers (ns : Namespace) (lookup : Except Fault (Option NodeId)) : Prop :=
  ∃ r, lookup = .ok r ∧ ∀ found ∈ r, found.index < ns.size

namespace Answers

variable {lookup : Except Fault (Option NodeId)}
  {next : Option NodeId → Except Fault (Option NodeId)}

theorem nothing : ns.Answers (.ok none) := ⟨_, rfl, nofun⟩

theorem node (h : id.index < ns.size) : ns.Answers (.ok (some id)) :=
  ⟨_, rfl, fun _ hfound => Option.mem_some.1 hfound ▸ h⟩

/-- A lookup that goes on from the answer of another one. -/
theorem bind (h : ns.Answers lookup) (hnone : ns.Answers (next none))
    (hsome : ∀ id, id.index < ns.size → ns.Answers (next (some id))) :
    ns.Answers (lookup >>= next) := by
  obtain ⟨_ | id, rfl, hid⟩ := h
  · exact hnone
  · exact hsome id (hid id rfl)

end Answers

theorem lt_size_of_eldest {name : Segment} (h : ns.eldest p name = some c) : c.index < ns.size :=
  lt_size_of_mem_childList (mem_childList_of_eldest h)

/-- Names do not lead out of the namespace. -/
theorem lt_size_of_follow (hp : p.index < ns.size) (h : ns.follow p names = some c) :
    c.index < ns.size := by
  induction names generalizing p with
  | nil => exact Option.some.inj h ▸ hp
  | cons name rest ih =>
    obtain ⟨d, hd, hrest⟩ := Option.bind_eq_some_iff.1 h
    exact ih (lt_size_of_eldest hd) hrest

namespace Built

/-! ### Links -/

/-- Going up ends. -/
theorem wellFounded_up (built : ns.Built) : WellFounded fun up id => ns.Up id up :=
  Subrelation.wf (fun hup => built.linked.parent_lt (built.up_iff.1 hup))
    (InvImage.wf NodeId.index Nat.lt_wfRel.wf)

/-- A sibling is a later node of the namespace. -/
theorem lt_of_nextSibling (built : ns.Built) {next : NodeId}
    (h : ns.nextSibling id = .ok (some next)) : id.index < next.index ∧ next.index < ns.size := by
  have hroot : id ≠ ns.root := by
    rintro rfl
    rw [nextSibling_root] at h
    cases h
  have hid : id.index < ns.size := by
    rw [nextSibling, if_neg hroot] at h
    cases hn : ns.node id with
    | error f =>
      rw [hn] at h
      cases h
    | ok n => exact lt_size_of_node_eq_ok hn
  -- the two stand one behind the other among the children of their parent
  obtain ⟨p, hup, -⟩ := built.exists_up hid hroot
  obtain ⟨before, behind, hlist⟩ := List.append_of_mem (built.up_iff.1 hup)
  have hnext := built.linked.nextSibling_eq hlist hroot
  obtain ⟨rest, rfl⟩ := List.head?_eq_some_iff.1 (Except.ok.inj (hnext.symm.trans h))
  have hsorted := hlist ▸ ns.pairwise_childList p
  refine ⟨List.rel_of_pairwise_cons (List.pairwise_append.1 hsorted).2.1 (List.mem_cons_self ..),
    lt_size_of_mem_childList (p := p) ?_⟩
  simp [hlist]

/-- Going along siblings ends. -/
theorem wellFounded_nextSibling (built : ns.Built) :
    WellFounded fun next id => ns.nextSibling id = .ok (some next) := by
  have hcloser {next id : NodeId} (h : ns.nextSibling id = .ok (some next)) :
      ns.size - next.index < ns.size - id.index := by
    obtain ⟨hlater, hsize⟩ := built.lt_of_nextSibling h
    omega
  exact Subrelation.wf hcloser
    (InvImage.wf (fun id : NodeId => ns.size - id.index) Nat.lt_wfRel.wf)

theorem answers_parent (built : ns.Built) (h : id.index < ns.size) :
    ns.Answers (ns.parent id) := by
  by_cases hroot : id = ns.root
  · rw [hroot, parent_root]
    exact .nothing
  · obtain ⟨up, hup, hlt⟩ := built.exists_up h hroot
    rw [show ns.parent id = _ from hup]
    exact .node (Nat.lt_trans hlt h)

theorem answers_firstChild (built : ns.Built) (h : id.index < ns.size) :
    ns.Answers (ns.firstChild id) :=
  ⟨_, built.linked.firstChild_eq h, fun _ hfirst =>
    lt_size_of_mem_childList (List.mem_of_mem_head? hfirst)⟩

/-! ### Lookups -/

theorem answers_childNamed (built : ns.Built) (h : id.index < ns.size) (name : Segment) :
    ns.Answers (ns.childNamed id name) :=
  ⟨_, built.childNamed_eq h name, fun _ => lt_size_of_eldest⟩

theorem answers_descend (built : ns.Built) (h : id.index < ns.size) (v : List UInt8) :
    ns.Answers (ns.descend id v) := by
  rw [built.descend_eq h]
  split
  · exact ⟨_, rfl, fun _ => lt_size_of_follow h⟩
  · exact .nothing

theorem answers_search (built : ns.Built) (h : id.index < ns.size) (v : List UInt8) :
    ns.Answers (ns.search id v) := by
  obtain ⟨scope, habove, hsearch⟩ := built.exists_search_eq_descend h v
  have hscope := Nat.lt_of_le_of_lt (built.reflTransGen_up_le habove) h
  exact hsearch ▸ built.answers_descend hscope v

/-- Markers lead to a node or above the root, whatever bytes they are. -/
theorem answers_scopeOf (built : ns.Built) (h : id.index < ns.size) (markers : List UInt8) :
    ns.Answers (ns.scopeOf id markers) := by
  induction markers generalizing id with
  | nil => exact .node h
  | cons marker rest ih =>
    rw [scopeOf]
    split
    · exact ih built.root_lt_size
    · split
      · exact (built.answers_parent h).bind .nothing fun up hup => ih hup
      · exact ih h

theorem answers_find (built : ns.Built) (h : id.index < ns.size) (path : Path) :
    ns.Answers (ns.find id path) := by
  refine (built.answers_scopeOf h path.markers).bind .nothing fun scope hscope => ?_
  dsimp only
  split
  · exact built.answers_search hscope path.value
  · exact built.answers_descend hscope path.value

/-! ### Walks -/

/-- Climbing answers, by induction on the way up to the root. -/
theorem answers_climb (built : ns.Built) (h : id.index < ns.size) : ns.Answers (ns.climb id) := by
  have hreaches := built.reaches_root h
  clear h
  induction hreaches using Relation.ReflTransGen.head_induction_on with
  | refl => exact climb_root ns ▸ .nothing
  | @head id up hup _ ih =>
    have hmem := built.up_iff.1 hup
    have hroot : id ≠ ns.root := fun he => built.root_not_mem up (he ▸ hmem)
    obtain ⟨before, behind, hlist⟩ := List.append_of_mem hmem
    rw [built.linked.climb_eq hlist hroot]
    cases behind with
    | nil => exact ih
    | cons next rest => exact .node (lt_size_of_mem_childList (p := up) (by simp [hlist]))

theorem answers_successor (built : ns.Built) (h : id.index < ns.size) (descend : Bool) :
    ns.Answers (ns.successor (some id) descend) := by
  cases descend with
  | false => exact built.answers_climb h
  | true =>
    refine (built.answers_firstChild h).bind (built.answers_climb h) fun child hchild => ?_
    exact .node hchild

/-- **Every lookup has an answer.**  From every node of a namespace that has been built,
looking up a child by any name, going down by any string of bytes, searching for one,
and reading any path or text end, and they lead to a node of the namespace or to
nothing.  So does a step of a walk from any node, below it or past it, and the first
step.  A walk that is never left off ends, and its nodes are those of the namespace; as
often as it is asked after that, it gives nothing.  No way along siblings and no way up
goes on forever. -/
theorem every_lookup_answers (built : ns.Built) :
    (∀ id, id.index < ns.size →
      (∀ name, ns.Answers (ns.childNamed id name)) ∧ (∀ v, ns.Answers (ns.descend id v)) ∧
      (∀ v, ns.Answers (ns.search id v)) ∧ (∀ path, ns.Answers (ns.find id path)) ∧
      (∀ text, ns.Answers (ns.resolveChild id text) ∧ ns.Answers (ns.resolveSearch id text) ∧
        ns.Answers (ns.resolvePath id text)) ∧
      ∀ descend, ns.Answers (ns.successor (some id) descend)) ∧
    (∀ descend, ns.Answers (ns.successor none descend)) ∧
    (∃ l, ns.walk = .ok l ∧ (∀ id ∈ l, id.index < ns.size) ∧
      ∀ n, Walk.take ns n Walk.start = .ok ((List.range n).map (l[·]?))) ∧
    (WellFounded fun next id => ns.nextSibling id = .ok (some next)) ∧
    WellFounded fun up id => ns.Up id up := by
  refine ⟨fun id h => ⟨built.answers_childNamed h, built.answers_descend h,
    built.answers_search h, built.answers_find h, fun text => ⟨built.answers_descend h _,
      built.answers_search h _, built.answers_find h _⟩, built.answers_successor h⟩,
    fun _ => built.answers_firstChild built.root_lt_size,
    ⟨ns.below ns.root, built.walk_eq, fun _ => built.lt_size_of_mem_below, ?_⟩,
    built.wellFounded_nextSibling, built.wellFounded_up⟩
  exact Walk.take_of_ahead (built.linked.ahead_start built.root_lt_size)

/-- Read at the last of three devices: a path with a byte that is no marker of texts, one
that leads above the root, and half a segment. -/
theorem every_lookup_answers_threeDevices :
    threeDevices.Built ∧ (⟨3⟩ : NodeId).index < threeDevices.size ∧
      threeDevices.Answers (threeDevices.find ⟨3⟩ ⟨[0xFF], [0x4E, 0x49, 0x43, 0x30]⟩) ∧
      threeDevices.Answers (threeDevices.find ⟨3⟩ ⟨[0x5E, 0x5E, 0x5E], []⟩) ∧
      threeDevices.Answers (threeDevices.search ⟨3⟩ [0x4E, 0x49]) ∧
      threeDevices.Answers (threeDevices.successor (some ⟨3⟩) true) := by
  have h : (⟨3⟩ : NodeId).index < threeDevices.size := by decide
  obtain ⟨-, -, hsearch, hfind, -, hsuccessor⟩ := built_threeDevices.every_lookup_answers.1 ⟨3⟩ h
  exact ⟨built_threeDevices, h, hfind _, hfind _, hsearch _, hsuccessor true⟩

end Built
end Namespace
end Acpi
