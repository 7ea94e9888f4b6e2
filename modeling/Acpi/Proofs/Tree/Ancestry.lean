/-
# Going up

From a node one gets up to its parent, to the parent of that, and so on to the root:
after so many steps one is at one node (`Ancestor.unique`), and one is not there after
any other number of steps (`Built.ancestor_steps_unique`).  The level of a node is its
distance from the root.  A search tries the nodes on this way in turn and answers what
the first one does at which there is something to be found (`Built.search_fromNearest`).
-/

import Acpi.Proofs.Tree.Descent

namespace Acpi
namespace Namespace

variable {ns : Namespace} {id p q up top c scope : NodeId} {k l : Nat} {v : List UInt8}
  {lookup : NodeId → Except Fault (Option NodeId)}

open Relation

/-- `top` is where one gets from a node by going up a number of times. -/
inductive Ancestor (ns : Namespace) : Nat → NodeId → NodeId → Prop
  | self (id : NodeId) : Ancestor ns 0 id id
  | step {k : Nat} {id up top : NodeId} : ns.Up id up → Ancestor ns k up top →
      Ancestor ns (k + 1) id top

/-- The distance of a node from the root. -/
def Level (ns : Namespace) (id : NodeId) (k : Nat) : Prop := ns.Ancestor k id ns.root

/-- `scope` is the nearest of a node and those above it at which a lookup finds
something. -/
def Nearest (ns : Namespace) (lookup : NodeId → Except Fault (Option NodeId))
    (p scope : NodeId) : Prop :=
  ∃ k, ns.Ancestor k p scope ∧ (∃ found, lookup scope = .ok (some found)) ∧
    ∀ j < k, ∀ between, ns.Ancestor j p between → lookup between = .ok none

/-- An answer that is the one of the nearest node at which a lookup finds something, and
nothing if there is no such node up to the root. -/
structure FromNearest (ns : Namespace) (lookup : NodeId → Except Fault (Option NodeId))
    (p : NodeId) (answer : Except Fault (Option NodeId)) : Prop where
  nearest : ∀ scope, ns.Nearest lookup p scope → answer = lookup scope
  nowhere : (∀ scope, ReflTransGen ns.Up p scope → lookup scope = .ok none) → answer = .ok none
  or_nowhere : (∃ scope, ns.Nearest lookup p scope) ∨
    ∀ scope, ReflTransGen ns.Up p scope → lookup scope = .ok none

theorem up_unique (h : ns.Up id p) (h' : ns.Up id q) : p = q :=
  Option.some.inj (Except.ok.inj (h.symm.trans h'))

namespace Ancestor

theorem reflTransGen (h : ns.Ancestor k id top) : ReflTransGen ns.Up id top := by
  induction h with
  | self => exact .refl
  | step hup _ ih => exact .head hup ih

theorem trans (h : ns.Ancestor k id up) (h' : ns.Ancestor l up top) :
    ns.Ancestor (l + k) id top := by
  induction h with
  | self => exact h'
  | step hup _ ih => exact .step hup (ih h')

theorem unique (h : ns.Ancestor k id up) (h' : ns.Ancestor k id top) : up = top := by
  induction h with
  | self => cases h'; rfl
  | step hup _ ih =>
    cases h' with
    | step hup' hrest =>
      obtain rfl := up_unique hup hup'
      exact ih hrest

end Ancestor

theorem exists_ancestor (h : ReflTransGen ns.Up id top) : ∃ k, ns.Ancestor k id top := by
  induction h using ReflTransGen.head_induction_on with
  | refl => exact ⟨0, .self _⟩
  | head hup _ ih =>
    obtain ⟨k, hk⟩ := ih
    exact ⟨k + 1, .step hup hk⟩

theorem Nearest.above (h : ns.Nearest lookup p scope) : ReflTransGen ns.Up p scope := by
  obtain ⟨k, hscope, -⟩ := h
  exact hscope.reflTransGen

/-- There is only one nearest node. -/
theorem Nearest.unique (h : ns.Nearest lookup p scope) (h' : ns.Nearest lookup p q) :
    scope = q := by
  obtain ⟨k, hscope, ⟨found, hfound⟩, hbefore⟩ := h
  obtain ⟨l, hq, ⟨found', hfound'⟩, hbefore'⟩ := h'
  rcases Nat.lt_trichotomy k l with hlt | rfl | hlt
  · cases hfound.symm.trans (hbefore' k hlt scope hscope)
  · exact hscope.unique hq
  · cases hfound'.symm.trans (hbefore l hlt q hq)

/-- Where there is nothing to be found at a node, the nearest one is that of its
parent. -/
theorem Nearest.step (hup : ns.Up p up) (hnone : lookup p = .ok none)
    (h : ns.Nearest lookup up scope) : ns.Nearest lookup p scope := by
  obtain ⟨k, hscope, hfound, hbefore⟩ := h
  refine ⟨k + 1, .step hup hscope, hfound, fun j hj between hbetween => ?_⟩
  cases hbetween with
  | self => exact hnone
  | step hup' hrest =>
    obtain rfl := up_unique hup hup'
    exact hbefore _ (Nat.lt_of_succ_lt_succ hj) between hrest

theorem search_of_found (h : ns.descend p v = .ok (some c)) : ns.search p v = .ok (some c) := by
  rw [search, h]
  rfl

theorem search_root_of_not_found (h : ns.descend ns.root v = .ok none) :
    ns.search ns.root v = .ok none := by
  rw [search, h, parent_root]
  rfl

namespace Built

/-- One does not get up to the same node on a longer way. -/
theorem ancestor_steps_unique (built : ns.Built) (h : ns.Ancestor k id top)
    (h' : ns.Ancestor l id top) : k = l := by
  have hround {l : Nat} {id up : NodeId} (hup : ns.Up id up) : ¬ns.Ancestor l up id := fun hback =>
    Nat.lt_irrefl _ (built.transGen_up_lt (.head' hup hback.reflTransGen))
  induction h generalizing l with
  | self =>
    cases h' with
    | self => rfl
    | step hup hback => exact absurd hback (hround hup)
  | step hup hrest ih =>
    cases h' with
    | self => exact absurd hrest (hround hup)
    | step hup' hrest' =>
      obtain rfl := up_unique hup hup'
      rw [ih hrest']

theorem existsUnique_level (built : ns.Built) (h : id.index < ns.size) : ∃! k, ns.Level id k := by
  obtain ⟨k, hk⟩ := exists_ancestor (built.reaches_root h)
  exact ⟨k, hk, fun l hl => built.ancestor_steps_unique hl hk⟩

/-- Where there is nothing of that name, one searches on from the parent. -/
theorem search_up (built : ns.Built) (h : ns.descend p v = .ok none) (hup : ns.Up p q) :
    ns.search p v = ns.search q v := by
  have hlt := built.linked.parent_lt (built.up_iff.1 hup)
  rw [search, h, hup]
  exact dif_pos hlt

/-- A search ends at the nearest node at which there is something to be found, or there is
none, by induction on the way up to the root. -/
theorem search_cases (built : ns.Built) (hp : p.index < ns.size) (v : List UInt8) :
    (∃ scope, ns.Nearest (ns.descend · v) p scope ∧ ns.search p v = ns.descend scope v) ∨
      (∀ scope, ReflTransGen ns.Up p scope → ns.descend scope v = .ok none) ∧
        ns.search p v = .ok none := by
  have hfound {p d : NodeId} (h : ns.descend p v = .ok (some d)) :
      ns.Nearest (ns.descend · v) p p ∧ ns.search p v = ns.descend p v :=
    ⟨⟨0, .self p, ⟨d, h⟩, nofun⟩, (search_of_found h).trans h.symm⟩
  have hreaches := built.reaches_root hp
  clear hp
  induction hreaches using ReflTransGen.head_induction_on with
  | refl =>
    obtain ⟨_ | d, h⟩ := built.exists_descend built.root_lt_size v
    · refine .inr ⟨fun scope habove => ?_, search_root_of_not_found h⟩
      rcases habove.cases_head with rfl | ⟨up, hup, -⟩
      · exact h
      · rw [Up, parent_root] at hup
        cases hup
    · exact .inl ⟨_, hfound h⟩
  | @head p up hup _ ih =>
    have hp := lt_size_of_mem_childList (built.up_iff.1 hup)
    obtain ⟨_ | d, h⟩ := built.exists_descend hp v
    · rw [built.search_up h hup]
      rcases ih with ⟨scope, hnear, hsearch⟩ | ⟨hnone, hsearch⟩
      · exact .inl ⟨scope, hnear.step hup h, hsearch⟩
      · refine .inr ⟨fun scope habove => ?_, hsearch⟩
        rcases habove.cases_head with rfl | ⟨up', hup', hrest⟩
        · exact h
        · exact hnone scope (up_unique hup' hup ▸ hrest)
    · exact .inl ⟨p, hfound h⟩

/-- **A search answers what the nearest node does at which there is something to be
found.** -/
theorem search_fromNearest (built : ns.Built) (hp : p.index < ns.size) (v : List UInt8) :
    ns.FromNearest (ns.descend · v) p (ns.search p v) := by
  rcases built.search_cases hp v with ⟨scope, hnear, hsearch⟩ | ⟨hnone, hsearch⟩
  · refine ⟨fun other hother => hother.unique hnear ▸ hsearch, fun hnone => ?_,
      .inl ⟨scope, hnear⟩⟩
    exact hsearch.trans (hnone scope hnear.above)
  · refine ⟨fun scope hnear => ?_, fun _ => hsearch, .inr hnone⟩
    exact hsearch.trans (hnone scope hnear.above).symm

/-- A search answers what going down from an enclosing scope does. -/
theorem exists_search_eq_descend (built : ns.Built) (hp : p.index < ns.size) (v : List UInt8) :
    ∃ scope, ReflTransGen ns.Up p scope ∧ ns.search p v = ns.descend scope v := by
  rcases built.search_cases hp v with ⟨scope, hnear, hsearch⟩ | ⟨hnone, hsearch⟩
  · exact ⟨scope, hnear.above, hsearch⟩
  · exact ⟨p, .refl, hsearch.trans (hnone p .refl).symm⟩

end Built
end Namespace
end Acpi
