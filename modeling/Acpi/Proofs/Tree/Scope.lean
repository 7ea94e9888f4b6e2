/-
# The scope of a path

Before a path is looked up its markers are read from left to right, and each moves the
scope or leaves it where it is (`Namespace.Leads`).  A caret at the root leads out of
the namespace (`Namespace.LeadsOut`), and then there is nothing to be found.  Otherwise
the markers lead to one scope, which is the node itself or a node above it: the root, if
there is a backslash among them, and if there is none, as many levels up as there are
carets.  From this scope the names of the path are descended.  Only a path of no markers
and one segment is searched for instead (`Built.find_scope`).
-/

import Acpi.Proofs.Tree.Address
import Acpi.Proofs.Tree.Ancestry
import Mathlib.Data.List.Induction

namespace Acpi
namespace Namespace

variable {ns : Namespace} {id p q up scope : NodeId} {markers before behind : List UInt8}
  {marker : UInt8}

open Relation

/-- Reading the markers of a path from left to right, one gets from a node to a scope: a
backslash leads to the root, a caret to the parent, any other marker nowhere. -/
inductive Leads (ns : Namespace) (p : NodeId) : List UInt8 → NodeId → Prop
  | start : Leads ns p [] p
  | root {markers : List UInt8} {scope : NodeId} : Leads ns p markers scope →
      Leads ns p (markers ++ [Path.rootMarker]) ns.root
  | up {markers : List UInt8} {scope up : NodeId} : Leads ns p markers scope → ns.Up scope up →
      Leads ns p (markers ++ [Path.parentMarker]) up
  | stay {markers : List UInt8} {scope : NodeId} {marker : UInt8} : Leads ns p markers scope →
      marker ≠ Path.rootMarker → marker ≠ Path.parentMarker →
      Leads ns p (markers ++ [marker]) scope

/-- Among the markers there is a caret that is read at the root. -/
def LeadsOut (ns : Namespace) (p : NodeId) (markers : List UInt8) : Prop :=
  ∃ before behind, markers = before ++ Path.parentMarker :: behind ∧ ns.Leads p before ns.root

/-! ### One marker after another -/

theorem scopeOf_root (ns : Namespace) (id : NodeId) (behind : List UInt8) :
    ns.scopeOf id (Path.rootMarker :: behind) = ns.scopeOf ns.root behind := by
  rw [scopeOf, if_pos rfl]

theorem scopeOf_up (h : ns.Up id up) (behind : List UInt8) :
    ns.scopeOf id (Path.parentMarker :: behind) = ns.scopeOf up behind := by
  rw [scopeOf, if_neg (by decide), if_pos rfl, h]
  rfl

theorem scopeOf_stay (hroot : marker ≠ Path.rootMarker) (hparent : marker ≠ Path.parentMarker)
    (id : NodeId) (behind : List UInt8) :
    ns.scopeOf id (marker :: behind) = ns.scopeOf id behind := by
  rw [scopeOf, if_neg hroot, if_neg hparent]

theorem scopeOf_out (ns : Namespace) (behind : List UInt8) :
    ns.scopeOf ns.root (Path.parentMarker :: behind) = .ok none := by
  rw [scopeOf, if_neg (by decide), if_pos rfl, parent_root]
  rfl

/-- Markers are read on from where those before them lead. -/
theorem scopeOf_append (ns : Namespace) (p : NodeId) (before behind : List UInt8) :
    ns.scopeOf p (before ++ behind) = (do
      match ← ns.scopeOf p before with
      | some scope => ns.scopeOf scope behind
      | none => return none) := by
  induction before generalizing p with
  | nil => rfl
  | cons marker before ih =>
    rw [List.cons_append, scopeOf, scopeOf]
    split
    · exact ih ns.root
    · split
      · cases ns.parent p with
        | error fault => rfl
        | ok found =>
          cases found with
          | none => rfl
          | some up => exact ih up
      · exact ih p

theorem scopeOf_append_of_eq (h : ns.scopeOf p before = .ok (some scope)) (behind : List UInt8) :
    ns.scopeOf p (before ++ behind) = ns.scopeOf scope behind := by
  rw [scopeOf_append, h]
  rfl

/-- **Markers lead to their scope**, one constructor for each marker that is read. -/
theorem scopeOf_of_leads (h : ns.Leads p markers scope) :
    ns.scopeOf p markers = .ok (some scope) := by
  induction h with
  | start => rfl
  | root _ ih => rw [scopeOf_append_of_eq ih, scopeOf_root, scopeOf]
  | up _ hup ih => rw [scopeOf_append_of_eq ih, scopeOf_up hup, scopeOf]
  | stay _ hroot hparent ih => rw [scopeOf_append_of_eq ih, scopeOf_stay hroot hparent, scopeOf]

theorem Leads.unique (h : ns.Leads p markers scope) (h' : ns.Leads p markers q) : scope = q :=
  Option.some.inj (Except.ok.inj ((scopeOf_of_leads h).symm.trans (scopeOf_of_leads h')))

theorem scopeOf_of_leadsOut (h : ns.LeadsOut p markers) : ns.scopeOf p markers = .ok none := by
  obtain ⟨before, behind, rfl, hroot⟩ := h
  rw [scopeOf_append_of_eq (scopeOf_of_leads hroot), scopeOf_out]

/-- Behind a backslash it does not matter where one has been. -/
theorem scopeOf_of_rootMarker (h : ns.Leads p before scope) (behind : List UInt8) :
    ns.scopeOf p (before ++ Path.rootMarker :: behind) = ns.scopeOf ns.root behind := by
  rw [scopeOf_append_of_eq (scopeOf_of_leads h), scopeOf_root]

namespace Built

theorem leads_above (built : ns.Built) (hp : p.index < ns.size) (h : ns.Leads p markers scope) :
    ReflTransGen ns.Up p scope := by
  induction h with
  | start => exact .refl
  | root => exact built.reaches_root hp
  | up _ hup ih => exact ih.tail hup
  | stay _ _ _ ih => exact ih

/-- **Markers lead to a scope or out of the namespace**, by induction on the markers that
have been read. -/
theorem leads_or_leadsOut (built : ns.Built) (hp : p.index < ns.size) (markers : List UInt8) :
    (∃ scope, ns.Leads p markers scope) ∨ ns.LeadsOut p markers := by
  induction markers using List.reverseRecOn with
  | nil => exact .inl ⟨p, .start⟩
  | append_singleton markers marker ih =>
    rcases ih with ⟨scope, h⟩ | ⟨before, behind, rfl, hroot⟩
    · by_cases hroot : marker = Path.rootMarker
      · exact .inl ⟨ns.root, hroot ▸ h.root⟩
      · by_cases hparent : marker = Path.parentMarker
        · subst hparent
          by_cases hscope : scope = ns.root
          · exact .inr ⟨markers, [], rfl, hscope ▸ h⟩
          · have hlt := Nat.lt_of_le_of_lt (built.reflTransGen_up_le (built.leads_above hp h)) hp
            obtain ⟨up, hup, -⟩ := built.exists_up hlt hscope
            exact .inl ⟨up, h.up hup⟩
        · exact .inl ⟨scope, h.stay hroot hparent⟩
    · exact .inr ⟨before, behind ++ [marker], by simp, hroot⟩

/-- With a backslash among them, markers lead to the root if they lead anywhere: from
there no caret leads up.  Without one, every caret leads one level up. -/
theorem leads_cases (built : ns.Built) (h : ns.Leads p markers scope) :
    (Path.rootMarker ∈ markers → scope = ns.root) ∧
      (Path.rootMarker ∉ markers → ns.Ancestor (markers.count Path.parentMarker) p scope) := by
  have hne : Path.parentMarker ≠ Path.rootMarker := by decide
  induction h with
  | start => exact ⟨nofun, fun _ => .self p⟩
  | root => exact ⟨fun _ => rfl, fun hnot => absurd (by simp) hnot⟩
  | up _ hup ih =>
    refine ⟨fun hmem => ?_, fun hnot => ?_⟩
    · have hbefore := ih.1 (by simpa [hne.symm] using hmem)
      exact absurd hbefore (built.ne_root_of_up hup)
    · rw [List.count_append, List.count_singleton_self, Nat.add_comm]
      exact (ih.2 fun hmem => hnot (List.mem_append_left _ hmem)).trans (.step hup (.self _))
  | stay _ hroot hparent ih =>
    refine ⟨fun hmem => ih.1 (by simpa [hroot.symm] using hmem), fun hnot => ?_⟩
    rw [List.count_append, List.count_singleton, if_neg (by simpa using hparent)]
    exact ih.2 fun hmem => hnot (List.mem_append_left _ hmem)

/-- The level of a node is how far carets can go up from it. -/
theorem leadsOut_iff (built : ns.Built) (hp : p.index < ns.size) {level : Nat}
    (hlevel : ns.Level p level) (hnot : Path.rootMarker ∉ markers) :
    ns.LeadsOut p markers ↔ level < markers.count Path.parentMarker := by
  constructor
  · rintro ⟨before, behind, rfl, hroot⟩
    have hbefore := (built.leads_cases hroot).2 fun hmem => hnot (List.mem_append_left _ hmem)
    rw [built.ancestor_steps_unique hlevel hbefore, List.count_append, List.count_cons_self]
    omega
  · intro hlt
    refine (built.leads_or_leadsOut hp markers).resolve_left ?_
    rintro ⟨scope, h⟩
    have hup := (built.leads_cases h).2 hnot
    have hscope := Nat.lt_of_le_of_lt (built.reflTransGen_up_le hup.reflTransGen) hp
    obtain ⟨rest, hrest⟩ := exists_ancestor (built.reaches_root hscope)
    have := built.ancestor_steps_unique hlevel (hup.trans hrest)
    omega

end Built

/-! ### Looking a path up -/

theorem find_of_leadsOut {path : Path} (h : ns.LeadsOut p path.markers) :
    ns.find p path = .ok none := by
  rw [find, scopeOf_of_leadsOut h]
  rfl

/-- Only four bytes without a marker are searched for. -/
theorem find_eq {path : Path} (h : path.markers ≠ [] ∨ path.value.length ≠ 4) :
    ns.find p path = (do
      match ← ns.scopeOf p path.markers with
      | some scope => ns.descend scope path.value
      | none => return none) := by
  have hanchored : ¬(path.isUnanchored && path.value.length == 4) = true := by
    rw [Bool.and_eq_true, beq_iff_eq, Path.isUnanchored, List.isEmpty_iff]
    exact fun hsearch => h.elim (absurd hsearch.1) (absurd hsearch.2)
  rw [find]
  cases ns.scopeOf p path.markers with
  | error fault => rfl
  | ok found =>
    cases found with
    | none => rfl
    | some scope => exact if_neg hanchored

theorem find_of_leads {path : Path} (h : ns.Leads p path.markers scope)
    (hpath : path.markers ≠ [] ∨ path.value.length ≠ 4) :
    ns.find p path = ns.descend scope path.value := by
  rw [find_eq hpath, scopeOf_of_leads h]
  rfl

theorem find_of_segment {v : List UInt8} (hv : v.length = 4) :
    ns.find p ⟨[], v⟩ = ns.search p v :=
  if_pos (by simp [Path.isUnanchored, hv])

/-- **The scope of a path.**  A path whose markers lead out of the namespace is found
nowhere.  Otherwise there is one scope to which they lead, which is the node or one above
it; if there are markers at all, or other than four bytes to look up, these are descended
from there.  Four bytes without a marker are searched for.  A node has one level, its
distance from the root; without a backslash markers lead out just when there are more
carets than that, and if they do not, as many levels up as there are carets.  With a
backslash they lead to the root.  A search, of whatever bytes, answers what descending
does from the nearest scope at which that leads somewhere, and nothing if there is none.
Where a path with a backslash is looked up does not matter, as long as what stands before
the backslash does not lead out. -/
theorem Built.find_scope (built : ns.Built) (hp : p.index < ns.size) :
    (∀ path : Path, ns.LeadsOut p path.markers → ns.find p path = .ok none) ∧
    (∀ path : Path, ¬ns.LeadsOut p path.markers → ∃ scope, ns.Leads p path.markers scope ∧
      (∀ other, ns.Leads p path.markers other → other = scope) ∧
      ReflTransGen ns.Up p scope ∧
      (path.markers ≠ [] ∨ path.value.length ≠ 4 →
        ns.find p path = ns.descend scope path.value)) ∧
    (∀ v, v.length = 4 → ns.find p ⟨[], v⟩ = ns.search p v) ∧
    (∃! level, ns.Level p level) ∧
    (∀ level markers, ns.Level p level → Path.rootMarker ∉ markers →
      (ns.LeadsOut p markers ↔ level < markers.count Path.parentMarker)) ∧
    (∀ markers scope, ns.Leads p markers scope →
      (Path.rootMarker ∈ markers → scope = ns.root) ∧
      (Path.rootMarker ∉ markers → ns.Ancestor (markers.count Path.parentMarker) p scope)) ∧
    (∀ v, ns.FromNearest (ns.descend · v) p (ns.search p v)) ∧
    (∀ q before behind v, q.index < ns.size → ¬ns.LeadsOut p before → ¬ns.LeadsOut q before →
      ns.find p ⟨before ++ Path.rootMarker :: behind, v⟩ =
        ns.find q ⟨before ++ Path.rootMarker :: behind, v⟩) := by
  have hleads {p : NodeId} (hp : p.index < ns.size) {markers : List UInt8}
      (hin : ¬ns.LeadsOut p markers) : ∃ scope, ns.Leads p markers scope :=
    (built.leads_or_leadsOut hp markers).resolve_right hin
  refine ⟨fun path => find_of_leadsOut, fun path hin => ?_, fun v => find_of_segment,
    built.existsUnique_level hp, fun level markers => built.leadsOut_iff hp,
    fun markers scope => built.leads_cases, built.search_fromNearest hp,
    fun q before behind v hq hinp hinq => ?_⟩
  · obtain ⟨scope, h⟩ := hleads hp hin
    exact ⟨scope, h, fun other hother => hother.unique h, built.leads_above hp h, find_of_leads h⟩
  · obtain ⟨scope, hscope⟩ := hleads hp hinp
    obtain ⟨scope', hscope'⟩ := hleads hq hinq
    simp only [find, scopeOf_of_rootMarker hscope, scopeOf_of_rootMarker hscope']

/-- Looked up at the bridge: a path with a caret too many, the bridge from its parent, the
bus, which is found only at the root, and a path that can as well be looked up at the
bus. -/
theorem Built.find_scope_rootBridge :
    rootBridge.Built ∧ (⟨2⟩ : NodeId).index < rootBridge.size ∧ rootBridge.Level ⟨2⟩ 2 ∧
      rootBridge.LeadsOut ⟨2⟩ [0x5E, 0x5E, 0x5E] ∧
      rootBridge.find ⟨2⟩ ⟨[0x5E, 0x5E, 0x5E], []⟩ = .ok none ∧
      ¬rootBridge.LeadsOut ⟨2⟩ [0x5E] ∧
      rootBridge.find ⟨2⟩ ⟨[0x5E], bridgeName.bytes⟩ = rootBridge.descend ⟨1⟩ bridgeName.bytes ∧
      rootBridge.Nearest (rootBridge.descend · busName.bytes) ⟨2⟩ ⟨0⟩ ∧
      rootBridge.find ⟨2⟩ ⟨[], busName.bytes⟩ = rootBridge.descend ⟨0⟩ busName.bytes ∧
      rootBridge.find ⟨2⟩ ⟨[0x5E, 0x5C], busName.bytes⟩ =
        rootBridge.find ⟨1⟩ ⟨[0x5E, 0x5C], busName.bytes⟩ := by
  have hp : (⟨2⟩ : NodeId).index < rootBridge.size := by decide
  have hq : (⟨1⟩ : NodeId).index < rootBridge.size := by decide
  have hup : rootBridge.Up ⟨2⟩ ⟨1⟩ ∧ rootBridge.Up ⟨1⟩ ⟨0⟩ := ⟨rfl, rfl⟩
  have hbus : rootBridge.Level ⟨1⟩ 1 := .step hup.2 (.self _)
  have hbridge : rootBridge.Level ⟨2⟩ 2 := .step hup.1 hbus
  obtain ⟨hout, hin, hfour, -, hlevel, hcases, hsearch, hsame⟩ := built_rootBridge.find_scope hp
  have hthree := (hlevel 2 [0x5E, 0x5E, 0x5E] hbridge (by decide)).2 (by decide)
  have hone : ¬rootBridge.LeadsOut ⟨2⟩ [0x5E] := fun h =>
    absurd ((hlevel 2 [0x5E] hbridge (by decide)).1 h) (by decide)
  have hone' : ¬rootBridge.LeadsOut ⟨1⟩ [0x5E] := fun h =>
    absurd ((built_rootBridge.leadsOut_iff hq hbus (by decide)).1 h) (by decide)
  obtain ⟨scope, hscope, -, -, hfind⟩ := hin ⟨[0x5E], bridgeName.bytes⟩ hone
  obtain rfl : scope = ⟨1⟩ :=
    ((hcases _ _ hscope).2 (by decide)).unique (.step hup.1 (.self _))
  have hnear : rootBridge.Nearest (rootBridge.descend · busName.bytes) ⟨2⟩ ⟨0⟩ := by
    refine ⟨2, hbridge, ⟨⟨1⟩, built_rootBridge.descend_joined (by decide) [busName]⟩,
      fun j hj between hbetween => ?_⟩
    match j with
    | 0 =>
      obtain rfl := hbetween.unique (.self _)
      exact built_rootBridge.descend_joined hp [busName]
    | 1 =>
      obtain rfl := hbetween.unique (.step hup.1 (.self _))
      exact built_rootBridge.descend_joined hq [busName]
  exact ⟨built_rootBridge, hp, hbridge, hthree, hout _ hthree, hone, hfind (.inl (by decide)),
    hnear, (hfour _ rfl).trans ((hsearch _).nearest _ hnear), hsame ⟨1⟩ [0x5E] [] _ hq hone hone'⟩

end Namespace
end Acpi
