/-
# Paths one behind another

Of two texts with a dot between them, the first leads to a node and the second on from
there: reading them together is reading the second where the first leads
(`Namespace.Composes`), whatever their names look like.  The second must not begin with
a marker, as this would not be read as one behind the dot.  There are two halves to it,
one about texts and one about the tree: a dot divides a text (`Path.ofText_dot`), and a
descent can be interrupted after every segment (`descend_append`).  The markers of the
first text decide only where the descent starts (`resolvePath_eq`).
-/

import Acpi.Proofs.Names.Grammar
import Acpi.Proofs.Tree.Safety
import Acpi.Proofs.Tree.Scope

namespace Acpi
namespace Namespace

variable {ns : Namespace} {p : NodeId} {a b : String}

/-- Looking up two texts with a dot between them is looking up the second where the first
leads, and nothing is found if the first leads nowhere. -/
structure Composes (lookup : NodeId → String → Except Fault (Option NodeId)) (p : NodeId)
    (a b : String) : Prop where
  answers : ∃ found, lookup p a = .ok found
  found : ∀ id, lookup p a = .ok (some id) → lookup p (a ++ "." ++ b) = lookup id b
  nowhere : lookup p a = .ok none → lookup p (a ++ "." ++ b) = .ok none

/-- A text is descended from where its markers lead; the marker that a text without any
is given keeps off the search and leads nowhere. -/
theorem resolvePath_eq (ns : Namespace) (p : NodeId) (text : String) :
    ns.resolvePath p text = (do
      match ← ns.scopeOf p (Path.ofText text).markers with
      | some scope => ns.descend scope (Path.ofText text).value
      | none => return none) := by
  rw [resolvePath]
  obtain ⟨markers, value⟩ := Path.ofText text
  cases markers with
  | nil => exact find_eq (.inl (List.cons_ne_nil _ _))
  | cons marker markers => exact find_eq (.inl (List.cons_ne_nil _ _))

theorem resolvePath_of_not_ledByMarker (hb : ¬Path.LedByMarker b) (p : NodeId) :
    ns.resolvePath p b = ns.resolveChild p b := by
  rw [resolvePath_eq, resolveChild, Path.ofText_of_not_ledByMarker hb]
  rfl

/-! ### Behind a dot -/

theorem resolveChild_dot (ns : Namespace) (p : NodeId) (a : String) (hb : ¬Path.LedByMarker b) :
    ns.resolveChild p (a ++ "." ++ b) = (do
      match ← ns.resolveChild p a with
      | some id => ns.resolveChild id b
      | none => return none) := by
  rw [resolveChild, Path.ofText_dot a hb]
  exact descend_append (Path.dvd_length_value a) _

theorem resolvePath_dot (ns : Namespace) (p : NodeId) (a : String) (hb : ¬Path.LedByMarker b) :
    ns.resolvePath p (a ++ "." ++ b) = (do
      match ← ns.resolvePath p a with
      | some id => ns.resolvePath id b
      | none => return none) := by
  simp only [resolvePath_of_not_ledByMarker hb]
  rw [resolvePath_eq, resolvePath_eq, Path.ofText_dot a hb]
  -- the markers of both are those of the first, so both start from one scope or from none
  cases ns.scopeOf p (Path.ofText a).markers with
  | error fault => rfl
  | ok scope =>
    cases scope with
    | none => rfl
    | some scope => exact descend_append (Path.dvd_length_value a) _

theorem Answers.composes {lookup : NodeId → String → Except Fault (Option NodeId)}
    (h : ns.Answers (lookup p a)) (hdot : lookup p (a ++ "." ++ b) = (do
      match ← lookup p a with
      | some id => lookup id b
      | none => return none)) : Composes lookup p a b := by
  obtain ⟨found, hfound, -⟩ := h
  refine ⟨⟨found, hfound⟩, fun id hid => ?_, fun hnone => ?_⟩
  · rw [hdot, hid]
    rfl
  · rw [hdot, hnone]
    rfl

/-- **Relative resolution composes.**  Of two texts with a dot between them, of which the
second does not begin with a marker, the second is looked up where the first leads, both
below the node and with markers; without markers the two lookups are one.  A search for
a text answers what looking it up does at the nearest node, from this one up to the root,
at which it leads somewhere. -/
theorem Built.resolve_composes (built : ns.Built) (hp : p.index < ns.size) :
    (∀ a b, ¬Path.LedByMarker b →
      Composes ns.resolveChild p a b ∧ Composes ns.resolvePath p a b) ∧
    (∀ b, ¬Path.LedByMarker b → ns.resolvePath p b = ns.resolveChild p b) ∧
    ∀ text, ns.FromNearest (ns.resolveChild · text) p (ns.resolveSearch p text) :=
  ⟨fun a _ hb => ⟨Answers.composes (built.answers_descend hp _) (ns.resolveChild_dot p a hb),
      Answers.composes (built.answers_find hp _) (ns.resolvePath_dot p a hb)⟩,
    fun _ hb => resolvePath_of_not_ledByMarker hb p,
    fun _ => built.search_fromNearest hp _⟩

/-- The bridge is where its name leads from the bus, also behind two dots, and from a node
below the root the text for it is read in parts. -/
theorem Built.resolve_composes_rootBridge :
    rootBridge.Built ∧ (⟨2⟩ : NodeId).index < rootBridge.size ∧ ¬Path.LedByMarker ".PCI0" ∧
      rootBridge.resolvePath ⟨2⟩ "\\_SB" = .ok (some ⟨1⟩) ∧
      rootBridge.resolvePath ⟨2⟩ ("\\_SB" ++ "." ++ ".PCI0") =
        rootBridge.resolveChild ⟨1⟩ ".PCI0" := by
  have hp : (⟨2⟩ : NodeId).index < rootBridge.size := by decide
  have hq : (⟨1⟩ : NodeId).index < rootBridge.size := by decide
  have hdot : ¬Path.LedByMarker ".PCI0" := by
    rintro ⟨c, hc, hmarker⟩
    obtain rfl : '.' = c := Option.some.inj hc
    exact absurd hmarker (by decide)
  have hbus : rootBridge.resolvePath ⟨2⟩ "\\_SB" = .ok (some ⟨1⟩) := by
    have htext : Path.ofText "\\_SB" = ⟨[Path.rootMarker], Path.joined [busName]⟩ := by
      decide +kernel
    rw [resolvePath_of_ofText htext]
    exact built_rootBridge.descend_joined (by decide) [busName]
  have hboth := ((built_rootBridge.resolve_composes hp).1 "\\_SB" ".PCI0" hdot).2.found _ hbus
  refine ⟨built_rootBridge, hp, hdot, hbus, hboth.trans ?_⟩
  exact (built_rootBridge.resolve_composes hq).2.1 ".PCI0" hdot

end Namespace
end Acpi
