/-
# Nodes are found under their own names

The address of a node is the list of the names on the way from the root down to
it; every node has exactly one (`Built.exists_address`, `Built.address_unique`).
Descending along an address leads back to the node as long as no node on the way
has an older sibling of its name (`Built.follow_address`), and reading a text for
the address gives just this descent, from wherever the text is read.  So a node that can be
written down is found under every text for its address, and no other such node
shares a text with it (`Built.resolvePath_address`).
-/

import Acpi.Proofs.Tree.Descent

namespace Acpi
namespace Namespace

variable {ns : Namespace} {id up p s : NodeId} {name : Segment} {names names' : List Segment}

open Relation

/-- The names on the way from the root down to a node. -/
inductive Address (ns : Namespace) : List Segment → NodeId → Prop
  | root : Address ns [] ns.root
  | child {names : List Segment} {up id : NodeId} {name : Segment} : Address ns names up →
      ns.Up id up → ns.name id = .ok name → Address ns (names ++ [name]) id

/-- A node without an older sibling of its name. -/
def IsEldest (ns : Namespace) (id : NodeId) : Prop :=
  ∀ p sibling, ns.Up id p → ns.Up sibling p → ns.name sibling = ns.name id →
    id.index ≤ sibling.index

/-- A node below the root that its address leads to and that can be written down. -/
structure Findable (ns : Namespace) (names : List Segment) (id : NodeId) : Prop where
  address : ns.Address names id
  ne_root : id ≠ ns.root
  eldest : ∀ a, ReflTransGen ns.Up id a → a ≠ ns.root → ns.IsEldest a
  plain : ∀ name ∈ names, name.IsPlain
  unmarked : ∀ first ∈ names.head?, ¬first.IsMarked

theorem name_eq_ok_of_lt (h : id.index < ns.size) : ∃ name, ns.name id = .ok name := by
  obtain ⟨n, hn⟩ := node_eq_ok_of_lt h
  exact ⟨n.name, by rw [Namespace.name, hn]; rfl⟩

/-- Read behind a backslash, names are looked up from the root. -/
theorem resolvePath_of_ofText {text : String} {v : List UInt8}
    (h : Path.ofText text = ⟨[Path.rootMarker], v⟩) :
    ns.resolvePath s text = ns.descend ns.root v := by
  rw [resolvePath, h]
  rfl

namespace Built

theorem exists_address (built : ns.Built) (h : id.index < ns.size) :
    ∃ names, ns.Address names id := by
  have hreaches := built.reaches_root h
  clear h
  induction hreaches using ReflTransGen.head_induction_on with
  | refl => exact ⟨[], .root⟩
  | head hup _ ih =>
    obtain ⟨names, haddress⟩ := ih
    obtain ⟨name, hname⟩ := name_eq_ok_of_lt (lt_size_of_mem_childList (built.up_iff.1 hup))
    exact ⟨names ++ [name], haddress.child hup hname⟩

theorem address_unique (built : ns.Built) (h : ns.Address names id) (h' : ns.Address names' id) :
    names = names' := by
  induction h generalizing names' with
  | root =>
    cases h' with
    | root => rfl
    | child _ hup => exact absurd rfl (built.ne_root_of_up hup)
  | child _ hup hname ih =>
    cases h' with
    | root => exact absurd rfl (built.ne_root_of_up hup)
    | child haddress' hup' hname' =>
      obtain rfl := Option.some.inj (Except.ok.inj (hup.symm.trans hup'))
      obtain rfl := Except.ok.inj (hname.symm.trans hname')
      rw [ih haddress']

theorem eldest_of_isEldest (built : ns.Built) (hup : ns.Up id p) (hname : ns.name id = .ok name)
    (heldest : ns.IsEldest id) : ns.eldest p name = some id :=
  built.eldest_eq_some_iff.2 ⟨hup, hname, fun sibling hsibling hnamed =>
    heldest p sibling hup hsibling (hnamed.trans hname.symm)⟩

/-- **An address leads to its node** if no node on the way has an older sibling of
its name, by induction on the way down. -/
theorem follow_address (built : ns.Built) (h : ns.Address names id)
    (heldest : ∀ a, ReflTransGen ns.Up id a → a ≠ ns.root → ns.IsEldest a) :
    ns.follow ns.root names = some id := by
  induction h with
  | root => rfl
  | child _ hup hname ih =>
    rw [follow_concat, ih fun a ha => heldest a (.head hup ha), Option.bind_some]
    exact built.eldest_of_isEldest hup hname (heldest _ .refl (built.ne_root_of_up hup))

theorem resolvePath_absolute (built : ns.Built) (h : ns.Findable names id) {texts : List String}
    (hwritten : List.Forall₂ Segment.WrittenAs names texts) (s : NodeId) :
    ns.resolvePath s (Path.absolute texts) = .ok (some id) := by
  rw [resolvePath_of_ofText (Path.ofText_absolute hwritten h.plain h.unmarked),
    built.descend_joined built.root_lt_size, built.follow_address h.address h.eldest]

/-- **Nodes are found under their own names.**  Every node has one address.  If no
node on the way to it has an older sibling of its name, and its address can be
written down, then the text for its address leads to it, from wherever it is read,
and so does every text in which underscores at the end of names are left out.  So
no text leads to two such nodes. -/
theorem resolvePath_address (built : ns.Built) :
    (∀ id, id.index < ns.size → ∃! names, ns.Address names id) ∧
    (∀ names id, ns.Findable names id →
      List.Forall₂ Segment.WrittenAs names (names.map Segment.text) ∧
      ∀ texts, List.Forall₂ Segment.WrittenAs names texts →
        ∀ s, ns.resolvePath s (Path.absolute texts) = .ok (some id)) ∧
    ∀ names names' id id' texts texts', ns.Findable names id → ns.Findable names' id' →
      List.Forall₂ Segment.WrittenAs names texts → List.Forall₂ Segment.WrittenAs names' texts' →
      Path.absolute texts = Path.absolute texts' → id = id' := by
  refine ⟨fun id h => ?_, fun names id h => ⟨?_, fun texts => built.resolvePath_absolute h⟩,
    fun names names' id id' texts texts' h h' hwritten hwritten' htext => ?_⟩
  · obtain ⟨names, hnames⟩ := built.exists_address h
    exact ⟨names, hnames, fun names' hnames' => built.address_unique hnames' hnames⟩
  · refine List.forall₂_map_right_iff.2 (List.forall₂_same.2 fun name hname => ?_)
    exact (h.plain name hname).writtenAs_text
  · have hfound := built.resolvePath_absolute h hwritten ns.root
    have hfound' := built.resolvePath_absolute h' hwritten' ns.root
    rw [htext, hfound'] at hfound
    exact (Option.some.inj (Except.ok.inj hfound)).symm

end Built

/-- The names of the system bus, `_SB_`, and of the first root bridge, `PCI0`. -/
def busName : Segment := ⟨0x5F, 0x53, 0x42, 0x5F⟩

def bridgeName : Segment := ⟨0x50, 0x43, 0x49, 0x30⟩

/-- A root bridge below the system bus, and a younger node of the name of the bus. -/
def rootBridge : Namespace :=
  ⟨#[⟨Segment.root, .scope, none, some ⟨1⟩, some ⟨3⟩, none⟩,
    ⟨busName, .scope, some ⟨0⟩, some ⟨2⟩, some ⟨2⟩, some ⟨3⟩⟩,
    ⟨bridgeName, .device, some ⟨1⟩, none, none, none⟩,
    ⟨busName, .scope, some ⟨0⟩, none, none, none⟩], NodeId.first⟩

theorem built_rootBridge : rootBridge.Built := by
  have h₁ : Namespace.empty.addChild ⟨0⟩ busName .scope = .ok (⟨1⟩,
      ⟨#[⟨Segment.root, .scope, none, some ⟨1⟩, some ⟨1⟩, none⟩,
        ⟨busName, .scope, some ⟨0⟩, none, none, none⟩], .first⟩) :=
    rfl
  have h₂ : (⟨#[⟨Segment.root, .scope, none, some ⟨1⟩, some ⟨1⟩, none⟩,
        ⟨busName, .scope, some ⟨0⟩, none, none, none⟩], .first⟩ :
      Namespace).addChild ⟨1⟩ bridgeName .device = .ok (⟨2⟩,
      ⟨#[⟨Segment.root, .scope, none, some ⟨1⟩, some ⟨1⟩, none⟩,
        ⟨busName, .scope, some ⟨0⟩, some ⟨2⟩, some ⟨2⟩, none⟩,
        ⟨bridgeName, .device, some ⟨1⟩, none, none, none⟩], .first⟩) :=
    rfl
  have h₃ : (⟨#[⟨Segment.root, .scope, none, some ⟨1⟩, some ⟨1⟩, none⟩,
        ⟨busName, .scope, some ⟨0⟩, some ⟨2⟩, some ⟨2⟩, none⟩,
        ⟨bridgeName, .device, some ⟨1⟩, none, none, none⟩], .first⟩ :
      Namespace).addChild ⟨0⟩ busName .scope = .ok (⟨3⟩, rootBridge) :=
    rfl
  exact .addChild (.addChild (.addChild .empty (by decide) h₁) (by decide) h₂) (by decide) h₃

theorem findable_rootBridge : rootBridge.Findable [busName, bridgeName] ⟨2⟩ where
  address :=
    have hbus : rootBridge.Up ⟨1⟩ ⟨0⟩ ∧ rootBridge.name ⟨1⟩ = .ok busName := ⟨rfl, rfl⟩
    have hbridge : rootBridge.Up ⟨2⟩ ⟨1⟩ ∧ rootBridge.name ⟨2⟩ = .ok bridgeName := ⟨rfl, rfl⟩
    .child (.child .root hbus.1 hbus.2) hbridge.1 hbridge.2
  ne_root := by decide
  eldest := by
    intro a ha hroot p sibling hup hsibling hname
    rw [built_rootBridge.up_iff] at hup hsibling
    have hchildren : ∀ i < 4, ∀ j ∈ rootBridge.childList ⟨i⟩, j.index ≠ 3 →
        ∀ k ∈ rootBridge.childList ⟨i⟩, j.index ≤ k.index := by
      decide
    have hp := built_rootBridge.linked.parent_lt hup
    have hlt := lt_size_of_mem_childList hup
    have hle := built_rootBridge.reflTransGen_up_le ha
    refine hchildren p.index (Nat.lt_trans hp hlt) a hup ?_ sibling hsibling
    exact Nat.ne_of_lt (Nat.lt_succ_of_le hle)
  plain := by decide +kernel
  unmarked := by decide +kernel

/-- The text leaves out the last underscore of the bus, and is read at the younger
node of that name. -/
theorem Built.resolvePath_address_rootBridge :
    rootBridge.Built ∧ rootBridge.Findable [busName, bridgeName] ⟨2⟩ ∧
      List.Forall₂ Segment.WrittenAs [busName, bridgeName] ["_SB", "PCI0"] ∧
      rootBridge.resolvePath ⟨3⟩ "\\_SB.PCI0" = .ok (some ⟨2⟩) := by
  have hbus : busName.WrittenAs "_SB" := ⟨by decide, 1, by decide⟩
  have hbridge : bridgeName.WrittenAs "PCI0" := ⟨by decide, 0, by decide⟩
  have hwritten : List.Forall₂ Segment.WrittenAs [busName, bridgeName] ["_SB", "PCI0"] :=
    .cons hbus (.cons hbridge .nil)
  refine ⟨built_rootBridge, findable_rootBridge, hwritten, ?_⟩
  obtain ⟨-, hfound, -⟩ := built_rootBridge.resolvePath_address
  exact (hfound _ _ findable_rootBridge).2 _ hwritten ⟨3⟩

end Namespace
end Acpi
