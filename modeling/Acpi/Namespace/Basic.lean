/-
# The namespace

The namespace is a tree of named objects, kept as an arena: a node is a number,
and the arena holds for each node its name, its object and its links.  Children
stand in the order in which they were added.

A namespace may be rooted at any of its nodes.  The root has neither a parent
nor siblings, whatever links the arena holds for it, so that looking up and
walking stay below it.

A handle of one namespace can be used with another.  Every access to a node
that the arena does not have is a fault.  The links are not defended against
such handles: `addChild` with the number that the new node is about to get
makes the node its own parent.
-/

import Acpi.Failure
import Acpi.Name.Segment
import Acpi.Object

namespace Acpi

/-- What the arena holds for a node. -/
structure Node where
  name : Segment
  object : Object
  parent : Option NodeId
  firstChild : Option NodeId
  lastChild : Option NodeId
  next : Option NodeId
deriving DecidableEq

/-- An arena of nodes and the node that serves as its root. -/
structure Namespace where
  nodes : Array Node
  root : NodeId
deriving DecidableEq

namespace Namespace

/-- The namespace that holds a root and nothing else. -/
def empty : Namespace := ⟨#[⟨Segment.root, .scope, none, none, none, none⟩], NodeId.first⟩

instance : Inhabited Namespace := ⟨empty⟩

/-- The number of nodes, the first one included. -/
def size (ns : Namespace) : Nat := ns.nodes.size

/-- Whether nothing has been added yet. -/
def isEmpty (ns : Namespace) : Bool := ns.size == 1

/-- What the arena holds for a node. -/
def node (ns : Namespace) (id : NodeId) : Except Fault Node :=
  match ns.nodes[id.index]? with
  | some n => .ok n
  | none => .error (.noSuchNode id)

/-- The name of a node. -/
def name (ns : Namespace) (id : NodeId) : Except Fault Segment := (·.name) <$> ns.node id

/-- The object of a node. -/
def object (ns : Namespace) (id : NodeId) : Except Fault Object := (·.object) <$> ns.node id

/-- The parent of a node; the root has none. -/
def parent (ns : Namespace) (id : NodeId) : Except Fault (Option NodeId) :=
  if id = ns.root then .ok none else (·.parent) <$> ns.node id

/-- The first child of a node. -/
def firstChild (ns : Namespace) (id : NodeId) : Except Fault (Option NodeId) :=
  (·.firstChild) <$> ns.node id

/-- The sibling that was added next after a node; the root has none. -/
def nextSibling (ns : Namespace) (id : NodeId) : Except Fault (Option NodeId) :=
  if id = ns.root then .ok none else (·.next) <$> ns.node id

/-- Adds a node as the last child of `parent`.  The node is in the arena before
the parent is looked at. -/
def addChild (ns : Namespace) (parent : NodeId) (name : Segment) (object : Object) :
    Except Fault (NodeId × Namespace) :=
  let id : NodeId := ⟨ns.nodes.size⟩
  let nodes := ns.nodes.push ⟨name, object, some parent, none, none, none⟩
  match nodes[parent.index]? with
  | none => .error (.noSuchNode parent)
  | some p =>
    let nodes := nodes.modify parent.index fun q => { q with lastChild := some id }
    let nodes := match p.lastChild with
      | some last => nodes.modify last.index fun q => { q with next := some id }
      | none => nodes.modify parent.index fun q => { q with firstChild := some id }
    .ok (id, { ns with nodes })

/-- Puts another object in the place of a node's object. -/
def setObject (ns : Namespace) (id : NodeId) (object : Object) : Except Fault Namespace :=
  if id.index < ns.nodes.size then
    .ok { ns with nodes := ns.nodes.modify id.index fun n => { n with object } }
  else .error (.noSuchNode id)

/-- The same arena rooted at another node. -/
def rootedAt (ns : Namespace) (root : NodeId) : Namespace := { ns with root }

theorem node_eq_ok_iff {ns : Namespace} {id : NodeId} {n : Node} :
    ns.node id = .ok n ↔ ns.nodes[id.index]? = some n := by
  unfold node
  split <;> simp_all

theorem lt_size_of_node_eq_ok {ns : Namespace} {id : NodeId} {n : Node}
    (h : ns.node id = .ok n) : id.index < ns.size :=
  (Array.getElem?_eq_some_iff.1 (node_eq_ok_iff.1 h)).1

@[simp] theorem parent_root (ns : Namespace) : ns.parent ns.root = .ok none := by
  simp [parent]

@[simp] theorem nextSibling_root (ns : Namespace) : ns.nextSibling ns.root = .ok none := by
  simp [nextSibling]

end Namespace
end Acpi
