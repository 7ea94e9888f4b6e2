/-
# Looking names up

A string of bytes names a node relative to another one, a segment for each
level (`Namespace.descend`).  At every level the earliest child of that name is
taken, and there is no way back from it.  `Namespace.search` tries the node
itself, then its parent, and so on up to the root.

A path moves the scope by its markers first: a backslash to the root, a caret
to the parent, any other marker nowhere.  A path of no markers and a single
segment is searched for in the enclosing scopes; every other path is descended
from its scope (`Namespace.find`).

Along siblings numbers grow, and towards the root they shrink.  The functions
stop with the fault `endless` where they do not, which happens only at a node
that is its own parent.
-/

import Acpi.Name.Path
import Acpi.Namespace.Basic

namespace Acpi
namespace Namespace

/-- A node and the siblings behind it, in order. -/
def siblingsFrom (ns : Namespace) (id : NodeId) : Except Fault (List NodeId) :=
  match _found : ns.nodes[id.index]? with
  | none => .error (.noSuchNode id)
  | some n =>
    match if id = ns.root then none else n.next with
    | none => .ok [id]
    | some next =>
      if _later : id.index < next.index then (id :: ·) <$> ns.siblingsFrom next
      else .error .endless
termination_by ns.nodes.size - id.index
decreasing_by
  have hid := (Array.getElem?_eq_some_iff.1 _found).1
  omega

/-- The children of a node, in order. -/
def children (ns : Namespace) (id : NodeId) : Except Fault (List NodeId) := do
  match ← ns.firstChild id with
  | none => return []
  | some child => ns.siblingsFrom child

/-- Whether a node is there and has the given name. -/
def isNamed (ns : Namespace) (name : Segment) (id : NodeId) : Bool :=
  match ns.nodes[id.index]? with
  | some n => n.name = name
  | none => false

/-- The earliest child of that name. -/
def childNamed (ns : Namespace) (id : NodeId) (name : Segment) :
    Except Fault (Option NodeId) := do
  return (← ns.children id).find? (ns.isNamed name)

/-- The node reached from `id` by going down a child for each segment.  No
bytes lead to the node itself, and a piece of fewer than four bytes leads
nowhere; neither looks at the node. -/
def descend (ns : Namespace) (id : NodeId) : List UInt8 → Except Fault (Option NodeId)
  | [] => .ok (some id)
  | a :: b :: c :: d :: rest => do
    match ← ns.childNamed id ⟨a, b, c, d⟩ with
    | some child => ns.descend child rest
    | none => return none
  | _ => .ok none

/-- The node reached from `id` or, failing that, from the nearest enclosing
scope that reaches one. -/
def search (ns : Namespace) (id : NodeId) (value : List UInt8) :
    Except Fault (Option NodeId) := do
  match ← ns.descend id value with
  | some found => return some found
  | none =>
    match ← ns.parent id with
    | none => return none
    | some scope =>
      if _above : scope.index < id.index then ns.search scope value else throw .endless
termination_by id.index

/-- The scope that markers lead to, or `none` when they lead above the root. -/
def scopeOf (ns : Namespace) (id : NodeId) : List UInt8 → Except Fault (Option NodeId)
  | [] => .ok (some id)
  | marker :: rest =>
    if marker = Path.rootMarker then ns.scopeOf ns.root rest
    else if marker = Path.parentMarker then do
      match ← ns.parent id with
      | some scope => ns.scopeOf scope rest
      | none => return none
    else ns.scopeOf id rest

/-- The node that a path names when it is read at `id`. -/
def find (ns : Namespace) (id : NodeId) (path : Path) : Except Fault (Option NodeId) := do
  match ← ns.scopeOf id path.markers with
  | none => return none
  | some scope =>
    if path.isUnanchored && path.value.length == 4 then ns.search scope path.value
    else ns.descend scope path.value

/-- The node reached from `id` by the names of a textual path, whatever its
markers. -/
def resolveChild (ns : Namespace) (id : NodeId) (text : String) :
    Except Fault (Option NodeId) :=
  ns.descend id (Path.ofText text).value

/-- The node reached by the names of a textual path from `id` or the nearest
enclosing scope that reaches one. -/
def resolveSearch (ns : Namespace) (id : NodeId) (text : String) :
    Except Fault (Option NodeId) :=
  ns.search id (Path.ofText text).value

/-- The node that a textual path names when it is read at `id`.  A path without
markers is anchored there, so that enclosing scopes are never searched. -/
def resolvePath (ns : Namespace) (id : NodeId) (text : String) :
    Except Fault (Option NodeId) :=
  let path := Path.ofText text
  ns.find id (if path.isUnanchored then { path with markers := [Path.relativeMarker] } else path)

end Namespace
end Acpi
