/-
# Walking the namespace

`Namespace.successor` gives the node that follows another one in preorder: its
first child, if the walk is to go down there, and otherwise the next sibling of
the nearest node, from it up to the root, that has one.  The successor depends
on the node alone, so a walk can leave out what is below a node, and it can
stop and go on later.  The root itself is never visited.
-/

import Acpi.Namespace.Basic

namespace Acpi
namespace Namespace

/-- The node that follows once everything below `id` is done. -/
def climb (ns : Namespace) (id : NodeId) : Except Fault (Option NodeId) := do
  match ← ns.nextSibling id with
  | some next => return some next
  | none =>
    match ← ns.parent id with
    | none => return none
    | some up => if _above : up.index < id.index then ns.climb up else throw .endless
termination_by id.index

/-- The node that follows `id`, where `descend` says whether to go below it. -/
def after (ns : Namespace) (id : NodeId) (descend : Bool) : Except Fault (Option NodeId) := do
  match ← if descend then ns.firstChild id else pure none with
  | some child => return some child
  | none => ns.climb id

/-- The node that follows a cursor; the start of the walk is before the first
child of the root. -/
def successor (ns : Namespace) (cursor : Option NodeId) (descend : Bool) :
    Except Fault (Option NodeId) :=
  match cursor with
  | none => ns.firstChild ns.root
  | some id => ns.after id descend

end Namespace

/-- How far a walk has come.  The cursor alone cannot tell the end from the
start. -/
structure Walk where
  cursor : Option NodeId
  finished : Bool
deriving DecidableEq

namespace Walk

/-- A walk that has not begun. -/
def start : Walk := ⟨none, false⟩

/-- The next node of a walk, and how far the walk is then. -/
def next (ns : Namespace) (walk : Walk) : Except Fault (Option NodeId × Walk) := do
  if walk.finished then return (none, walk)
  let cursor ← ns.successor walk.cursor true
  return (cursor, ⟨cursor, cursor.isNone⟩)

/-- What `n` calls of `next` answer. -/
def take (ns : Namespace) : Nat → Walk → Except Fault (List (Option NodeId))
  | 0, _ => .ok []
  | n + 1, walk => do
    let (id, walk) ← walk.next ns
    return id :: (← take ns n walk)

/-- The nodes of a walk until it ends, within a bound on their number. -/
def collect (ns : Namespace) : Nat → Walk → Except Fault (List NodeId)
  | 0, _ => .error .endless
  | bound + 1, walk => do
    match ← walk.next ns with
    | (none, _) => return []
    | (some id, walk) => return id :: (← collect ns bound walk)

end Walk

/-- All nodes below the root, in preorder.  There are fewer of them than nodes
in the arena, so a walk that is longer goes round in a circle. -/
def Namespace.walk (ns : Namespace) : Except Fault (List NodeId) :=
  Walk.start.collect ns (ns.size + 1)

end Acpi
