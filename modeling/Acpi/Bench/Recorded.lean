/-
# Recorded sessions

A recorded session runs on a host of tables and shows everything that happens:
the calls to the host, the log records up to a level, and the notes of scripts,
in order.
-/

import Acpi.Bench.Session
import Acpi.Bench.TableHost

namespace Acpi
namespace Recorded

/-- What a recorded session shows of a journal entry. -/
inductive Event
  | line (text : String)
  | note (note : Note)
deriving DecidableEq

/-- The event of an entry; log records above the rank `verbosity` are left
out. -/
def Event.ofEntry? (verbosity : Nat) : Entry Note → Option Event
  | .host call => some (.line call.describe)
  | .log record =>
    if record.level.rank ≤ verbosity then
      some (.line s!"log {record.level.label} {record.message}")
    else none
  | .note n => some (.note n)

/-- What is given for a session. -/
structure Input where
  nodes : List (NodeId × List UInt8 × Object)
  limit : UInt64
  /-- The most verbose level that is shown, if any is. -/
  level : Option Level
  tables : HostTables
  scripts : List (Nat × List Statement)
  operations : List (Operation Empty)

/-- The steps of a session.  One whose nodes cannot be added has none. -/
def run (input : Input) : Except Fault (List (Step Event)) := do
  let space ← Namespace.empty.addAll input.nodes
  let verbosity := (input.level.map Level.rank).getD 0
  let observe (_ : Unit) (b : Bench Unit) :=
    (b.machine.world.journal.toList.filterMap (Event.ofEntry? verbosity), ())
  let setup : Setup Unit Empty :=
    ⟨input.tables.host, Empty.elim, input.scripts, input.tables.dirty⟩
  return Bench.run setup observe () (Bench.start space () input.limit) input.operations

end Recorded
end Acpi
