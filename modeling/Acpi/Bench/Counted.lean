/-
# Counted sessions

A counted session runs on the counting host.  It shows the notes of scripts
and, after each operation, all that has been counted since the session began.
-/

import Acpi.Bench.CountingHost
import Acpi.Bench.Session

namespace Acpi
namespace Counted

/-- What can be set at the counting host. -/
inductive Setting
  /-- What buffer fields hold. -/
  | field (value : UInt64)
  /-- What field units hold. -/
  | operand (value : UInt64)

/-- What a setting does to the host. -/
def Setting.apply : Setting → Counters → Counters
  | field value, c => { c with fieldValue := value }
  | operand value, c => { c with operandValue := value }

/-- What has been counted. -/
structure Totals where
  host : Counters
  /-- How many bodies have run. -/
  calls : Nat
  /-- How many method calls are in progress. -/
  depth : Nat
deriving DecidableEq

/-- What a counted session shows. -/
inductive Event
  | note (note : Note)
  | totals (totals : Totals)
deriving DecidableEq

/-- The note of a journal entry, if it is one. -/
def note? : Entry Note → Option Note
  | .note note => some note
  | .host _ | .log _ => none

/-- Whether a journal entry says that a body is about to run. -/
def isCall : Entry Note → Bool
  | .log (.enter ..) => true
  | _ => false

/-- The events of an operation, where `calls` bodies had run before it; and how
many have run now. -/
def observe (calls : Nat) (b : Bench Counters) : List Event × Nat :=
  let entries := b.machine.world.journal.toList
  let calls := calls + entries.countP isCall
  let totals := Event.totals ⟨b.machine.world.host, calls, b.machine.depth⟩
  ((entries.filterMap note?).map Event.note ++ [totals], calls)

/-- What is given for a session. -/
structure Input where
  nodes : List (NodeId × List UInt8 × Object)
  limit : UInt64
  scripts : List (Nat × List Statement)
  operations : List (Operation Setting)

/-- The steps of a session.  One whose nodes cannot be added has none. -/
def run (input : Input) : Except Fault (List (Step Event)) := do
  let space ← Namespace.empty.addAll input.nodes
  let setup := ⟨countingHost, Setting.apply, input.scripts, false⟩
  return Bench.run setup observe 0 (Bench.start space Counters.zero input.limit) input.operations

end Counted
end Acpi
