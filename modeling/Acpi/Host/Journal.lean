/-
# The journal

What happens during an evaluation is written down in order: the calls to the
host, the log records of the interpreter, and whatever notes method bodies
leave.  The world of an evaluation is the state of the host together with this
journal.
-/

import Acpi.Host.Call
import Acpi.Log

namespace Acpi

/-- One line of the journal, where notes are of type `ν`. -/
inductive Entry (ν : Type)
  | host (call : HostCall)
  | log (record : LogRecord)
  | note (note : ν)
deriving DecidableEq

/-- The state of the host and the journal so far. -/
structure World (η ν : Type) where
  host : η
  journal : Array (Entry ν)

/-- A computation that asks the host and writes the journal. -/
abbrev WorldM (η ν : Type) : Type → Type := StateT (World η ν) (Except Fault)

variable {η ν : Type}

/-- Writes an entry. -/
def World.write (entry : Entry ν) : WorldM η ν Unit :=
  modify fun ⟨host, journal⟩ => ⟨host, journal.push entry⟩

/-- Asks the host and writes the call down. -/
def Host.ask (host : Host η) (call : HostCall) : WorldM η ν call.Answer := do
  World.write (.host call)
  fun ⟨state, journal⟩ => do
    let (answer, state) ← host call state
    return (answer, ⟨state, journal⟩)

end Acpi
