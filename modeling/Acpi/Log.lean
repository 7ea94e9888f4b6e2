/-
# Log records

The interpreter logs when a method is entered and left, and why it gives
something up.  Each kind of record has a fixed level.
-/

import Acpi.Failure
import Acpi.Name.Segment
import Acpi.Object

namespace Acpi

/-- How grave a record is, the gravest first. -/
inductive Level
  | error
  | warn
  | info
  | debug
  | trace
deriving DecidableEq

namespace Level

/-- The rank of a level; a higher one is more verbose. -/
def rank : Level → Nat
  | error => 1
  | warn => 2
  | info => 3
  | debug => 4
  | trace => 5

/-- The name under which records of a level are listed. -/
def label : Level → String
  | error => "ERROR"
  | warn => "WARN"
  | info => "INFO"
  | debug => "DEBUG"
  | trace => "TRACE"

end Level

/-- What the interpreter has to report. -/
inductive LogRecord
  /-- A method is about to run, called at a nesting depth with arguments. -/
  | enter (method : Segment) (depth : Nat) (args : UInt8)
  /-- A method has run; the type of its value, or nothing when it failed. -/
  | leave (method : Segment) (typeName : Option String)
  /-- A call was refused because of the limit. -/
  | depthReached (limit : UInt64) (method : Segment)
  /-- An object without a value was to be evaluated. -/
  | valueless (node : Segment) (typeName : String)
  /-- An identifier of a device could not be evaluated. -/
  | unidentified (identifier : String) (device : Segment) (error : Error)
  /-- The interpreter was shut down. -/
  | released (count : Nat)
deriving DecidableEq

namespace LogRecord

/-- The level of a record. -/
def level : LogRecord → Level
  | enter .. | leave .. => .trace
  | depthReached .. => .warn
  | valueless .. | unidentified .. | released .. => .debug

/-- The text of a record. -/
def message : LogRecord → String
  | enter method depth args => s!"aml: enter {method} (depth {depth}, {args} args)"
  | leave method typeName =>
    let outcome := typeName.getD "error"
    s!"aml: leave {method} -> {outcome}"
  | depthReached limit method => s!"aml: call depth limit {limit} reached invoking {method}"
  | valueless node typeName => s!"aml: {node} is a {typeName} and has no value"
  | unidentified identifier device error =>
    s!"aml: {identifier} of {device} failed to evaluate: {error}"
  | released count => s!"aml: shutdown released {count} named values"

end LogRecord
end Acpi
