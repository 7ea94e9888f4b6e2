/-
# Scripts as bodies

`Statement.body` says what a statement asks of the interpreter, and
`Script.executor` picks the script of a method by the place where the method's
code starts.  A method without a script does nothing.
-/

import Acpi.Machine.Body
import Acpi.Namespace.Lookup
import Acpi.Script.Statement

namespace Acpi
namespace Script

open Body (request ofExcept)

/-- The body of a script or a part of it. -/
abbrev Code : Type → Type := Body Note

/-- Whether a script goes on after a statement. -/
inductive Flow
  | goesOn
  | ended
deriving DecidableEq

/-- What a slot holds. -/
def read (slot : Slot) : Code Value := do
  let ctx ← request .context
  ofExcept (ctx.get slot)

/-- The value that a source stands for. -/
def valueOf : Source → Code Value
  | .slot slot => read slot
  | .value value => return value

/-- A copy of a value in storage of its own. -/
def copyOf (value : Value) : Code Value := request (.overwrite .null value)

/-- Puts a result into its target, or releases it if there is none. -/
def keep (target : Option Slot) (value : Value) : Code Unit :=
  match target with
  | some slot => request (.store slot value)
  | none => do
    let _empty ← request (.release value)
    return ()

/-- The node that a path names in the scope of the script. -/
def locate? (path : String) : Code (Option NodeId) := do
  let ctx ← request .context
  let ns ← request .space
  ofExcept (ns.resolvePath ctx.scope path)

/-- The node that a lookup has given; there is an error when it gave none. -/
def orInvalid : Option NodeId → Code NodeId
  | some node => return node
  | none => .fail .invalidAml

/-- The node that a path has to name in the scope of the script. -/
def locate (path : String) : Code NodeId := do
  orInvalid (← locate? path)

/-- Copies of what sources stand for, made from first to last. -/
def copyArgs : List Source → Code (List Value)
  | [] => return []
  | source :: rest => do
    let value ← copyOf (← valueOf source)
    return value :: (← copyArgs rest)

/-- Releases values from first to last. -/
def releaseArgs : List Value → Code Unit
  | [] => return ()
  | value :: rest => do
    let _empty ← request (.release value)
    releaseArgs rest

/-- Calls the method that a path names.  The copies of the arguments are
released whatever becomes of the call. -/
def callMethod (path : String) (args : List Source) : Code (Except Error Value) := do
  match ← locate? path with
  | none => return .error .invalidAml
  | some node =>
    let values ← copyArgs args
    let result ← request (.evalMethod node values)
    releaseArgs values
    return result

/-- The result of an evaluation; its error ends the script. -/
def orFail : Except Error Value → Code Value
  | .ok value => return value
  | .error error => .fail error

/-- Adds a node below the one that a path names. -/
def addNode (path : String) (name : List UInt8) (object : Object) : Code Unit := do
  let parent ← locate path
  let segment ← ofExcept (Segment.ofBytes name)
  let node ← request (.addChild parent segment object)
  request (.note (.added node))

/-- Copies a value into the named value at a path. -/
def assign (path : String) (source : Source) : Code Unit := do
  let node ← locate path
  let ns ← request .space
  match ← ofExcept (ns.object node) with
  | .name old =>
    let value ← request (.overwrite old (← valueOf source))
    request (.setObject node (.name value))
  | _ => .fail .wrongType

/-- Notes the context and the depth of the call. -/
def report : Code Unit := do
  let ctx ← request .context
  let depth ← request .depth
  request (.note (.reported ctx.scope ctx.argCount depth ctx.body))

/-- Goes on after something that only has an effect. -/
def thenGoOn (code : Code Unit) : Code Flow := do
  code
  return .goesOn

mutual

/-- What a statement asks of the interpreter. -/
def statement : Statement → Code Flow
  | .copy target source => thenGoOn (request (.copySlot target source))
  | .store slot value => thenGoOn do request (.store slot (← copyOf value))
  | .move slot value => thenGoOn (request (.store slot value))
  | .poke slot value => thenGoOn (request (.poke slot value))
  | .reveal slot => thenGoOn do request (.note (.revealed slot (← read slot)))
  | .report => thenGoOn report
  | .call target path args => thenGoOn do
    keep target (← orFail (← callMethod path args))
  | .attempt target path args => thenGoOn do
    match ← callMethod path args with
    | .ok value => keep target value
    | .error error => request (.note (.caught error))
  | .eval target path => thenGoOn do
    let ctx ← request .context
    let ns ← request .space
    let node ← orInvalid (← ofExcept (ns.resolveSearch ctx.scope path))
    keep target (← orFail (← request (.evalNode node)))
  | .identify target path id => thenGoOn do
    let matched ← request (.matchesId (← locate path) id)
    keep target (.integer (if matched then 1 else 0))
  | .findDevices target id => thenGoOn do
    let devices ← request (.findDevices id)
    request (.note (.found devices))
    keep target (.integer (UInt64.ofNat devices.length))
  | .add path name object => thenGoOn (addNode path name object)
  | .assign path source => thenGoOn (assign path source)
  | .increase slot amount => thenGoOn do
    let n := (← read slot).asInteger?.getD 0
    request (.store slot (.integer (n + amount)))
  | .ifZero slot yes no => do
    if (← read slot) = .integer 0 then statements yes else statements no
  | .ret => return .ended
  | .fail error => .fail error

/-- What a list of statements asks of the interpreter, until one of them ends
the script. -/
def statements : List Statement → Code Flow
  | [] => return .goesOn
  | first :: rest => do
    match ← statement first with
    | .goesOn => statements rest
    | .ended => return .ended

end

/-- The body of a method whose code starts where one of the scripts does. -/
def executor (scripts : List (Nat × List Statement)) (ctx : Context) : Code Unit := do
  match scripts.lookup ctx.body.start with
  | none => return ()
  | some script =>
    let _flow ← statements script
    return ()

end Script
end Acpi
