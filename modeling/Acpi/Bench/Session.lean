/-
# Sessions

A session adds its nodes to an empty namespace and runs operations one after
another on one bench.  Each operation gives a step: its outcome or error, and
the events that it caused.  A fault is the last step of its session; a fault
while the nodes are added leaves a session without steps.
-/

import Acpi.Bench.Operation
import Acpi.Machine.Eval
import Acpi.Machine.Shutdown
import Acpi.Script.Body

namespace Acpi

/-- What stays the same during a session. -/
structure Setup (η κ : Type) where
  host : Host η
  /-- What a setting does to the state of the host. -/
  adjust : κ → η → η
  scripts : List (Nat × List Statement)
  /-- Whether the host gives out storage that already holds something. -/
  dirty : Bool

/-- The state of a session. -/
structure Bench (η : Type) where
  machine : Machine η Note
  registers : Vector Value 8
  limit : UInt64

/-- A computation of a bench. -/
abbrev BenchM (η : Type) : Type → Type := StateT (Bench η) (Except Fault)

namespace Namespace

/-- A node as the namespace shows it: the root has no parent and no siblings. -/
def view (ns : Namespace) (id : NodeId) : Except Fault Node := do
  let n ← ns.node id
  return { n with parent := ← ns.parent id, next := ← ns.nextSibling id }

/-- Adds nodes, each given by its parent, its name and its object. -/
def addAll (ns : Namespace) : List (NodeId × List UInt8 × Object) → Except Fault Namespace
  | [] => .ok ns
  | (parent, name, object) :: rest => do
    let (_, ns) ← ns.addChild parent (← Segment.ofBytes name) object
    ns.addAll rest

end Namespace

namespace Bench

variable {η κ α : Type}

open Machine

/-- A bench over a namespace. -/
def start (space : Namespace) (host : η) (limit : UInt64) : Bench η :=
  ⟨Machine.start space host, Vector.replicate 8 .null, limit⟩

/-- The platform on which the bench evaluates at present. -/
def platform (s : Setup η κ) : BenchM η (Platform η Note) := do
  return ⟨s.host, Script.executor s.scripts, (← get).limit⟩

/-- A computation of the machine as one of the bench. -/
def onMachine (act : MachineM η Note α) : BenchM η α := fun ⟨machine, registers, limit⟩ => do
  let (result, machine) ← act machine
  return (result, ⟨machine, registers, limit⟩)

/-- Changes the namespace. -/
def changeSpace (change : Namespace → Except Fault (α × Namespace)) : BenchM η α :=
  onMachine do
    let m ← get
    let (result, space) ← change m.space
    set { m with space }
    return result

/-- What the namespace answers. -/
def query (ask : Namespace → Except Fault α) : BenchM η α := onMachine (onSpace ask)

/-- What a register holds. -/
def register (r : Register) : BenchM η Value := return (← get).registers[r]

/-- Overwrites a register. -/
def setRegister (r : Register) (value : Value) : BenchM η Unit :=
  modify fun b => { b with registers := b.registers.set r value }

/-- Takes the value of an evaluation over into a register, or releases it. -/
def finish (s : Setup η κ) (keep : Option Register) (result : Except Error Value) :
    BenchM η (Except Error Outcome) := do
  match result with
  | .error error => return .error error
  | .ok value =>
    match keep with
    | some r => setRegister r value
    | none =>
      let _empty ← onMachine (onWorld (value.release s.host))
    return .ok (.value value)

/-- Copies a value into a register. -/
def copyInto (s : Setup η κ) (target : Register) (source : Value) : BenchM η Outcome := do
  let old ← register target
  let value ← onMachine (onWorld (old.overwrite s.host source))
  setRegister target value
  return .value value

/-- The script of the operation `context`: the statements, with a note of the
context before them and the return value after them. -/
def contextScript (script : List Statement) : Script.Code Outcome := do
  Script.report
  let flow ← Script.statements script
  return .ended (flow = .ended) (← Script.read .ret)

/-- Carries out an operation. -/
def perform (s : Setup η κ) : Operation κ → BenchM η (Except Error Outcome)
  | .pass => return .ok .nothing
  | .add parent name object => do
    let name ← Segment.ofBytes name
    return .ok (.node (← changeSpace (·.addChild parent name object)))
  | .put node object => do
    changeSpace fun ns => return ((), ← ns.setObject node object)
    return .ok .nothing
  | .get node => return .ok (.links (← query (·.view node)))
  | .dump => do
    let rows ← query fun ns => (List.range ns.size).mapM fun i => ns.view ⟨i⟩
    return .ok (.table rows)
  | .size => do
    let ns ← query .ok
    return .ok (.size ns.size ns.isEmpty)
  | .reroot node => do
    changeSpace fun ns => return ((), ns.rootedAt node)
    return .ok (.node (← query fun ns => return ns.root))
  | .childNamed node name => do
    let name ← Segment.ofBytes name
    return .ok (.node? (← query (·.childNamed node name)))
  | .descend node value => return .ok (.node? (← query (·.descend node value)))
  | .search node value => return .ok (.node? (← query (·.search node value)))
  | .find node path => return .ok (.node? (← query (·.find node path)))
  | .resolveChild node text => return .ok (.node? (← query (·.resolveChild node text)))
  | .resolveSearch node text => return .ok (.node? (← query (·.resolveSearch node text)))
  | .resolvePath node text => return .ok (.node? (← query (·.resolvePath node text)))
  | .successor cursor descend => return .ok (.node? (← query (·.successor cursor descend)))
  | .walk => return .ok (.nodes (← query (·.walk)))
  | .walkTake count => return .ok (.nodes? (← query fun ns => Walk.take ns count Walk.start))
  | .evalMethod node args keep => do
    finish s keep (← onMachine ((← platform s).evalMethod node args))
  | .evalNode node keep => do
    finish s keep (← onMachine ((← platform s).evalNode node))
  | .matchesId device id => do
    return .ok (.truth (← onMachine ((← platform s).matchesId device id)))
  | .findDevices id => do
    return .ok (.nodes (← onMachine ((← platform s).findDevices id)))
  | .copy target value => return .ok (← copyInto s target value)
  | .copyRegister target source => do
    return .ok (← copyInto s target (← register source))
  | .setRegister target value => do
    setRegister target value
    return .ok .nothing
  | .pokeElement target position value => do
    match ← register target with
    | .package elements =>
      if elements.length ≤ position then throw .noSuchPosition
      setRegister target (.package (elements.set position value))
      return .ok .nothing
    | _ => throw .noSuchPosition
  | .pokeByte target position byte => do
    match ← register target with
    | .buffer bytes =>
      if bytes.length ≤ position then throw .noSuchPosition
      setRegister target (.buffer (bytes.set position byte))
      return .ok .nothing
    | _ => throw .noSuchPosition
  | .release target => do
    let left ← onMachine (onWorld ((← register target).release s.host))
    setRegister target left
    return .ok (.value left)
  | .registers => return .ok (.values (← get).registers.toList)
  | .context script => do
    let p ← platform s
    let (result, _) ← onMachine ((contextScript script).run p p.caller Context.fresh)
    return result
  | .shutdown limit => do
    onMachine (← platform s).shutdown
    modify fun b => { b with machine := { b.machine with depth := 0 }, limit }
    return .ok .nothing
  | .status => do
    let b ← get
    return .ok (.status b.machine.depth b.limit s.dirty)
  | .host call => do
    let _answer ← onMachine (onWorld (s.host.ask call))
    return .ok .nothing
  | .adjust setting => do
    onMachine (onWorld (modify fun w => { w with host := s.adjust setting w.host }))
    return .ok .nothing
  | .object node => return .ok (.object (← query (·.object node)))

/-- Empties the journal. -/
def forget (b : Bench η) : Bench η :=
  { b with machine := { b.machine with world := { b.machine.world with journal := #[] } } }

end Bench

/-- What a session shows of an operation, where events are of type `ε`. -/
inductive Step (ε : Type)
  | done (outcome : Except Error Outcome) (events : List ε)
  | broken (fault : Fault)

/-- Runs operations one after another.  After each of them `observe` gives the
events from what it has seen before and the bench; then the journal is emptied. -/
def Bench.run {η κ σ ε : Type} (s : Setup η κ) (observe : σ → Bench η → List ε × σ) :
    σ → Bench η → List (Operation κ) → List (Step ε)
  | _, _, [] => []
  | seen, b, operation :: rest =>
    match Bench.perform s operation b with
    | .error f => [.broken f]
    | .ok (outcome, b) =>
      let (events, seen) := observe seen b
      .done outcome events :: Bench.run s observe seen b.forget rest

end Acpi
