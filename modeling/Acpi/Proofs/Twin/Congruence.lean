/-
# What evaluations are made of

Evaluating a node, comparing a device and finding devices are calls of methods and a
few steps in between: questions to the namespace, copies and releases of values, reads
of field units, and log records.  A relation between the computations of two machines
that sequences keep and that holds of these steps (`Congruence`) holds of the whole
evaluations if it holds of the calls, whatever it says.
-/

import Acpi.Device.Search

namespace Acpi

variable {η η' ν α β : Type}

open Machine

/-- A relation between computations on two platforms which sequences keep and which holds
of the steps that evaluations are made of. -/
structure Congruence (p : Platform η ν) (p' : Platform η' ν)
    (R : (α : Type) → MachineM η ν α → MachineM η' ν α → Prop) : Prop where
  pure : ∀ {α} (a : α), R α (pure a) (pure a)
  bind : ∀ {α β} {x : MachineM η ν α} {y f g}, R α x y → (∀ a, R β (f a) (g a)) →
    R β (x >>= f) (y >>= g)
  onSpace : ∀ {α} (query : Namespace → Except Fault α), R α (onSpace query) (onSpace query)
  log : ∀ record, R Unit (log record) (log record)
  copy : ∀ v : Value, R Value (onWorld (v.copy p.host)) (onWorld (v.copy p'.host))
  release : ∀ v : Value, R Value (onWorld (v.release p.host)) (onWorld (v.release p'.host))
  readUnit : ∀ operand, R Value (onWorld (Caller.readUnit p operand))
    (onWorld (Caller.readUnit p' operand))

namespace Congruence

variable {p : Platform η ν} {p' : Platform η' ν}
  {R : (α : Type) → MachineM η ν α → MachineM η' ν α → Prop}

protected theorem map (congruence : Congruence p p' R) {x : MachineM η ν α}
    {y : MachineM η' ν α} (f : α → β) (h : R α x y) : R β (f <$> x) (f <$> y) := by
  rw [← bind_pure_comp, ← bind_pure_comp]
  exact congruence.bind h fun a => congruence.pure (f a)

variable (congruence : Congruence p p' R) {call : Caller η ν} {call' : Caller η' ν}
  (hcall : ∀ node args, R _ (call node args) (call' node args))

include congruence hcall

theorem evalNode (node : NodeId) : R _ (call.evalNode p node) (call'.evalNode p' node) := by
  refine congruence.bind (congruence.onSpace _) fun object => ?_
  cases object
  case method flags body =>
    dsimp only
    split
    · exact hcall node []
    · exact congruence.pure _
  case name value => exact congruence.map _ (congruence.copy value)
  case field fieldUnit => exact congruence.map _ (congruence.readUnit _)
  case indexField fieldUnit => exact congruence.map _ (congruence.readUnit _)
  all_goals
    refine congruence.bind (congruence.onSpace _) fun name => ?_
    exact congruence.bind (congruence.log _) fun _ => congruence.pure _

theorem objectMatches (device : NodeId) (name : String) (id : EisaId) :
    R _ (call.objectMatches p device name id) (call'.objectMatches p' device name id) := by
  refine congruence.bind (congruence.onSpace _) fun found => ?_
  cases found with
  | none => exact congruence.pure _
  | some node =>
    refine congruence.bind (congruence.evalNode hcall node) fun result => ?_
    cases result with
    | ok value => exact congruence.bind (congruence.release value) fun _ => congruence.pure _
    | error e =>
      refine congruence.bind (congruence.onSpace _) fun called => ?_
      exact congruence.bind (congruence.log _) fun _ => congruence.pure _

theorem matchesId (device : NodeId) (id : EisaId) :
    R _ (call.matchesId p device id) (call'.matchesId p' device id) := by
  refine congruence.bind (congruence.objectMatches hcall device _ id) fun matched => ?_
  cases matched with
  | true => exact congruence.pure _
  | false => exact congruence.objectMatches hcall device _ id

theorem findDevices (id : EisaId) :
    R _ (call.findDevices p id) (call'.findDevices p' id) := by
  have keep (devices : List NodeId) :
      R _ (call.keepMatching p id devices) (call'.keepMatching p' id devices) := by
    induction devices with
    | nil => exact congruence.pure _
    | cons device rest ih =>
      refine congruence.bind (congruence.matchesId hcall device id) fun matched => ?_
      exact congruence.bind ih fun _ => congruence.pure _
  exact congruence.bind (congruence.onSpace _) keep

end Congruence
end Acpi
