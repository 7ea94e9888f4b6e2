/-
# A search ends

The methods that a search calls may do as they like, so it can only be as sure to end as
they are.  A method may count on something, such as a node that it calls itself, so the
calls are to end as long as some condition holds of the machine: one that says that the
namespace has been built, that the search does not disturb (`Machine.Footing`), and that
every call keeps (`Caller.EndsUnder`).  Nothing else stops the search: if the condition
holds at the start and the host refuses only what it may refuse, then evaluating a node
ends, and comparing a device, and the whole search (`Platform.findDevices_ends`).

The devices were there when the search began.  As no node ever goes away
(`Platform.size_le_of_caller`), they still are when it is their turn, and below the root
their two objects are found as anywhere (`Namespace.Built.resolveChild_rootedAt`).
-/

import Acpi.Proofs.Devices.Turns
import Acpi.Proofs.Storage.Willing
import Acpi.Proofs.Tree.Address
import Acpi.Proofs.Tree.Traversal

namespace Acpi

variable {η ν : Type}

open Effect Machine

/-- An object that has a value in it or no value at all: no method, no field unit. -/
def Object.IsInert : Object → Prop
  | method .. | field _ | indexField _ => False
  | _ => True

/-- The name of the object with a device's own identifier. -/
def hardwareName : Segment := ⟨0x5F, 0x48, 0x49, 0x44⟩

/-- The name of the object with identifiers of compatible devices. -/
def compatibleName : Segment := ⟨0x5F, 0x43, 0x49, 0x44⟩

/-- Both names. -/
def idNames : List Segment := [hardwareName, compatibleName]

theorem value_hardwareId : (Path.ofText hardwareId).value = hardwareName.bytes := by
  decide +kernel

theorem value_compatibleId : (Path.ofText compatibleId).value = compatibleName.bytes := by
  decide +kernel

/-- A single name leads to the first child of that name, also below another root. -/
theorem Namespace.Built.resolveChild_rootedAt {ns : Namespace} {top d : NodeId} {text : String}
    {name : Segment} (built : ns.Built) (hd : d.index < ns.size) (hle : top.index ≤ d.index)
    (htext : (Path.ofText text).value = name.bytes) :
    (ns.rootedAt top).resolveChild d text = .ok (ns.eldest d name) := by
  have hroot : top ∉ (ns.rootedAt top).childList d := fun h =>
    Nat.not_lt.2 hle (built.linked.parent_lt h)
  have hchild : (ns.rootedAt top).childNamed d name = .ok (ns.eldest d name) := by
    rw [childNamed, (built.linked.rootedAt top).children_eq hd hroot]
    rfl
  rw [resolveChild, htext, Segment.bytes, descend, hchild]
  cases ns.eldest d name <;> rfl

namespace Machine

variable {top : NodeId} {m m₁ m' : Machine η ν}

/-- The namespace of the machine has been built, and is seen from a node of it. -/
def Stands (top : NodeId) (m : Machine η ν) : Prop :=
  ∃ ns : Namespace, ns.Built ∧ top.index < ns.size ∧ m.space = ns.rootedAt top

/-- A condition on machines that a search relies on: the namespace has been built, and what
is done with values and what is recorded on the way make no difference to it. -/
structure Footing (top : NodeId) (inv : Machine η ν → Prop) : Prop where
  stands : ∀ {m}, inv m → m.Stands top
  housekeeping : ∀ {m w}, inv m → m.world.Grows Entry.Housekeeping w → inv { m with world := w }
  refusal : ∀ {m record}, inv m → record.IsRefusal → inv (m.logged record)

/-- What is said of the namespace alone is not disturbed. -/
theorem Footing.of_space (good : Namespace → Prop)
    (h : ∀ {space}, good space → ∃ ns : Namespace, ns.Built ∧ top.index < ns.size ∧
      space = ns.rootedAt top) : Footing top fun m : Machine η ν => good m.space where
  stands := h
  housekeeping hm _ := hm
  refusal hm _ := hm

/-- The condition still holds, and no node has gone away. -/
structure Outlasts (inv : Machine η ν → Prop) (m m' : Machine η ν) : Prop where
  holds : inv m'
  size_le : m.space.size ≤ m'.space.size

variable {inv : Machine η ν → Prop}

theorem Outlasts.trans (h : m.Outlasts inv m₁) (h' : m₁.Outlasts inv m') : m.Outlasts inv m' :=
  ⟨h'.holds, h.size_le.trans h'.size_le⟩

/-- What is done with values is of no concern, -/
theorem Footing.outlasts_grows (footing : Footing top inv) (hm : inv m) {w : World η ν}
    (h : m.world.Grows Entry.Housekeeping w) : m.Outlasts inv { m with world := w } :=
  ⟨footing.housekeeping hm h, Nat.le_refl _⟩

/-- and neither is a record. -/
theorem Footing.outlasts_logged (footing : Footing top inv) (hm : inv m) {record : LogRecord}
    (h : record.IsRefusal) : m.Outlasts inv (m.logged record) :=
  ⟨footing.refusal hm h, Nat.le_refl _⟩

/-- Nodes do not go away. -/
theorem size_le_tolerant {host : Host η} :
    Tolerant host (fun _ => True) fun m m' : Machine η ν => m.space.size ≤ m'.space.size where
  refl _ := Nat.le_refl _
  trans h h' := h.trans h'
  housekeeping _ := Nat.le_refl _
  refusal _ _ _ := Nat.le_refl _
  hostCall _ _ := Nat.le_refl _
  note _ _ := Nat.le_refl _
  addChild _ h := by
    rw [Namespace.size_of_addChild h]
    exact Nat.le_succ _
  setObject _ h := by
    obtain ⟨-, -, -, -, hparents⟩ := Namespace.setObject_cases h
    rw [← Namespace.length_parents, ← Namespace.length_parents, hparents]

end Machine

namespace Caller

variable {p : Platform η ν} {call : Caller η ν} {top node d : NodeId} {name : Segment}
  {text : String} {id : EisaId} {m : Machine η ν}

/-- A named value is evaluated by copying it. -/
theorem evalNode_name {v u : Value} {w : World η ν}
    (hobject : m.space.object node = .ok (.name v)) (hcopy : v.copy p.host m.world = .ok (u, w)) :
    call.evalNode p node m = .ok (.ok u, { m with world := w }) := by
  refine bind_eq_ok.2 ⟨.name v, m, onSpace_eq_ok.2 ⟨hobject, rfl⟩, ?_⟩
  exact map_eq_ok.2 ⟨u, onWorld_eq_ok.2 ⟨w, hcopy, rfl⟩, rfl⟩

/-- A method is evaluated by calling it, if it takes no arguments. -/
theorem evalNode_method {flags : MethodFlags} {body : CodeRange}
    (hobject : m.space.object node = .ok (.method flags body)) :
    call.evalNode p node m = if flags.argCount = 0 then call node [] m
      else .ok (.error (.argCount flags.argCount 0), m) := by
  simp only [evalNode, bind_apply, onSpace_apply, hobject, Except.map, Except.bind]
  split <;> rfl

/-- An inert object without a value cannot be evaluated, and there is a record of that. -/
theorem evalNode_valueless {object : Object} {called : Segment} (hinert : object.IsInert)
    (hvalue : object.value? = none) (hobject : m.space.object node = .ok object)
    (hname : m.space.name node = .ok called) :
    call.evalNode p node m =
      .ok (.error .wrongType, m.logged (.valueless called object.typeName)) := by
  refine bind_eq_ok.2 ⟨object, m, onSpace_eq_ok.2 ⟨hobject, rfl⟩, ?_⟩
  cases object with
  | name => cases hvalue
  | method | field | indexField => exact hinert.elim
  | _ =>
    exact bind_eq_ok.2 ⟨called, m, onSpace_eq_ok.2 ⟨hname, rfl⟩,
      bind_eq_ok.2 ⟨(), _, log_eq_ok.2 rfl, pure_eq_ok.2 rfl⟩⟩

/-- Where there is no object, there is nothing to compare. -/
theorem objectMatches_of_none (hchild : m.space.resolveChild d text = .ok none) :
    call.objectMatches p d text id m = .ok (false, m) :=
  bind_eq_ok.2 ⟨none, m, onSpace_eq_ok.2 ⟨hchild, rfl⟩, pure_eq_ok.2 rfl⟩

/-- A value is compared and released. -/
theorem objectMatches_of_ok {child : NodeId} {u left : Value} {m₁ : Machine η ν} {w : World η ν}
    (hchild : m.space.resolveChild d text = .ok (some child))
    (heval : call.evalNode p child m = .ok (.ok u, m₁))
    (hrelease : u.release p.host m₁.world = .ok (left, w)) :
    call.objectMatches p d text id m = .ok (u.identifies id, { m₁ with world := w }) :=
  bind_eq_ok.2 ⟨some child, m, onSpace_eq_ok.2 ⟨hchild, rfl⟩, bind_eq_ok.2 ⟨.ok u, m₁, heval,
    bind_eq_ok.2 ⟨left, _, onWorld_eq_ok.2 ⟨w, hrelease, rfl⟩, pure_eq_ok.2 rfl⟩⟩⟩

/-- An error is recorded. -/
theorem objectMatches_of_failure {child : NodeId} {e : Error} {m₁ : Machine η ν}
    {called : Segment} (hchild : m.space.resolveChild d text = .ok (some child))
    (heval : call.evalNode p child m = .ok (.error e, m₁)) (hname : m₁.space.name d = .ok called) :
    call.objectMatches p d text id m = .ok (false, m₁.logged (.unidentified text called e)) :=
  bind_eq_ok.2 ⟨some child, m, onSpace_eq_ok.2 ⟨hchild, rfl⟩, bind_eq_ok.2 ⟨.error e, m₁, heval,
    bind_eq_ok.2 ⟨called, m₁, onSpace_eq_ok.2 ⟨hname, rfl⟩,
      bind_eq_ok.2 ⟨(), _, log_eq_ok.2 rfl, pure_eq_ok.2 rfl⟩⟩⟩⟩

/-- Calls of methods that take no arguments end, and the condition still holds. -/
def EndsUnder (inv : Machine η ν → Prop) (call : Caller η ν) : Prop :=
  ∀ ⦃node m flags body⦄, inv m → m.space.object node = .ok (.method flags body) →
    flags.argCount = 0 → ∃ r m', call node [] m = .ok (r, m') ∧ m.Outlasts inv m'

theorem readUnit_ends (willing : p.host.Willing) (operand : Operand) (w : World η ν) :
    ∃ v w', readUnit p operand w = .ok (v, w') := by
  obtain ⟨held, w₁, hask⟩ :=
    willing.ask (show (HostCall.readOperand operand).Clean from trivial) w
  obtain ⟨v, w₂, hcopy⟩ := willing.copy held w₁
  obtain ⟨w', hrelease⟩ := willing.release held w₂
  exact ⟨v, w', bind_eq_ok.2 ⟨held, w₁, hask, bind_eq_ok.2 ⟨v, w₂, hcopy,
    bind_eq_ok.2 ⟨.null, w', hrelease, pure_eq_ok.2 rfl⟩⟩⟩⟩

variable {inv : Machine η ν → Prop}

/-- **Evaluating a node ends**, if calls do. -/
theorem evalNode_ends (willing : p.host.Willing) (footing : Footing top inv)
    (hcall : call.EndsUnder inv) (hm : inv m) (hnode : node.index < m.space.size) :
    ∃ r m', call.evalNode p node m = .ok (r, m') ∧ m.Outlasts inv m' := by
  obtain ⟨⟨called, object, _⟩, hn⟩ := Namespace.node_eq_ok_of_lt hnode
  have hname : m.space.name node = .ok called := by rw [Namespace.name, hn]; rfl
  have hobject : m.space.object node = .ok object := by rw [Namespace.object, hn]; rfl
  have hfetched : onSpace (·.object node) m = .ok (object, m) := onSpace_eq_ok.2 ⟨hobject, rfl⟩
  cases object with
  | method flags body =>
    rw [evalNode_method hobject]
    split
    · rename_i harity
      exact hcall hm hobject harity
    · exact ⟨_, m, rfl, hm, Nat.le_refl _⟩
  | name v =>
    obtain ⟨u, w, hcopy⟩ := willing.copy v m.world
    exact ⟨_, _, evalNode_name hobject hcopy,
      footing.outlasts_grows hm (Value.grows_of_copy v hcopy)⟩
  | field fieldUnit =>
    obtain ⟨v, w, hread⟩ := readUnit_ends willing (.field fieldUnit) m.world
    exact ⟨.ok v, { m with world := w }, bind_eq_ok.2 ⟨_, m, hfetched,
      map_eq_ok.2 ⟨v, onWorld_eq_ok.2 ⟨w, hread, rfl⟩, rfl⟩⟩,
      footing.outlasts_grows hm (grows_of_readUnit hread)⟩
  | indexField fieldUnit =>
    obtain ⟨v, w, hread⟩ := readUnit_ends willing (.indexField fieldUnit) m.world
    exact ⟨.ok v, { m with world := w }, bind_eq_ok.2 ⟨_, m, hfetched,
      map_eq_ok.2 ⟨v, onWorld_eq_ok.2 ⟨w, hread, rfl⟩, rfl⟩⟩,
      footing.outlasts_grows hm (grows_of_readUnit hread)⟩
  | _ =>
    refine ⟨_, _, evalNode_valueless ?_ rfl hobject hname, footing.outlasts_logged hm trivial⟩
    trivial

/-- **Comparing an object ends.** -/
theorem objectMatches_ends (willing : p.host.Willing) (footing : Footing top inv)
    (hcall : call.EndsUnder inv) (hm : inv m) (hd : d.index < m.space.size)
    (hle : top.index ≤ d.index) (htext : (Path.ofText text).value = name.bytes) :
    ∃ b m', call.objectMatches p d text id m = .ok (b, m') ∧ m.Outlasts inv m' := by
  obtain ⟨ns, built, htop, hspace⟩ := footing.stands hm
  have hchild : m.space.resolveChild d text = .ok (ns.eldest d name) := by
    rw [hspace] at hd ⊢
    exact built.resolveChild_rootedAt hd hle htext
  cases heldest : ns.eldest d name with
  | none =>
    rw [heldest] at hchild
    exact ⟨false, m, objectMatches_of_none hchild, hm, Nat.le_refl _⟩
  | some child =>
    rw [heldest] at hchild
    have hnode : child.index < m.space.size := by
      rw [hspace]
      exact Namespace.lt_size_of_mem_childList (Namespace.mem_childList_of_eldest heldest)
    obtain ⟨r, m₁, heval, houtlasts⟩ := evalNode_ends willing footing hcall hm hnode
    cases r with
    | ok u =>
      obtain ⟨w, hrelease⟩ := willing.release u m₁.world
      exact ⟨_, _, objectMatches_of_ok hchild heval hrelease, houtlasts.trans
        (footing.outlasts_grows houtlasts.holds (Value.grows_of_release u hrelease))⟩
    | error e =>
      obtain ⟨called, hcalled⟩ := Namespace.name_eq_ok_of_lt (hd.trans_le houtlasts.size_le)
      exact ⟨_, _, objectMatches_of_failure hchild heval hcalled,
        houtlasts.trans (footing.outlasts_logged houtlasts.holds trivial)⟩

theorem matchesId_ends (willing : p.host.Willing) (footing : Footing top inv)
    (hcall : call.EndsUnder inv) (hm : inv m) (hd : d.index < m.space.size)
    (hle : top.index ≤ d.index) :
    ∃ b m', call.matchesId p d id m = .ok (b, m') ∧ m.Outlasts inv m' := by
  obtain ⟨first, m₁, hfirst, houtlasts⟩ : ∃ first m₁,
      call.objectMatches p d hardwareId id m = .ok (first, m₁) ∧ m.Outlasts inv m₁ :=
    objectMatches_ends willing footing hcall hm hd hle value_hardwareId
  cases first with
  | true => exact ⟨true, m₁, matchesId_eq_ok.2 (.inl ⟨rfl, hfirst⟩), houtlasts⟩
  | false =>
    obtain ⟨b, m', hsecond, houtlasts'⟩ : ∃ b m',
        call.objectMatches p d compatibleId id m₁ = .ok (b, m') ∧ m₁.Outlasts inv m' :=
      objectMatches_ends willing footing hcall houtlasts.holds (hd.trans_le houtlasts.size_le) hle
        value_compatibleId
    exact ⟨b, m', matchesId_eq_ok.2 (.inr ⟨m₁, hfirst, hsecond⟩), houtlasts.trans houtlasts'⟩

/-- **Going through the devices ends**, by induction on the devices. -/
theorem keepMatching_ends (willing : p.host.Willing) (footing : Footing top inv)
    (hcall : call.EndsUnder inv) (hm : inv m) {devices : List NodeId}
    (hdevices : ∀ d ∈ devices, d.index < m.space.size ∧ top.index ≤ d.index) :
    ∃ found m', call.keepMatching p id devices m = .ok (found, m') ∧ inv m' := by
  induction devices generalizing m with
  | nil => exact ⟨[], m, keepMatching_nil_eq_ok.2 ⟨rfl, rfl⟩, hm⟩
  | cons d devices ih =>
    obtain ⟨⟨hd, hle⟩, hdevices⟩ := List.forall_mem_cons.1 hdevices
    obtain ⟨b, m₁, hmatches, houtlasts⟩ := matchesId_ends willing footing hcall hm hd hle
    obtain ⟨others, m', hrest, hm'⟩ := ih houtlasts.holds fun d' hd' =>
      ⟨(hdevices d' hd').1.trans_le houtlasts.size_le, (hdevices d' hd').2⟩
    exact ⟨_, m', keepMatching_cons_eq_ok.2 ⟨b, m₁, others, hmatches, hrest, rfl⟩, hm'⟩

end Caller

namespace Platform

variable {p : Platform η ν} {top : NodeId} {m m' : Machine η ν}

theorem size_le_of_caller (node : NodeId) (args : List Value) :
    Keeps (fun m m' => m.space.size ≤ m'.space.size) (p.caller node args) :=
  size_le_tolerant.caller_keeps_of_space (S := fun ns ns' => ns.size ≤ ns'.size)
    (fun _ => Body.uses_of_forall (fun _ => trivial) _) node args

/-- **A search ends** if the calls of methods do, and what they count on still holds. -/
theorem findDevices_ends {inv : Machine η ν → Prop} (willing : p.host.Willing)
    (footing : Footing top inv)
    (hcall : ∀ ⦃node m flags body⦄, inv m → m.space.object node = .ok (.method flags body) →
      flags.argCount = 0 → ∃ r m', p.evalMethod node [] m = .ok (r, m') ∧ inv m')
    (hm : inv m) (id : EisaId) :
    ∃ found m', p.findDevices id m = .ok (found, m') ∧ inv m' := by
  have hends : p.caller.EndsUnder inv := fun node m flags body hm hobject harity => by
    obtain ⟨r, m', h, hm'⟩ := hcall hm hobject harity
    exact ⟨r, m', h, hm', size_le_of_caller node [] h⟩
  obtain ⟨ns, built, htop, hspace⟩ := footing.stands hm
  have hwalk : m.space.walk = .ok (ns.below top) := by
    rw [hspace, built.walk_rootedAt htop]
  have hdevices : ∀ d ∈ (ns.below top).filter m.space.isDevice,
      d.index < m.space.size ∧ top.index ≤ d.index := fun d hd => by
    have hbelow := List.mem_of_mem_filter hd
    rw [hspace]
    exact ⟨built.lt_size_of_mem_below hbelow,
      Nat.le_of_lt (built.lt_of_mem_below hbelow)⟩
  obtain ⟨found, m', hkeep, hm'⟩ : ∃ found m', p.caller.keepMatching p id
      ((ns.below top).filter m.space.isDevice) m = .ok (found, m') ∧ inv m' :=
    Caller.keepMatching_ends willing footing hends hm hdevices
  exact ⟨found, m', Caller.findDevices_eq_ok.2 ⟨ns.below top, hwalk, hkeep⟩, hm'⟩

end Platform
end Acpi
