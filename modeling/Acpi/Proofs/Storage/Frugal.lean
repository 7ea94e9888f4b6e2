/-
# Frugal bodies

A body owns the values that it was given to keep: copies that it has made and
values of evaluations.  A frugal body asks only for

| request | what it does to the values held |
| --- | --- |
| releasing a value | gives it up |
| copying over a value | gives the old one up for the copy |
| putting a value into a slot | gives it up |
| adding a node with a named value | gives it up |
| a call, or the value of a node | takes the value over |

and for what concerns no storage of its own: copying slots, comparing devices,
looking at the context, the namespace, the depth and the journal, and leaving
notes.  Values without storage are made on the spot, and need not be held.  When
a frugal body ends, with a result or with an error, it holds no storage.

This is asked of the runs of a body, from the machines where it may start, and not of
answers that it never gets: who knows that a call cannot succeed may drop its result.
What is known of a machine is known of its namespace, and has to last while nodes are
added and named values are released, as nothing else changes it (`Namespace.Lasting`).
-/

import Acpi.Machine.Eval
import Acpi.Proofs.Storage.Count

namespace Acpi

variable {η ν α : Type}

namespace Request

/-- Whether a body that holds the values may make a request and stay frugal. -/
def Owned (held : List Value) : Request ν → Prop
  | store _ v | release v | overwrite v _ | addChild _ _ (.name v) => v ∈ held ∨ v.storage = 0
  | context | space | history | depth | limit | note _ | copySlot .. | addChild .. => True
  | evalMethod .. | evalNode _ | matchesId .. | findDevices _ => True
  | poke .. | setObject .. | host _ => False

/-- What the body holds after the answer to a request. -/
def heldAfter (held : List Value) : (r : Request ν) → r.Answer → List Value
  | store _ v, _ | release v, _ | addChild _ _ (.name v), _ => held.erase v
  | overwrite old _, copy => copy :: held.erase old
  | evalMethod _ _, .ok v | evalNode _, .ok v => v :: held
  | _, _ => held

theorem heldAfter_evalMethod (held : List Value) (node : NodeId) (args : List Value)
    (r : Except Error Value) :
    heldAfter held (evalMethod node args : Request ν) r = r.toOption.toList ++ held := by
  cases r <;> rfl

theorem heldAfter_evalNode (held : List Value) (node : NodeId) (r : Except Error Value) :
    heldAfter held (evalNode node : Request ν) r = r.toOption.toList ++ held := by
  cases r <;> rfl

end Request

/-- Whether a body that holds the values goes on frugally from here: it is asked of the
answers that it can get. -/
def Body.Frugal (p : Platform η ν) (call : Caller η ν) (held : List Value) :
    Body ν α → Context → Machine η ν → Prop
  | done _, _, _ | fail _, _, _ => Value.storageAll held = 0
  | fault _, _, _ => True
  | ask r next, ctx, m => r.Owned held ∧ ∀ answer ctx' m',
      r.perform p call ctx m = .ok ((answer, ctx'), m') →
        (next answer).Frugal p call (r.heldAfter held answer) ctx' m'

/-- What is true of a namespace stays true while nodes are added and named values are
released. -/
structure Namespace.Lasting (good : Namespace → Prop) : Prop where
  addChild : ∀ {ns ns' parent name object id}, good ns →
    ns.addChild parent name object = .ok (id, ns') → good ns'
  release : ∀ {ns ns' node value}, good ns → ns.object node = .ok (.name value) →
    ns.setObject node (.name .null) = .ok ns' → good ns'

/-- Bodies that are frugal wherever they start in a good namespace, with however many
levels left for their calls. -/
def Platform.Frugal (p : Platform η ν) (good : Namespace → Prop) : Prop :=
  ∀ room ctx m, good m.space → (p.executor ctx).Frugal p (p.callWithin room) [] ctx m

/-- A body that keeps a package, calls its own method again, and returns what
that has returned, or the package once the limit is reached. -/
def keeper (ctx : Context) : Body Unit Unit := do
  let package ← Body.request (.overwrite .null (.package [.buffer [1, 2, 3]]))
  Body.request (.store (.loc 0) package)
  match ← Body.request (.evalMethod ctx.scope []) with
  | .ok value => Body.request (.store .ret value)
  | .error _ => Body.request (.copySlot .ret (.loc 0))

/-- The method of `keeper` below the root. -/
def keeperSpace : Namespace :=
  ⟨#[⟨Segment.root, .scope, none, some ⟨1⟩, some ⟨1⟩, none⟩,
    ⟨⟨0x4B, 0x45, 0x45, 0x50⟩, .plainMethod 0 ⟨0, 0⟩, some ⟨0⟩, none, none, none⟩], NodeId.first⟩

/-- That body is frugal wherever it starts. -/
theorem frugal_keeper (p : Platform η Unit) (call : Caller η Unit) (site ctx : Context)
    (m : Machine η Unit) : (keeper site).Frugal p call [] ctx m := by
  refine ⟨.inr Value.storage_null, fun package _ _ _ => ⟨.inl (List.mem_cons_self ..),
    fun _ _ _ _ => ⟨trivial, fun result _ _ _ => ?_⟩⟩⟩
  cases result with
  | ok value =>
    refine ⟨.inl (List.mem_cons_self ..), fun _ _ _ _ => ?_⟩
    simp [Body.Frugal, Request.heldAfter, Value.storageAll]
  | error e =>
    refine ⟨trivial, fun _ _ _ _ => ?_⟩
    simp [Body.Frugal, Request.heldAfter, Value.storageAll]

end Acpi
