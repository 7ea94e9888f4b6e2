/-
# Embeddings

Whatever uses an interpreter from outside makes the same requests as a method
body, and works with what it finds like a body.  It may also give the interpreter up
and go on with another one over the namespace and the host that are left.
-/

import Acpi.Machine.Eval
import Acpi.Machine.Shutdown

namespace Acpi

/-- What an embedding does with one interpreter after another. -/
inductive Embedding (ν α : Type)
  /-- The requests made of the last interpreter. -/
  | last (body : Body ν α)
  /-- The requests made of an interpreter that is then given up for another one. -/
  | renew (body : Body ν α) (next : Except Error α → Embedding ν α)

namespace Embedding

variable {η ν α : Type}

open Machine

/-- Runs an embedding that has a context of its own. -/
def run (p : Platform η ν) :
    Embedding ν α → Context → MachineM η ν (Except Error α × Context)
  | last body, ctx => body.run p p.caller ctx
  | renew body next, ctx => do
    let (result, ctx) ← body.run p p.caller ctx
    p.shutdown
    modify fun m => { m with depth := 0 }
    (next result).run p ctx

/-- A condition on all requests of an embedding. -/
def All (condition : Body ν α → Prop) : Embedding ν α → Prop
  | last body => condition body
  | renew body next => condition body ∧ ∀ result, (next result).All condition

theorem All.mono {condition condition' : Body ν α → Prop} {e : Embedding ν α}
    (he : e.All condition) (h : ∀ body, condition body → condition' body) :
    e.All condition' := by
  induction e with
  | last body => exact h body he
  | renew body next ih => exact ⟨h body he.1, fun result => ih result (he.2 result)⟩

theorem all_of_forall {condition : Body ν α → Prop} (h : ∀ body, condition body)
    (e : Embedding ν α) : e.All condition := by
  induction e with
  | last body => exact h body
  | renew body next ih => exact ⟨h body, ih⟩

end Embedding
end Acpi
