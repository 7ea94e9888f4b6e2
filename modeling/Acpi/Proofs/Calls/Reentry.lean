/-
# Calls within calls

Calls are defined by the levels that are left, and a body gets a caller with one level
less (`Platform.callWithin`).  For the body this makes no difference: it runs one level
deeper, its requests lead back to that depth, and there the caller that it gets does what
a call from outside does (`Platform.invoke_caller`).  So a call is what its admission says,
and an admitted one runs a body that makes calls of the very same kind
(`Platform.evalMethod_eq`).  What is said of calls in every state is thereby said of the
calls at every level of nesting.
-/

import Acpi.Proofs.Calls.Agreement
import Acpi.Proofs.Calls.Nesting

namespace Acpi

variable {η ν α : Type}

open Effect Machine

namespace Platform

/-- **Calls lead back to the depth from which they were made.** -/
theorem depth_of_evalMethod {p : Platform η ν} {node : NodeId} {args : List Value}
    {m m' : Machine η ν} {r : Except Error Value}
    (h : p.evalMethod node args m = .ok (r, m')) : m'.depth = m.depth :=
  (caller_nests (fun _ => Body.uses_asksHost_true _) node args h).depth

/-- What leads back to the depth from which it started leads back to any one depth. -/
theorem tolerant_depth {host : Host η} (depth : Nat) :
    Tolerant host (fun _ => True)
      fun m m' : Machine η ν => m.depth = depth → m'.depth = depth where
  refl _ := id
  trans h h' := h' ∘ h
  housekeeping _ := id
  refusal _ _ _ := id
  hostCall _ _ := id
  note _ _ := id
  addChild _ _ := id
  setObject _ _ := id

variable (p : Platform η ν)

/-- At one depth a caller with the levels that are left there is the one from outside. -/
theorem callWithin_agrees (depth : Nat) (node : NodeId) (args : List Value) :
    Agrees (fun m => m.depth = depth) (p.callWithin (p.maxCallDepth.toNat - depth) node args)
      (p.evalMethod node args) := by
  rintro m rfl
  rfl

/-- A body gets as a caller what amounts to calls from outside. -/
theorem invoke_caller (node : NodeId) (flags : MethodFlags) (body : CodeRange)
    (args : List Value) (m : Machine η ν) :
    p.invoke (p.callWithin (p.maxCallDepth.toNat - (m.depth + 1))) node flags body args m =
      p.invoke p.evalMethod node flags body args m := by
  unfold invoke
  refine bind_congr_of_ok rfl fun ctx t hctx => ?_
  obtain ⟨w, -, rfl⟩ := onWorld_eq_ok.1 hctx
  refine bind_congr_of_ok rfl fun name t hname => ?_
  obtain ⟨-, rfl⟩ := onSpace_eq_ok.1 hname
  refine bind_congr_of_ok rfl fun m₁ t hget => ?_
  obtain ⟨rfl, rfl⟩ := Prod.mk.inj (get_eq_ok.1 hget)
  refine bind_congr_of_ok rfl fun _ t hlog => ?_
  obtain ⟨-, rfl⟩ := Prod.mk.inj (log_eq_ok.1 hlog)
  refine bind_congr_of_ok rfl fun _ t hdeeper => ?_
  obtain ⟨-, rfl⟩ := Prod.mk.inj (modify_eq_ok.1 hdeeper)
  refine bind_congr_of_ok ?_ fun _ _ _ => rfl
  have hkeeps (node : NodeId) (args : List Value) :
      Keeps (fun t t' => t.depth = m.depth + 1 → t'.depth = m.depth + 1) (p.evalMethod node args) :=
    fun _ _ _ h ht => (depth_of_evalMethod h).trans ht
  have hagrees : Agrees (fun t => t.depth = m.depth + 1)
      ((p.executor ctx).run p p.evalMethod ctx)
      ((p.executor ctx).run p (p.callWithin (p.maxCallDepth.toNat - (m.depth + 1))) ctx) :=
    Body.run_agrees (tolerant_depth _) hkeeps
      (fun node args _ ht => (p.callWithin_agrees _ node args ht).symm) _ ctx
  exact (hagrees rfl).symm

/-- **What a call is**: it is decided whether it is admitted, and an admitted call runs a
body that makes such calls. -/
theorem evalMethod_eq (node : NodeId) (args : List Value) :
    p.evalMethod node args = (do
      match ← p.permit node args with
      | .error e => return .error e
      | .ok (flags, body) => p.invoke p.evalMethod node flags body args) := by
  funext m
  show p.callWithin (p.maxCallDepth.toNat - m.depth) node args m = _
  rw [callWithin.eq_def]
  refine bind_congr_of_ok rfl fun admitted t hpermit => ?_
  rcases permit_cases hpermit with ⟨flags, body, rfl, -, -, hdepth, rfl⟩ | ⟨e, rfl, -⟩
  · have hroom : p.maxCallDepth.toNat - t.depth = p.maxCallDepth.toNat - (t.depth + 1) + 1 := by
      omega
    simp only [hroom]
    exact p.invoke_caller node flags body args t
  · rfl

end Platform
end Acpi
