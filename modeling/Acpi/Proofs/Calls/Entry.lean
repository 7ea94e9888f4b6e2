/-
# Where bodies start

A body starts on the context that its call has set up.  If all contexts that are
set up are of one kind (`Platform.EntersOn`), bodies for contexts of other kinds
are never run: exchanging them changes no call, at any level of nesting
(`Platform.callWithin_congr`), and no evaluation.
-/

import Acpi.Proofs.Calls.Agreement
import Acpi.Proofs.Calls.Discipline

namespace Acpi

variable {η ν α : Type}

open Effect Machine

/-- All contexts that are set up for a call with the right number of arguments are of
a kind. -/
def Platform.EntersOn (p : Platform η ν) (kind : Context → Prop) : Prop :=
  ∀ ⦃node flags body args w ctx w'⦄, args.length = flags.argCount.toNat →
    p.enter node flags body args w = .ok (ctx, w') → kind ctx

section

variable {p : Platform η ν} {executor : Context → Body ν Unit} {kind : Context → Prop}
  {call : Caller η ν}

/-- A body itself runs no other bodies than its caller does. -/
theorem Body.run_congr (body : Body ν α) (ctx : Context) :
    body.run { p with executor } call ctx = body.run p call ctx := by
  -- any machine will do
  have tolerant : Tolerant p.host (fun _ => True) fun _ _ : Machine η ν => True → True :=
    ⟨⟨fun _ => id, fun _ _ => id⟩, fun _ => id, fun _ _ _ => id, fun _ _ => id, fun _ _ => id,
      fun _ _ => id, fun _ _ => id⟩
  funext m
  exact (Body.run_agrees tolerant (fun _ _ _ _ _ _ => id) (fun _ _ _ _ => rfl) body ctx
    trivial).symm

namespace Platform

variable (henters : p.EntersOn kind) (h : ∀ ctx, kind ctx → executor ctx = p.executor ctx)

include henters h

theorem invoke_congr {node : NodeId} {flags : MethodFlags} {body : CodeRange}
    {args : List Value} (hcount : args.length = flags.argCount.toNat) :
    { p with executor }.invoke call node flags body args = p.invoke call node flags body args := by
  funext m
  unfold invoke
  refine bind_congr_of_ok rfl fun ctx t hctx => ?_
  obtain ⟨w, henter, rfl⟩ := onWorld_eq_ok.1 hctx
  have hbody : executor ctx = p.executor ctx := h ctx (henters hcount henter)
  simp only [hbody, Body.run_congr]
  rfl

/-- **Calls run bodies of one kind of contexts only**, by induction on the levels that
are left. -/
theorem callWithin_congr (room : Nat) :
    { p with executor }.callWithin room = p.callWithin room := by
  funext node args m
  induction room generalizing node args m with
  | zero =>
    rw [callWithin.eq_def, callWithin.eq_def]
    rfl
  | succ room ih =>
    rw [callWithin.eq_def, callWithin.eq_def]
    refine bind_congr_of_ok rfl fun admitted t hpermit => ?_
    rcases permit_cases hpermit with ⟨flags, body, rfl, -, hcount, -, rfl⟩ | ⟨e, rfl, -⟩
    · have hcall : { p with executor }.callWithin room = p.callWithin room :=
        funext fun node => funext fun args => funext fun m => ih node args m
      dsimp only
      rw [hcall, invoke_congr henters h hcount]
    · rfl

theorem caller_congr : { p with executor }.caller = p.caller := by
  funext node args
  simp only [caller, callWithin_congr henters h]

theorem evaluate_congr (e : Evaluation) : { p with executor }.evaluate e = p.evaluate e := by
  have hcaller := caller_congr henters h
  cases e with
  | method node args => exact congrFun (congrFun hcaller node) args
  | node node => exact congrArg (fun call : Caller η ν => call.evalNode p node) hcaller

end Platform

end
end Acpi
