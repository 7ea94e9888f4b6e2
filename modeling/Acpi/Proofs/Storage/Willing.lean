/-
# Hosts that refuse nothing they should take

A host may refuse a call that breaks the contract.  One that answers every call which
does not (`Host.Willing`) never stops the interpreter at work on values and contexts:
whatever is copied, released, set up or handed back, it is done.
-/

import Acpi.Bench.CountingHost
import Acpi.Proofs.Evaluation
import Acpi.Proofs.Storage.Orders
import Acpi.Proofs.Twin.Likeness

namespace Acpi

variable {η ν : Type}

open Effect

/-- A host that answers every call that gives back nothing but what is empty. -/
def Host.Willing (host : Host η) : Prop :=
  ∀ (call : HostCall) (state : η), call.Clean →
    ∃ answer state', host call state = .ok (answer, state')

/-- The host that counts refuses only elements that still hold something. -/
theorem willing_countingHost : countingHost.Willing := by
  intro call c hclean
  cases call with
  | freeElements elements =>
    refine ⟨(), { c with frees := c.frees + 1 }, if_pos (List.all_eq_true.2 fun v hv => ?_)⟩
    exact (Value.isNull_iff v).2 (hclean v hv)
  | readOperand operand => cases operand <;> exact ⟨_, _, rfl⟩
  | _ => exact ⟨_, _, rfl⟩

theorem HostCall.GivesBack.clean {call : HostCall} (h : call.GivesBack) : call.Clean := by
  cases call <;> first | exact h | exact h.elim

theorem HostCall.Supplies.clean {call : HostCall} (h : call.Supplies) : call.Clean := by
  cases call <;> first | exact trivial | exact h.elim

namespace Host.Willing

variable {host : Host η} (willing : host.Willing)
include willing

theorem ask {call : HostCall} (h : call.Clean) (w : World η ν) :
    ∃ answer w', host.ask call w = .ok (answer, w') := by
  obtain ⟨answer, state, hstate⟩ := willing call w.host h
  exact ⟨answer, _, Host.ask_eq_ok.2 ⟨state, hstate, rfl⟩⟩

theorem askAll {calls : List HostCall} (h : ∀ call ∈ calls, call.Clean) (w : World η ν) :
    ∃ exchanges w', host.askAll calls w = .ok (exchanges, w') := by
  induction calls generalizing w with
  | nil => exact ⟨[], w, pure_eq_ok.2 rfl⟩
  | cons call calls ih =>
    obtain ⟨hcall, hcalls⟩ := List.forall_mem_cons.1 h
    obtain ⟨answer, w₁, hask⟩ := willing.ask hcall w
    obtain ⟨rest, w', hrest⟩ := ih hcalls w₁
    exact ⟨⟨call, answer⟩ :: rest, w',
      bind_eq_ok.2 ⟨answer, w₁, hask, bind_eq_ok.2 ⟨rest, w', hrest, pure_eq_ok.2 rfl⟩⟩⟩

theorem release (v : Value) (w : World η ν) : ∃ w', v.release host w = .ok (.null, w') := by
  obtain ⟨exchanges, w', h⟩ := willing.askAll
    (fun call hcall => (v.givesBack_of_mem_releaseCalls call hcall).clean) w
  rw [Value.release_eq]
  exact ⟨w', map_eq_ok.2 ⟨exchanges, h, rfl⟩⟩

theorem copy (v : Value) (w : World η ν) : ∃ u w', v.copy host w = .ok (u, w') := by
  obtain ⟨exchanges, w', h⟩ := willing.askAll
    (fun call hcall => (v.supplies_of_mem_copyCalls call hcall).clean) w
  rw [Value.copy_eq]
  exact ⟨_, w', map_eq_ok.2 ⟨exchanges, h, rfl⟩⟩

theorem overwrite (old source : Value) (w : World η ν) :
    ∃ u w', old.overwrite host source w = .ok (u, w') := by
  obtain ⟨w₁, hrelease⟩ := willing.release old w
  obtain ⟨u, w', hcopy⟩ := willing.copy source w₁
  exact ⟨u, w', Value.overwrite_eq_ok.2 ⟨.null, w₁, hrelease, hcopy⟩⟩

theorem releaseAll (vs : List Value) (w : World η ν) :
    ∃ w', Value.releaseAll host vs w = .ok (List.replicate vs.length .null, w') := by
  obtain ⟨exchanges, w', h⟩ := willing.askAll
    (fun call hcall => (Value.givesBack_of_mem_releaseCallsAll vs call hcall).clean) w
  rw [Value.releaseAll_eq]
  exact ⟨w', map_eq_ok.2 ⟨exchanges, h, rfl⟩⟩

/-! ### Contexts -/

theorem copyInto (ctx : Context) {slot : Slot} {i : Fin 16} (hslot : slot.cell? = some i)
    (v : Value) (w : World η ν) : ∃ ctx' w', ctx.copyInto host slot v w = .ok (ctx', w') := by
  obtain ⟨u, w', hover⟩ := willing.overwrite ctx.cells[i] v w
  refine ⟨{ ctx with cells := ctx.cells.set i u }, w',
    Context.copyInto_eq_ok.2 ⟨ctx.cells[i], u, ?_, hover, ?_⟩⟩
  · simp only [Context.get, hslot]
  · simp only [Context.set, hslot]

/-- There are slots for as many arguments as a method can declare. -/
theorem bindArgs (ctx : Context) {first : Nat} {args : List Value}
    (hbound : first + args.length ≤ maxArgs) (w : World η ν) :
    ∃ ctx' w', ctx.bindArgs host first args w = .ok (ctx', w') := by
  induction args generalizing ctx first w with
  | nil => exact ⟨ctx, w, pure_eq_ok.2 rfl⟩
  | cons arg rest ih =>
    rw [List.length_cons] at hbound
    have hfirst : (UInt8.ofNat first).toNat < maxArgs := by
      rw [Slot.toNat_ofNat (by omega)]
      omega
    have hslot : (Slot.arg (UInt8.ofNat first)).cell? =
        some ⟨(UInt8.ofNat first).toNat, Nat.lt_trans hfirst (by decide)⟩ := dif_pos hfirst
    obtain ⟨ctx₁, w₁, hcopy⟩ := willing.copyInto ctx hslot arg w
    obtain ⟨ctx', w', hrest⟩ := ih ctx₁ (show first + 1 + rest.length ≤ maxArgs by omega) w₁
    exact ⟨ctx', w', Context.bindArgs_cons_eq_ok.2 ⟨ctx₁, w₁, hcopy, hrest⟩⟩

/-- A context can be cleaned, and is empty then. -/
theorem clean (ctx : Context) (w : World η ν) :
    ∃ cleaned w', ctx.clean host w = .ok (cleaned, w') ∧ cleaned.IsEmpty := by
  obtain ⟨w', hall⟩ := willing.releaseAll ctx.cells.toList w
  rw [Vector.length_toList, ← Vector.toList_replicate] at hall
  refine ⟨{ ctx with cells := Vector.replicate 16 .null }, w',
    Context.clean_eq_ok.2 ⟨rfl, hall⟩, fun v hv => ?_⟩
  rw [Vector.toList_replicate] at hv
  exact List.eq_of_mem_replicate hv

end Host.Willing

namespace Host.Willing

variable {p : Platform η ν} (willing : p.host.Willing)
include willing

/-- A context can be set up for as many arguments as the method declares. -/
theorem enter {flags : MethodFlags} {args : List Value}
    (hcount : args.length = flags.argCount.toNat) (node : NodeId) (body : CodeRange)
    (w : World η ν) : ∃ ctx w', p.enter node flags body args w = .ok (ctx, w') := by
  obtain ⟨given, state, hgiven⟩ := willing .allocContext w.host trivial
  have hbound : 0 + args.length ≤ maxArgs := by
    have := flags.argCount_lt
    rw [maxArgs]
    omega
  obtain ⟨ctx, w', hbind⟩ := willing.bindArgs
    { given with argCount := flags.argCount, scope := node, body } hbound
    (w.called .allocContext state)
  exact ⟨ctx, w', Platform.enter_eq_ok.2 ⟨given, state, hgiven, hbind⟩⟩

/-- A context can be cleaned and then given to the host. -/
theorem clean_free (ctx : Context) (w : World η ν) :
    ∃ cleaned w₁ w', ctx.clean p.host w = .ok (cleaned, w₁) ∧
      p.host.ask (.freeContext cleaned) w₁ = .ok ((), w') := by
  obtain ⟨cleaned, w₁, hclean, hempty⟩ := willing.clean ctx w
  obtain ⟨_, w', hfree⟩ := willing.ask (show (HostCall.freeContext cleaned).Clean from hempty) w₁
  exact ⟨cleaned, w₁, w', hclean, hfree⟩

/-- The context of a body that has failed can be handed back. -/
theorem leave (e : Error) (ctx : Context) (w : World η ν) :
    ∃ w', p.leave (.error e) ctx w = .ok (.error e, w') := by
  obtain ⟨cleaned, w₁, w', hclean, hfree⟩ := willing.clean_free ctx w
  refine ⟨w', ?_⟩
  rw [Platform.leave, pure_bind]
  exact bind_eq_ok.2 ⟨cleaned, w₁, hclean, bind_eq_ok.2 ⟨(), w', hfree, pure_eq_ok.2 rfl⟩⟩

/-- However a body has ended, its context can be handed back. -/
theorem leave_ends (status : Except Error Unit) (ctx : Context) (w : World η ν) :
    ∃ r w', p.leave status ctx w = .ok (r, w') := by
  cases status with
  | error e =>
    obtain ⟨w', hleave⟩ := willing.leave e ctx w
    exact ⟨.error e, w', hleave⟩
  | ok u =>
    have hret : ctx.get .ret = .ok (ctx.cells.get 15) := Context.get_of_cell? rfl ctx
    obtain ⟨v, w₁, hcopy⟩ := willing.copy (ctx.cells.get 15) w
    obtain ⟨cleaned, w₂, w', hclean, hfree⟩ := willing.clean_free ctx w₁
    refine ⟨.ok v, w', ?_⟩
    simp only [Platform.leave, hret, lift_ok_bind]
    exact bind_eq_ok.2 ⟨.ok v, w₁, map_eq_ok.2 ⟨v, hcopy, rfl⟩, bind_eq_ok.2 ⟨cleaned, w₂, hclean,
      bind_eq_ok.2 ⟨(), w', hfree, pure_eq_ok.2 rfl⟩⟩⟩

end Host.Willing
end Acpi
