/-
# References to buffer fields

A value can refer to a buffer field, itself or in an element at any depth.  A copy
never does: where its source refers to a field, the copy holds the integer that was
read there (`Value.hasReference_of_copy`).  So values that have been bound to
arguments are free of references (`Context.bindArgs_get`).
-/

import Acpi.Proofs.Storage.Slots
import Acpi.Proofs.Storage.Transfer

namespace Acpi

variable {η ν : Type} {host : Host η}

open Effect

namespace Value

mutual

/-- Whether a reference to a buffer field is somewhere in a value. -/
def hasReference : Value → Bool
  | bufferField _ => true
  | package elements => anyReference elements
  | null | integer _ | string _ | buffer _ => false

/-- Whether a reference to a buffer field is somewhere in one of the values. -/
def anyReference : List Value → Bool
  | [] => false
  | v :: vs => hasReference v || anyReference vs

end

mutual

/-- **A copy refers to nothing.** -/
theorem hasReference_of_copy : (v : Value) → {w w' : World η ν} → {u : Value} →
    copy host v w = .ok (u, w') → u.hasReference = false
  | null, w, w', u, h | integer _, w, w', u, h | string _, w, w', u, h => by
    obtain ⟨rfl, rfl⟩ := Prod.mk.inj (pure_eq_ok.1 (by simpa only [copy] using h))
    rfl
  | buffer _, w, w', u, h => by
    obtain ⟨_, state, -, rfl, -⟩ := copy_buffer_eq_ok.1 h
    rfl
  | bufferField _, w, w', u, h => by
    obtain ⟨_, state, -, rfl, -⟩ := copy_bufferField_eq_ok.1 h
    rfl
  | package elements, w, w', u, h => by
    obtain ⟨_, state, copies, -, hall, rfl⟩ := copy_package_eq_ok.1 h
    exact anyReference_of_copyAll elements hall

theorem anyReference_of_copyAll : (vs : List Value) → {w w' : World η ν} → {us : List Value} →
    copyAll host vs w = .ok (us, w') → anyReference us = false
  | [], w, w', us, h => by
    obtain ⟨rfl, -⟩ := copyAll_nil_eq_ok.1 h
    rfl
  | v :: vs, w, w', us, h => by
    obtain ⟨u, rest, w₁, hv, hvs, rfl⟩ := copyAll_cons_eq_ok.1 h
    rw [anyReference, hasReference_of_copy v hv, anyReference_of_copyAll vs hvs, Bool.or_self]

end

end Value

namespace Context

variable {ctx ctx' : Context} {w w' : World η ν} {slot : Slot} {v : Value}

theorem hasReference_of_copyInto (h : ctx.copyInto host slot v w = .ok (ctx', w')) :
    ∃ u, ctx'.get slot = .ok u ∧ u.hasReference = false := by
  obtain ⟨old, u, -, hover, hset⟩ := copyInto_eq_ok.1 h
  obtain ⟨left, w₁, -, hcopy⟩ := Value.overwrite_eq_ok.1 hover
  exact ⟨u, get_of_set hset, Value.hasReference_of_copy v hcopy⟩

/-- An argument slot that holds a value without references. -/
def PlainArg (ctx : Context) (i : UInt8) : Prop :=
  ∃ v, ctx.get (.arg i) = .ok v ∧ v.hasReference = false

/-- **Bound arguments refer to nothing**, and the slots behind them are as they were. -/
theorem bindArgs_get {first : Nat} {args : List Value} (hbound : first + args.length ≤ maxArgs)
    (h : ctx.bindArgs host first args w = .ok (ctx', w')) :
    (∀ i : UInt8, first ≤ i.toNat → i.toNat < first + args.length → ctx'.PlainArg i) ∧
      ∀ i : UInt8, i.toNat < first ∨ first + args.length ≤ i.toNat →
        ctx'.get (.arg i) = ctx.get (.arg i) := by
  refine ⟨?_, fun i hi => get_of_bindArgs_of_ne h fun k hk he => ?_⟩
  · induction args generalizing ctx w first with
    | nil =>
      intro i hfirst hlast
      rw [List.length_nil] at hlast
      omega
    | cons arg rest ih =>
      intro i hge hlt
      obtain ⟨ctx₁, w₁, hcopy, hrest⟩ := bindArgs_cons_eq_ok.1 h
      rw [List.length_cons] at hbound hlt
      have hfirst := Slot.toNat_ofNat (show first < maxArgs by omega)
      by_cases hi : i.toNat = first
      · obtain rfl : i = UInt8.ofNat first := UInt8.toNat_inj.1 (hi.trans hfirst.symm)
        rw [PlainArg, get_of_bindArgs_of_ne hrest fun k hk he => ?_]
        · exact hasReference_of_copyInto hcopy
        · have hnat := congrArg UInt8.toNat (Slot.arg.inj he)
          rw [hfirst, Slot.toNat_ofNat (by omega)] at hnat
          omega
      · exact ih (by omega) hrest i (by omega) (by omega)
  · have hnat := congrArg UInt8.toNat (Slot.arg.inj he)
    rw [Slot.toNat_ofNat (by omega)] at hnat
    omega

end Context
end Acpi
