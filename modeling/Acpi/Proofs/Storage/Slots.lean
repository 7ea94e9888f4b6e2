/-
# Slots apart from each other

Different slots address different cells, so putting a value into one slot leaves
every other slot as it was.  A context is empty when nothing is set in any slot.
-/

import Acpi.Context.Basic

namespace Acpi

/-- Different slots address different cells. -/
theorem Slot.eq_of_cell? {slot slot' : Slot} {i : Fin 16} (h : slot.cell? = some i)
    (h' : slot'.cell? = some i) : slot = slot' := by
  have hcell {slot : Slot} (h : slot.cell? = some i) :
      slot = if i.val < maxArgs then .arg (UInt8.ofNat i) else
        if i.val < maxArgs + maxLocals then .loc (UInt8.ofNat (i - maxArgs)) else .ret := by
    cases slot with
    | arg index =>
      simp only [cell?] at h
      split at h
      · obtain rfl := Option.some.inj h
        simp [*]
      · cases h
    | loc index =>
      simp only [cell?] at h
      split at h
      · obtain rfl := Option.some.inj h
        simp [*]
      · cases h
    | ret =>
      obtain rfl := Option.some.inj h
      rfl
  rw [hcell h, hcell h']

/-- The number of an argument fits a byte. -/
theorem Slot.toNat_ofNat {n : Nat} (h : n < maxArgs) : (UInt8.ofNat n).toNat = n :=
  UInt8.toNat_ofNat_of_lt' (Nat.lt_trans h (by decide))

namespace Context

variable {ctx ctx' : Context} {slot other : Slot} {v : Value}

theorem set_eq_ok :
    ctx.set slot v = .ok ctx' ↔
      ∃ i : Fin 16, slot.cell? = some i ∧
        ctx' = { ctx with cells := ctx.cells.set i.val v i.isLt } := by
  unfold set
  cases slot.cell? <;> simp [eq_comm]

/-- A slot holds what has been put into it. -/
theorem get_of_set (h : ctx.set slot v = .ok ctx') : ctx'.get slot = .ok v := by
  obtain ⟨i, hi, rfl⟩ := set_eq_ok.1 h
  simp [get, hi]

/-- The other slots hold what they held. -/
theorem get_of_set_of_ne (h : ctx.set slot v = .ok ctx') (hne : other ≠ slot) :
    ctx'.get other = ctx.get other := by
  obtain ⟨i, hi, rfl⟩ := set_eq_ok.1 h
  cases hother : other.cell? with
  | none => simp [get, hother]
  | some j =>
    have hij : i.val ≠ j.val := fun he =>
      hne (Slot.eq_of_cell? hother (Fin.ext he ▸ hi))
    simp [get, hother, hij]

theorem get_of_cell? {i : Fin 16} (h : slot.cell? = some i) (ctx : Context) :
    ctx.get slot = .ok (ctx.cells.get i) := by
  simp only [get, h]
  rfl

theorem set_of_cell? {i : Fin 16} (h : slot.cell? = some i) (ctx : Context) (v : Value) :
    ctx.set slot v = .ok { ctx with cells := ctx.cells.set i.val v i.isLt } := by
  simp only [set, h]

/-- A cell holds what has been put into it, and the others what they held. -/
theorem get_set (cells : Vector Value 16) (i j : Fin 16) (v : Value) :
    (cells.set i.val v i.isLt).get j = if i = j then v else cells.get j := by
  show (cells.set i.val v i.isLt)[j] = if i = j then v else cells[j]
  simp only [Fin.getElem_fin, Vector.getElem_set, Fin.ext_iff]

/-- A value that is put back into its slot has not been away. -/
theorem set_set_null {i j : Fin 16} (hne : i ≠ j) (cells : Vector Value 16) (v : Value) :
    ((cells.set i.val .null i.isLt).set j.val v j.isLt).set i.val (cells.get i) i.isLt =
      cells.set j.val v j.isLt := by
  ext k hk
  show (Vector.set ..).get ⟨k, hk⟩ = (Vector.set ..).get ⟨k, hk⟩
  rw [get_set, get_set, get_set, get_set]
  by_cases hi : i = ⟨k, hk⟩
  · rw [if_pos hi, if_neg fun hj => hne (hi.trans hj.symm), hi]
  · rw [if_neg hi, if_neg hi]

/-- A context in whose slots nothing is set. -/
def IsEmpty (ctx : Context) : Prop := ∀ v ∈ ctx.cells.toList, v = .null

instance (ctx : Context) : Decidable ctx.IsEmpty :=
  inferInstanceAs (Decidable (∀ v ∈ ctx.cells.toList, v = .null))

theorem IsEmpty.get_eq (h : ctx.IsEmpty) {i : Fin 16} (hslot : slot.cell? = some i) :
    ctx.get slot = .ok .null := by
  have hmem : ctx.cells[i] ∈ ctx.cells.toList :=
    Vector.mem_toList_iff.2 (Vector.getElem_mem i.isLt)
  simp only [get, hslot, h _ hmem]

/-- Empty contexts differ at most in what they say of a call. -/
theorem IsEmpty.cells_eq (h : ctx.IsEmpty) (h' : ctx'.IsEmpty) : ctx.cells = ctx'.cells := by
  refine Vector.toArray_inj.1 (Array.toList_inj.1 ?_)
  have hnull {given : Context} (h : given.IsEmpty) :
      given.cells.toArray.toList = List.replicate 16 .null :=
    List.eq_replicate_iff.2 ⟨by simp, h⟩
  rw [hnull h, hnull h']

end Context
end Acpi
