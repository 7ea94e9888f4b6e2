/-
# What releasing and copying do, shape by shape

A successful release or copy of a value taken apart by the shape of the value:
which calls the host got, in which order, and what is left.  Then the same for
the operations on the slots of a context, which are made of these two.
-/

import Acpi.Context.Slots
import Acpi.Proofs.Effect
import Acpi.Proofs.Storage.Slots

namespace Acpi
namespace Value

variable {η ν : Type} {host : Host η} {w w' : World η ν} {left v : Value} {vs : List Value}

open Effect

/-! ### Releasing -/

theorem release_buffer_eq_ok {bytes : List UInt8} :
    release host (buffer bytes) w = .ok (left, w') ↔
      ∃ state, host (.freeBytes bytes) w.host = .ok ((), state) ∧ left = null ∧
        w' = w.called (.freeBytes bytes) state := by
  rw [release, bind_eq_ok]
  constructor
  · rintro ⟨_, _, hask, h⟩
    obtain ⟨state, hstate, rfl⟩ := Host.ask_eq_ok.1 hask
    obtain ⟨rfl, rfl⟩ := Prod.mk.inj (pure_eq_ok.1 h)
    exact ⟨state, hstate, rfl, rfl⟩
  · rintro ⟨state, hstate, rfl, rfl⟩
    exact ⟨(), _, Host.ask_eq_ok.2 ⟨state, hstate, rfl⟩, pure_eq_ok.2 rfl⟩

/-- The elements of a package are released before the package itself. -/
theorem release_package_eq_ok {elements : List Value} :
    release host (package elements) w = .ok (left, w') ↔
      ∃ cleaned w₁ state, releaseAll host elements w = .ok (cleaned, w₁) ∧
        host (.freeElements cleaned) w₁.host = .ok ((), state) ∧ left = null ∧
        w' = w₁.called (.freeElements cleaned) state := by
  rw [release, bind_eq_ok]
  constructor
  · rintro ⟨cleaned, w₁, hall, h⟩
    obtain ⟨_, _, hask, h⟩ := bind_eq_ok.1 h
    obtain ⟨state, hstate, rfl⟩ := Host.ask_eq_ok.1 hask
    obtain ⟨rfl, rfl⟩ := Prod.mk.inj (pure_eq_ok.1 h)
    exact ⟨cleaned, w₁, state, hall, hstate, rfl, rfl⟩
  · rintro ⟨cleaned, w₁, state, hall, hstate, rfl, rfl⟩
    exact ⟨cleaned, w₁, hall,
      bind_eq_ok.2 ⟨(), _, Host.ask_eq_ok.2 ⟨state, hstate, rfl⟩, pure_eq_ok.2 rfl⟩⟩

@[simp] theorem releaseAll_nil_eq_ok {left : List Value} :
    releaseAll host [] w = .ok (left, w') ↔ left = [] ∧ w' = w := by
  simp [releaseAll]

theorem releaseAll_cons_eq_ok {left : List Value} :
    releaseAll host (v :: vs) w = .ok (left, w') ↔
      ∃ u us w₁, release host v w = .ok (u, w₁) ∧ releaseAll host vs w₁ = .ok (us, w') ∧
        left = u :: us := by
  simp only [releaseAll, bind_eq_ok, pure_eq_ok, Prod.mk.injEq]
  grind

/-- Nothing is left of a value that has been released. -/
theorem left_of_release (h : release host v w = .ok (left, w')) : left = null := by
  cases v with
  | buffer =>
    obtain ⟨_, _, rfl, _⟩ := release_buffer_eq_ok.1 h
    rfl
  | package =>
    obtain ⟨_, _, _, _, _, rfl, _⟩ := release_package_eq_ok.1 h
    rfl
  | _ =>
    obtain ⟨rfl, _⟩ := Prod.mk.inj (pure_eq_ok.1 (by simpa only [release] using h))
    rfl

theorem left_of_releaseAll {left : List Value} (h : releaseAll host vs w = .ok (left, w')) :
    left = List.replicate vs.length null := by
  induction vs generalizing w left with
  | nil => exact (releaseAll_nil_eq_ok.1 h).1
  | cons v vs ih =>
    obtain ⟨u, us, w₁, hv, hvs, rfl⟩ := releaseAll_cons_eq_ok.1 h
    rw [left_of_release hv, ih hvs, List.length_cons, List.replicate_succ]

/-! ### Copying -/

theorem copy_buffer_eq_ok {bytes : List UInt8} :
    copy host (buffer bytes) w = .ok (v, w') ↔
      ∃ storage state, host (.allocBytes bytes.length) w.host = .ok (storage, state) ∧
        v = buffer bytes ∧ w' = w.called (.allocBytes bytes.length) state := by
  rw [copy, bind_eq_ok]
  constructor
  · rintro ⟨storage, _, hask, h⟩
    obtain ⟨state, hstate, rfl⟩ := Host.ask_eq_ok.1 hask
    obtain ⟨rfl, rfl⟩ := Prod.mk.inj (pure_eq_ok.1 h)
    exact ⟨storage, state, hstate, rfl, rfl⟩
  · rintro ⟨storage, state, hstate, rfl, rfl⟩
    exact ⟨storage, _, Host.ask_eq_ok.2 ⟨state, hstate, rfl⟩, pure_eq_ok.2 rfl⟩

/-- A reference to a buffer field becomes the integer that the field holds. -/
theorem copy_bufferField_eq_ok {field : BufferField} :
    copy host (bufferField field) w = .ok (v, w') ↔
      ∃ n state, host (.readBufferField field) w.host = .ok (n, state) ∧ v = integer n ∧
        w' = w.called (.readBufferField field) state := by
  rw [copy, bind_eq_ok]
  constructor
  · rintro ⟨n, _, hask, h⟩
    obtain ⟨state, hstate, rfl⟩ := Host.ask_eq_ok.1 hask
    obtain ⟨rfl, rfl⟩ := Prod.mk.inj (pure_eq_ok.1 h)
    exact ⟨n, state, hstate, rfl, rfl⟩
  · rintro ⟨n, state, hstate, rfl, rfl⟩
    exact ⟨n, _, Host.ask_eq_ok.2 ⟨state, hstate, rfl⟩, pure_eq_ok.2 rfl⟩

/-- The package itself is put into storage before its elements. -/
theorem copy_package_eq_ok {elements : List Value} :
    copy host (package elements) w = .ok (v, w') ↔
      ∃ storage state copies, host (.allocElements elements.length) w.host = .ok (storage, state) ∧
        copyAll host elements (w.called (.allocElements elements.length) state) =
          .ok (copies, w') ∧ v = package copies := by
  rw [copy, bind_eq_ok]
  constructor
  · rintro ⟨storage, _, hask, h⟩
    obtain ⟨state, hstate, rfl⟩ := Host.ask_eq_ok.1 hask
    obtain ⟨copies, _, hall, h⟩ := bind_eq_ok.1 h
    obtain ⟨rfl, rfl⟩ := Prod.mk.inj (pure_eq_ok.1 h)
    exact ⟨storage, state, copies, hstate, hall, rfl⟩
  · rintro ⟨storage, state, copies, hstate, hall, rfl⟩
    exact ⟨storage, _, Host.ask_eq_ok.2 ⟨state, hstate, rfl⟩,
      bind_eq_ok.2 ⟨copies, w', hall, pure_eq_ok.2 rfl⟩⟩

@[simp] theorem copyAll_nil_eq_ok {copies : List Value} :
    copyAll host [] w = .ok (copies, w') ↔ copies = [] ∧ w' = w := by
  simp [copyAll]

theorem copyAll_cons_eq_ok {copies : List Value} :
    copyAll host (v :: vs) w = .ok (copies, w') ↔
      ∃ u us w₁, copy host v w = .ok (u, w₁) ∧ copyAll host vs w₁ = .ok (us, w') ∧
        copies = u :: us := by
  simp only [copyAll, bind_eq_ok, pure_eq_ok, Prod.mk.injEq]
  grind

/-- Overwriting is releasing and then copying. -/
theorem overwrite_eq_ok {old source : Value} :
    old.overwrite host source w = .ok (v, w') ↔
      ∃ left w₁, old.release host w = .ok (left, w₁) ∧ source.copy host w₁ = .ok (v, w') := by
  simp only [overwrite, bind_eq_ok]

theorem releaseAll_eq_mapM (host : Host η) (vs : List Value) :
    (releaseAll host vs : WorldM η ν (List Value)) = vs.mapM (release host) := by
  induction vs with
  | nil => rfl
  | cons v vs ih => rw [releaseAll, ih, List.mapM_cons]

end Value

/-! ### Slots -/

namespace Context

variable {η ν : Type} {host : Host η} {w w' : World η ν} {ctx ctx' : Context} {slot : Slot}
  {v : Value}

open Effect

theorem store_eq_ok :
    ctx.store host slot v w = .ok (ctx', w') ↔
      ∃ old left, ctx.get slot = .ok old ∧ old.release host w = .ok (left, w') ∧
        ctx.set slot v = .ok ctx' := by
  simp only [store, bind_eq_ok, lift_eq_ok]
  grind

theorem copyInto_eq_ok :
    ctx.copyInto host slot v w = .ok (ctx', w') ↔
      ∃ old u, ctx.get slot = .ok old ∧ old.overwrite host v w = .ok (u, w') ∧
        ctx.set slot u = .ok ctx' := by
  simp only [copyInto, bind_eq_ok, lift_eq_ok]
  grind

theorem store_eq {i : Fin 16} (h : slot.cell? = some i) (v : Value) :
    (ctx.store host slot v : WorldM η ν Context) =
      (fun _ => { ctx with cells := ctx.cells.set i.val v i.isLt }) <$>
        (ctx.cells.get i).release host := by
  simp only [store, get_of_cell? h, set_of_cell? h, lift_ok_bind]
  rfl

theorem copyInto_eq {i : Fin 16} (h : slot.cell? = some i) (v : Value) :
    (ctx.copyInto host slot v : WorldM η ν Context) =
      (fun u => { ctx with cells := ctx.cells.set i.val u i.isLt }) <$>
        (ctx.cells.get i).overwrite host v := by
  simp only [copyInto, get_of_cell? h, set_of_cell? h, lift_ok_bind]
  rfl

/-- **A value that is taken out of its slot to be copied is back in the end**, and the
slot that the copy goes into is another one, so nothing is seen of it. -/
theorem copySlot_eq {source : Slot} (hne : slot ≠ source) {v : Value}
    (hv : ctx.get source = .ok v) :
    (ctx.copySlot host slot source : WorldM η ν Context) = ctx.copyInto host slot v := by
  cases hi : source.cell? with
  | none => simp [get, hi] at hv
  | some i =>
    obtain rfl := Except.ok.inj ((get_of_cell? hi ctx).symm.trans hv)
    rw [copySlot, if_neg hne, get_of_cell? hi, set_of_cell? hi, lift_ok_bind, lift_ok_bind]
    cases hj : slot.cell? with
    | none =>
      simp only [copyInto, get, hj, lift_error_bind]
      rfl
    | some j =>
      have hij : i ≠ j := fun h => hne (Slot.eq_of_cell? hj (h ▸ hi))
      rw [copyInto_eq hj, copyInto_eq hj, bind_map_left, get_set, if_neg hij]
      simp only [set_of_cell? hi, set_set_null hij]
      rfl

theorem copySlot_eq_ok {source : Slot} :
    ctx.copySlot host slot source w = .ok (ctx', w') ↔
      (slot = source ∧ ctx' = ctx ∧ w' = w) ∨
        slot ≠ source ∧ ∃ u, ctx.get source = .ok u ∧
          ctx.copyInto host slot u w = .ok (ctx', w') := by
  by_cases hslot : slot = source
  · simp [copySlot, hslot]
  · simp only [hslot, false_and, false_or, ne_eq, not_false_eq_true, true_and]
    cases hget : ctx.get source with
    | error f => simp [copySlot, hslot, hget, bind_eq_ok]
    | ok u => simp [copySlot_eq hslot hget]

theorem bindArgs_cons_eq_ok {first : Nat} {vs : List Value} :
    ctx.bindArgs host first (v :: vs) w = .ok (ctx', w') ↔
      ∃ ctx₁ w₁, ctx.copyInto host (.arg (UInt8.ofNat first)) v w = .ok (ctx₁, w₁) ∧
        ctx₁.bindArgs host (first + 1) vs w₁ = .ok (ctx', w') := by
  rw [bindArgs, bind_eq_ok]

theorem get_of_copyInto_of_ne {other : Slot} (h : ctx.copyInto host slot v w = .ok (ctx', w'))
    (hne : other ≠ slot) : ctx'.get other = ctx.get other := by
  obtain ⟨old, u, -, -, hset⟩ := copyInto_eq_ok.1 h
  exact get_of_set_of_ne hset hne

/-- Slots to which no argument is bound hold what they held. -/
theorem get_of_bindArgs_of_ne {first : Nat} {vs : List Value}
    (h : ctx.bindArgs host first vs w = .ok (ctx', w'))
    (hne : ∀ i < vs.length, slot ≠ .arg (UInt8.ofNat (first + i))) :
    ctx'.get slot = ctx.get slot := by
  induction vs generalizing ctx w first with
  | nil =>
    obtain ⟨rfl, -⟩ := Prod.mk.inj (pure_eq_ok.1 (by simpa only [bindArgs] using h))
    rfl
  | cons v vs ih =>
    obtain ⟨ctx₁, w₁, hcopy, hrest⟩ := bindArgs_cons_eq_ok.1 h
    rw [ih hrest fun i hi => ?_, get_of_copyInto_of_ne hcopy (hne 0 (Nat.succ_pos _))]
    rw [Nat.add_right_comm]
    exact hne (i + 1) (Nat.succ_lt_succ hi)

/-- **Arguments that are bound to empty slots** are copied from first to last, and nothing
else is done. -/
theorem bindArgs_copies {first : Nat} {vs : List Value} (hbound : first + vs.length ≤ maxArgs)
    (hnull : ∀ i < vs.length, ctx.get (.arg (UInt8.ofNat (first + i))) = .ok .null)
    (h : ctx.bindArgs host first vs w = .ok (ctx', w')) :
    ∃ us, Value.copyAll host vs w = .ok (us, w') ∧
      ∀ i u, us[i]? = some u → ctx'.get (.arg (UInt8.ofNat (first + i))) = .ok u := by
  induction vs generalizing ctx w first with
  | nil =>
    obtain ⟨rfl, rfl⟩ := Prod.mk.inj (pure_eq_ok.1 (by simpa only [bindArgs] using h))
    exact ⟨[], Value.copyAll_nil_eq_ok.2 ⟨rfl, rfl⟩, fun i u hu => by simp at hu⟩
  | cons v vs ih =>
    obtain ⟨ctx₁, w₁, hcopy, hrest⟩ := bindArgs_cons_eq_ok.1 h
    obtain ⟨old, u, hold, hover, hset⟩ := copyInto_eq_ok.1 hcopy
    obtain rfl := Except.ok.inj ((hnull 0 (Nat.succ_pos _)).symm.trans hold)
    obtain ⟨left, w₀, hrelease, hu⟩ := Value.overwrite_eq_ok.1 hover
    rw [Value.release] at hrelease
    obtain ⟨-, rfl⟩ := Prod.mk.inj (pure_eq_ok.1 hrelease)
    rw [List.length_cons] at hbound
    -- none of the other arguments goes where the first one has gone
    have hapart (i : Nat) (hi : i < vs.length) :
        Slot.arg (UInt8.ofNat (first + 1 + i)) ≠ .arg (UInt8.ofNat first) := fun he => by
      have hnat := congrArg UInt8.toNat (Slot.arg.inj he)
      rw [Slot.toNat_ofNat (by omega), Slot.toNat_ofNat (by omega)] at hnat
      omega
    have hnull₁ (i : Nat) (hi : i < vs.length) :
        ctx₁.get (.arg (UInt8.ofNat (first + 1 + i))) = .ok .null := by
      rw [get_of_set_of_ne hset (hapart i hi), Nat.add_right_comm]
      exact hnull (i + 1) (Nat.succ_lt_succ hi)
    obtain ⟨us, hus, hslots⟩ := ih (by omega) hnull₁ hrest
    refine ⟨u :: us, Value.copyAll_cons_eq_ok.2 ⟨u, us, w₁, hu, hus, rfl⟩, fun i u' hu' => ?_⟩
    cases i with
    | zero =>
      obtain rfl := Option.some.inj hu'
      rw [Nat.add_zero, get_of_bindArgs_of_ne hrest fun i hi => (hapart i hi).symm]
      exact get_of_set hset
    | succ i =>
      rw [← Nat.add_assoc, Nat.add_right_comm]
      exact hslots i u' hu'

/-- Releasing what is in all cells is releasing it in order. -/
theorem toList_mapM_release (ctx : Context) :
    Vector.toList <$> (ctx.cells.mapM (Value.release host) : WorldM η ν (Vector Value 16)) =
      Value.releaseAll host ctx.cells.toList := by
  rw [Value.releaseAll_eq_mapM, ← Vector.toList_toArray, ← Array.toList_mapM,
    ← Vector.toArray_mapM, Functor.map_map]
  rfl

/-- Cleaning a context releases what its cells hold, in order. -/
theorem clean_eq_ok :
    ctx.clean host w = .ok (ctx', w') ↔ ctx' = { ctx with cells := ctx'.cells } ∧
      Value.releaseAll host ctx.cells.toList w = .ok (ctx'.cells.toList, w') := by
  rw [clean, bind_eq_ok, ← toList_mapM_release]
  simp only [map_eq_ok, pure_eq_ok, Prod.mk.injEq]
  constructor
  · rintro ⟨cells, _, hcells, rfl, rfl⟩
    exact ⟨rfl, cells, hcells, rfl⟩
  · rintro ⟨hctx, cells, hcells, htoList⟩
    obtain rfl := Vector.toList_inj.1 htoList
    exact ⟨_, w', hcells, hctx, rfl⟩

/-- A context that has been cleaned is empty. -/
theorem isEmpty_of_clean (h : ctx.clean host w = .ok (ctx', w')) : ctx'.IsEmpty := by
  intro v hv
  rw [Value.left_of_releaseAll (clean_eq_ok.1 h).2] at hv
  exact List.eq_of_mem_replicate hv

end Context
end Acpi
