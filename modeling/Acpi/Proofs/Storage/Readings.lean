/-
# What copies are made of

On a host whose buffer fields hold something that only writing changes (`Host.Reads`), a
copy is told by its source alone: it is the source with what the fields hold in the place
of the references to them (`Value.asRead`).  Neither copying nor releasing writes.
-/

import Acpi.Bench.CountingHost
import Acpi.Proofs.Storage.Orders

namespace Acpi

variable {η ν : Type} {host : Host η} {contents : BufferField → UInt64} {good : η → Prop}

open Effect

/-- The buffer fields hold these contents in good states, and a good state is left by
writing only. -/
structure Host.Reads (host : Host η) (contents : BufferField → UInt64) (good : η → Prop) :
    Prop where
  kept : ∀ {call : HostCall} {state answer state'}, (∀ field n, call ≠ .writeBufferField field n) →
    good state → host call state = .ok (answer, state') → good state'
  read : ∀ {field state n state'}, good state →
    host (.readBufferField field) state = .ok (n, state') → n = contents field

/-- A host that counts always reads the same value, until it is overwritten. -/
theorem reads_countingHost (n : UInt64) :
    countingHost.Reads (fun _ => n) fun c => c.fieldValue = n where
  kept := by
    intro call c answer c' hwrite hgood h
    cases call with
    | writeBufferField field n => exact absurd rfl (hwrite field n)
    | freeElements elements =>
      simp only [countingHost] at h
      split at h
      · obtain ⟨-, rfl⟩ := Prod.mk.inj (Except.ok.inj h)
        exact hgood
      · cases h
    | readOperand operand => 
      cases operand <;>
      · obtain ⟨-, rfl⟩ := Prod.mk.inj (Except.ok.inj h)
        exact hgood
    | _ =>
      obtain ⟨-, rfl⟩ := Prod.mk.inj (Except.ok.inj h)
      exact hgood
  read := by
    intro field c m c' hgood h
    obtain ⟨rfl, -⟩ := Prod.mk.inj (Except.ok.inj h)
    exact hgood

namespace Value

/-- A value with what the fields hold in the place of its references to them. -/
def asRead (contents : BufferField → UInt64) (v : Value) : Value :=
  v.filled (v.fields.map contents)

@[simp] theorem asRead_bufferField (field : BufferField) :
    (bufferField field).asRead contents = integer (contents field) := by
  simp [asRead, fields, filled]

@[simp] theorem asRead_package (elements : List Value) :
    (package elements).asRead contents = package (elements.map (asRead contents)) := by
  have hall : filledAll elements ((fieldsAll elements).map contents) =
      elements.map (asRead contents) := by
    induction elements with
    | nil => simp [filledAll]
    | cons v vs ih =>
      rw [filledAll, fieldsAll, List.map_append, List.take_left' (List.length_map _),
        List.drop_left' (List.length_map _), ih, List.map_cons, asRead]
  rw [asRead, fields, filled, hall]

/-- Nothing is changed in any other value. -/
theorem asRead_eq_self {v : Value} (h : v.fields = []) : v.asRead contents = v :=
  filled_of_fields_eq_nil v h

end Value

namespace Host.Reads

variable (reads : host.Reads contents good)
include reads

/-- Without a write every reading is what the field holds. -/
theorem askAll {calls : List HostCall} {w w' : World η ν} {exchanges : List Exchange}
    (hcalls : ∀ call ∈ calls, ∀ field n, call ≠ .writeBufferField field n) (hgood : good w.host)
    (h : host.askAll calls w = .ok (exchanges, w')) :
    readings exchanges = (calls.filterMap HostCall.field?).map contents ∧ good w'.host := by
  induction calls generalizing w exchanges with
  | nil =>
    obtain ⟨rfl, rfl⟩ := Prod.mk.inj (pure_eq_ok.1 (by simpa only [Host.askAll] using h))
    exact ⟨rfl, hgood⟩
  | cons call calls ih =>
    obtain ⟨hcall, hcalls⟩ := List.forall_mem_cons.1 hcalls
    rw [Host.askAll, bind_eq_ok] at h
    obtain ⟨answer, _, hask, h⟩ := h
    obtain ⟨state, hstate, rfl⟩ := Host.ask_eq_ok.1 hask
    obtain ⟨rest, _, hrest, h⟩ := bind_eq_ok.1 h
    obtain ⟨rfl, rfl⟩ := Prod.mk.inj (pure_eq_ok.1 h)
    obtain ⟨hreadings, hgood'⟩ := ih hcalls (reads.kept hcall hgood hstate) hrest
    refine ⟨?_, hgood'⟩
    cases hfield : call.field? with
    | none =>
      rw [readings_cons_of_field?_eq_none hfield, hreadings, List.filterMap_cons_none hfield]
    | some field =>
      cases call with
      | readBufferField field' =>
        obtain rfl := Option.some.inj hfield
        rw [readings_cons_field, hreadings, reads.read hgood hstate,
          List.filterMap_cons_some hfield, List.map_cons]
      | _ => cases hfield

/-- **A copy is its source as it is read.** -/
theorem copy {v u : Value} {w w' : World η ν} (hgood : good w.host)
    (h : v.copy host w = .ok (u, w')) : u = v.asRead contents ∧ good w'.host := by
  have hcalls : ∀ call ∈ v.copyCalls, ∀ field n, call ≠ .writeBufferField field n := by
    rintro call hcall field n rfl
    exact v.supplies_of_mem_copyCalls _ hcall
  rw [Value.copy_eq] at h
  obtain ⟨exchanges, hask, rfl⟩ := map_eq_ok.1 h
  obtain ⟨hreadings, hgood'⟩ := reads.askAll hcalls hgood hask
  rw [hreadings, v.filterMap_field?_copyCalls]
  exact ⟨rfl, hgood'⟩

theorem release {v left : Value} {w w' : World η ν} (hgood : good w.host)
    (h : v.release host w = .ok (left, w')) : good w'.host := by
  have hcalls : ∀ call ∈ v.releaseCalls, ∀ field n, call ≠ .writeBufferField field n := by
    rintro call hcall field n rfl
    exact v.givesBack_of_mem_releaseCalls _ hcall
  rw [Value.release_eq] at h
  obtain ⟨exchanges, hask, -⟩ := map_eq_ok.1 h
  exact (reads.askAll hcalls hgood hask).2

end Host.Reads
end Acpi
