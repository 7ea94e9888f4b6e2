/-
# The calls of copying and releasing

Which calls a value is copied or released with can be told from the value alone, and
so can their order (`Value.copyCalls`, `Value.releaseCalls`): the answers of the host
change nothing about them.  Of what the host answers when a value is copied, only the
readings of buffer fields are used, and they are put in the places of the references
that they were asked for (`Value.filled`).  So copying and releasing make their calls
one after the other and put the result together at the end (`Value.copy_eq`,
`Value.release_eq`).

| value | calls for a copy | calls for the release |
| --- | --- | --- |
| buffer | storage for its bytes | its storage back |
| reference to a field | the field | |
| package | storage for its elements, their calls | their calls, its storage back |
| any other | | |
-/

import Acpi.Proofs.Storage.Reference
import Mathlib.Data.List.Basic

namespace Acpi

variable {η ν : Type} {host : Host η}

open Effect

/-- A call to the host with the answer to it. -/
structure Exchange where
  call : HostCall
  answer : call.Answer

/-- What was read from a buffer field. -/
def Exchange.reading? : Exchange → Option UInt64
  | ⟨.readBufferField _, n⟩ => some n
  | _ => none

/-- What was read from buffer fields, from first to last. -/
def readings (exchanges : List Exchange) : List UInt64 := exchanges.filterMap Exchange.reading?

namespace HostCall

/-- Whether something is read with a call: a buffer field or a field unit. -/
def isRead : HostCall → Bool
  | readBufferField _ | readOperand _ => true
  | _ => false

/-- The buffer field that is read with a call. -/
def field? : HostCall → Option BufferField
  | readBufferField field => some field
  | _ => none

/-- A call that asks for something that goes into a copy. -/
def Supplies : HostCall → Prop
  | allocBytes _ | allocElements _ | readBufferField _ => True
  | _ => False

/-- A call that gives storage back with nothing left in it. -/
def GivesBack : HostCall → Prop
  | freeBytes _ => True
  | freeElements elements => ∀ v ∈ elements, v = .null
  | _ => False

end HostCall

/-- There is a reading for every buffer field that was asked for. -/
theorem length_readings (exchanges : List Exchange) :
    (readings exchanges).length =
      ((exchanges.map Exchange.call).filterMap HostCall.field?).length := by
  rw [readings, List.length_filterMap_eq_countP, List.length_filterMap_eq_countP, List.countP_map]
  refine List.countP_congr fun exchange _ => ?_
  obtain ⟨call, answer⟩ := exchange
  cases call <;> rfl

theorem readings_append (exchanges exchanges' : List Exchange) :
    readings (exchanges ++ exchanges') = readings exchanges ++ readings exchanges' :=
  List.filterMap_append

theorem readings_cons_field {field : BufferField} (n : UInt64) (exchanges : List Exchange) :
    readings (⟨.readBufferField field, n⟩ :: exchanges) = n :: readings exchanges :=
  rfl

theorem readings_cons_of_field?_eq_none {call : HostCall} (h : call.field? = none)
    (answer : call.Answer) (exchanges : List Exchange) :
    readings (⟨call, answer⟩ :: exchanges) = readings exchanges := by
  cases call with
  | readBufferField => cases h
  | _ => rfl

namespace Host

/-- Asks the host for one thing after the other. -/
def askAll (host : Host η) : List HostCall → WorldM η ν (List Exchange)
  | [] => return []
  | call :: calls => do
    let answer ← host.ask call
    return ⟨call, answer⟩ :: (← host.askAll calls)

theorem askAll_append (host : Host η) (calls calls' : List HostCall) :
    (host.askAll (calls ++ calls') : WorldM η ν (List Exchange)) = do
      let exchanges ← host.askAll calls
      return exchanges ++ (← host.askAll calls') := by
  induction calls with
  | nil => simp [askAll]
  | cons call calls ih => simp [askAll, ih]

/-- What the host is asked for is written down call by call. -/
theorem askAll_cases {calls : List HostCall} {w w' : World η ν} {exchanges : List Exchange}
    (h : host.askAll calls w = .ok (exchanges, w')) :
    exchanges.map Exchange.call = calls ∧
      w'.journal.toList = w.journal.toList ++ calls.map .host := by
  induction calls generalizing w exchanges with
  | nil =>
    obtain ⟨rfl, rfl⟩ := Prod.mk.inj (pure_eq_ok.1 (by simpa only [askAll] using h))
    simp
  | cons call calls ih =>
    rw [askAll, bind_eq_ok] at h
    obtain ⟨answer, _, hask, h⟩ := h
    obtain ⟨state, -, rfl⟩ := Host.ask_eq_ok.1 hask
    obtain ⟨rest, _, hrest, h⟩ := bind_eq_ok.1 h
    obtain ⟨rfl, rfl⟩ := Prod.mk.inj (pure_eq_ok.1 h)
    obtain ⟨hcalls, hjournal⟩ := ih hrest
    rw [List.map_cons, hcalls, hjournal, World.journal_called]
    simp

end Host

namespace Value

/-! ### The calls of a value -/

mutual

/-- The calls to the host with which a value is copied. -/
def copyCalls : Value → List HostCall
  | buffer bytes => [.allocBytes bytes.length]
  | bufferField field => [.readBufferField field]
  | package elements => .allocElements elements.length :: copyCallsAll elements
  | null | integer _ | string _ => []

/-- The calls with which values are copied from first to last. -/
def copyCallsAll : List Value → List HostCall
  | [] => []
  | v :: vs => copyCalls v ++ copyCallsAll vs

end

mutual

/-- The calls to the host with which a value is released.  A package is shown to the
host with its elements gone. -/
def releaseCalls : Value → List HostCall
  | buffer bytes => [.freeBytes bytes]
  | package elements =>
    releaseCallsAll elements ++ [.freeElements (List.replicate elements.length null)]
  | null | integer _ | string _ | bufferField _ => []

/-- The calls with which values are released from first to last. -/
def releaseCallsAll : List Value → List HostCall
  | [] => []
  | v :: vs => releaseCalls v ++ releaseCallsAll vs

end

theorem releaseCallsAll_eq_flatMap (vs : List Value) :
    releaseCallsAll vs = vs.flatMap releaseCalls := by
  induction vs with
  | nil => rfl
  | cons v vs ih => rw [releaseCallsAll, ih, List.flatMap_cons]

theorem releaseCallsAll_append (vs us : List Value) :
    releaseCallsAll (vs ++ us) = releaseCallsAll vs ++ releaseCallsAll us := by
  simp only [releaseCallsAll_eq_flatMap, List.flatMap_append]

/-- Empty values give nothing back. -/
theorem releaseCallsAll_replicate_null (n : Nat) :
    releaseCallsAll (List.replicate n null) = [] := by
  induction n with
  | zero => rfl
  | succ n ih => rw [List.replicate_succ, releaseCallsAll, ih, releaseCalls, List.append_nil]

/-! ### References and what is read for them -/

mutual

/-- The buffer fields to which a value refers, from left to right. -/
def fields : Value → List BufferField
  | bufferField field => [field]
  | package elements => fieldsAll elements
  | null | integer _ | string _ | buffer _ => []

/-- The buffer fields to which values refer, from first to last. -/
def fieldsAll : List Value → List BufferField
  | [] => []
  | v :: vs => fields v ++ fieldsAll vs

end

mutual

/-- A value with readings, from left to right, in the places of its references to
buffer fields. -/
def filled : Value → List UInt64 → Value
  | bufferField _, n :: _ => integer n
  | bufferField field, [] => bufferField field
  | package elements, readings => package (filledAll elements readings)
  | null, _ => null
  | integer n, _ => integer n
  | string text, _ => string text
  | buffer bytes, _ => buffer bytes

/-- Every one of the values gets as many readings as it has references. -/
def filledAll : List Value → List UInt64 → List Value
  | [], _ => []
  | v :: vs, readings =>
    filled v (readings.take (fields v).length) ::
      filledAll vs (readings.drop (fields v).length)

end

@[simp] theorem length_filledAll (vs : List Value) (readings : List UInt64) :
    (filledAll vs readings).length = vs.length := by
  induction vs generalizing readings with
  | nil => rfl
  | cons v vs ih => rw [filledAll, List.length_cons, ih, List.length_cons]

mutual

/-- **A copy reads every buffer field to which its source refers**, from left to right,
and nothing else. -/
theorem filter_isRead_copyCalls : (v : Value) →
    v.copyCalls.filter HostCall.isRead = v.fields.map .readBufferField
  | null | integer _ | string _ | buffer _ | bufferField _ => by
    simp [copyCalls, fields, HostCall.isRead]
  | package elements => by
    simpa [copyCalls, fields, HostCall.isRead] using filter_isRead_copyCallsAll elements

theorem filter_isRead_copyCallsAll : (vs : List Value) →
    (copyCallsAll vs).filter HostCall.isRead = (fieldsAll vs).map .readBufferField
  | [] => by simp [copyCallsAll, fieldsAll]
  | v :: vs => by
    rw [copyCallsAll, fieldsAll, List.filter_append, List.map_append, filter_isRead_copyCalls v,
      filter_isRead_copyCallsAll vs]

end

mutual

/-- All that the host is asked for when a value is copied goes into the copy. -/
theorem supplies_of_mem_copyCalls : (v : Value) → ∀ call ∈ v.copyCalls, call.Supplies
  | null | integer _ | string _ | buffer _ | bufferField _ => by
    simp [copyCalls, HostCall.Supplies]
  | package elements => by
    rw [copyCalls, List.forall_mem_cons]
    exact ⟨trivial, supplies_of_mem_copyCallsAll elements⟩

theorem supplies_of_mem_copyCallsAll : (vs : List Value) →
    ∀ call ∈ copyCallsAll vs, call.Supplies
  | [] => by simp [copyCallsAll]
  | v :: vs => by
    rw [copyCallsAll, List.forall_mem_append]
    exact ⟨supplies_of_mem_copyCalls v, supplies_of_mem_copyCallsAll vs⟩

end

mutual

/-- All that the host is asked for when a value is released is to take storage back. -/
theorem givesBack_of_mem_releaseCalls : (v : Value) → ∀ call ∈ v.releaseCalls, call.GivesBack
  | null | integer _ | string _ | bufferField _ => by simp [releaseCalls]
  | buffer _ => by simp [releaseCalls, HostCall.GivesBack]
  | package elements => by
    rw [releaseCalls, List.forall_mem_append]
    refine ⟨givesBack_of_mem_releaseCallsAll elements, ?_⟩
    simp [HostCall.GivesBack]

theorem givesBack_of_mem_releaseCallsAll : (vs : List Value) →
    ∀ call ∈ releaseCallsAll vs, call.GivesBack
  | [] => by simp [releaseCallsAll]
  | v :: vs => by
    rw [releaseCallsAll, List.forall_mem_append]
    exact ⟨givesBack_of_mem_releaseCalls v, givesBack_of_mem_releaseCallsAll vs⟩

end

/-! ### Copying and releasing are nothing but their calls -/

mutual

/-- **Releasing a value** is asking the host to take its storage back. -/
theorem release_eq (host : Host η) : (v : Value) →
    (v.release host : WorldM η ν Value) = (fun _ => null) <$> host.askAll v.releaseCalls
  | null | integer _ | string _ | bufferField _ => by
    simp [release, releaseCalls, Host.askAll]
  | buffer _ => by simp [release, releaseCalls, Host.askAll]
  | package elements => by
    simp [release, releaseCalls, Host.askAll, releaseAll_eq host elements, Host.askAll_append]

theorem releaseAll_eq (host : Host η) : (vs : List Value) →
    (releaseAll host vs : WorldM η ν (List Value)) =
      (fun _ => List.replicate vs.length null) <$> host.askAll (releaseCallsAll vs)
  | [] => by simp [releaseAll, releaseCallsAll, Host.askAll]
  | v :: vs => by
    simp [releaseAll, releaseCallsAll, Host.askAll_append, release_eq host v,
      releaseAll_eq host vs, List.replicate_succ]

end

theorem filterMap_field?_copyCalls (v : Value) :
    v.copyCalls.filterMap HostCall.field? = v.fields := by
  have hreads := congrArg (List.filterMap HostCall.field?) (filter_isRead_copyCalls v)
  rw [List.filterMap_filter, List.filterMap_map] at hreads
  calc v.copyCalls.filterMap HostCall.field?
    _ = v.copyCalls.filterMap fun call => if call.isRead then call.field? else none :=
      List.filterMap_congr fun call _ => by cases call <;> rfl
    _ = v.fields.filterMap some := hreads
    _ = v.fields := List.filterMap_some

/-- As many readings are taken for a value as it has references. -/
theorem length_readings_of_askAll {v : Value} {w w' : World η ν} {exchanges : List Exchange}
    (h : host.askAll v.copyCalls w = .ok (exchanges, w')) :
    (readings exchanges).length = v.fields.length := by
  rw [length_readings, (Host.askAll_cases h).1, filterMap_field?_copyCalls]

mutual

/-- **Copying a value** is making its calls and putting what was read in the places of
the references. -/
theorem copy_eq (host : Host η) : (v : Value) →
    (v.copy host : WorldM η ν Value) =
      (fun exchanges => v.filled (readings exchanges)) <$> host.askAll v.copyCalls
  | null | integer _ | string _ => by simp [copy, copyCalls, Host.askAll, filled]
  | buffer bytes => by simp [copy, copyCalls, Host.askAll, filled, cleared]
  | bufferField field => by
    rw [copy, copyCalls, Host.askAll, map_bind]
    exact bind_congr fun n => by
      rw [Host.askAll, pure_bind, map_pure, readings_cons_field, filled]
  | package elements => by
    rw [copy, copyCalls, Host.askAll, map_bind]
    refine bind_congr fun storage => ?_
    have hreadings := readings_cons_of_field?_eq_none
      (show (HostCall.allocElements elements.length).field? = none from rfl) storage
    simp [copyAll_eq host elements, cleared, filled, hreadings]

theorem copyAll_eq (host : Host η) : (vs : List Value) →
    (copyAll host vs : WorldM η ν (List Value)) =
      (fun exchanges => filledAll vs (readings exchanges)) <$> host.askAll (copyCallsAll vs)
  | [] => by simp [copyAll, copyCallsAll, Host.askAll, filledAll]
  | v :: vs => by
    rw [copyAll, copyCallsAll, Host.askAll_append, copy_eq host v, copyAll_eq host vs]
    simp only [bind_map_left, map_bind, map_pure]
    funext w
    refine bind_congr_of_ok rfl fun exchanges w' h => ?_
    refine congrFun (bind_congr fun rest => congrArg pure ?_) w'
    rw [readings_append, filledAll, List.take_left' (length_readings_of_askAll h),
      List.drop_left' (length_readings_of_askAll h)]

end

/-- **Overwriting a value** releases it and then makes the calls for the copy. -/
theorem overwrite_eq (host : Host η) (old source : Value) :
    (old.overwrite host source : WorldM η ν Value) = do
      let _ ← host.askAll old.releaseCalls
      let exchanges ← host.askAll source.copyCalls
      return source.filled (readings exchanges) := by
  rw [overwrite, release_eq, copy_eq, bind_map_left]
  simp only [bind_pure_comp]

mutual

/-- Nothing is changed in a value without references. -/
theorem filled_of_fields_eq_nil : (v : Value) → {readings : List UInt64} → v.fields = [] →
    v.filled readings = v
  | null, _, _ | integer _, _, _ | string _, _, _ | buffer _, _, _ => by simp [filled]
  | bufferField _, _, h => by simp [fields] at h
  | package elements, _, h => by
    rw [filled, filledAll_of_fieldsAll_eq_nil elements (by simpa only [fields] using h)]

theorem filledAll_of_fieldsAll_eq_nil : (vs : List Value) → {readings : List UInt64} →
    fieldsAll vs = [] → filledAll vs readings = vs
  | [], _, _ => by simp [filledAll]
  | v :: vs, _, h => by
    rw [fieldsAll, List.append_eq_nil_iff] at h
    rw [filledAll, filled_of_fields_eq_nil v h.1, filledAll_of_fieldsAll_eq_nil vs h.2]

end

mutual

theorem fields_eq_nil_iff : (v : Value) → (v.fields = [] ↔ v.hasReference = false)
  | null | integer _ | string _ | buffer _ | bufferField _ => by simp [fields, hasReference]
  | package elements => by simpa [fields, hasReference] using fieldsAll_eq_nil_iff elements

theorem fieldsAll_eq_nil_iff : (vs : List Value) → (fieldsAll vs = [] ↔ anyReference vs = false)
  | [] => by simp [fieldsAll, anyReference]
  | v :: vs => by
    rw [fieldsAll, anyReference, List.append_eq_nil_iff, Bool.or_eq_false_iff,
      fields_eq_nil_iff v, fieldsAll_eq_nil_iff vs]

end

end Value
end Acpi
