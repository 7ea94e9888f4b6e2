/-
# Devices one after the other

A search goes through the devices that are there when it begins, and each of them has its
turn (`Caller.keepMatching_append_eq_ok`).  In its turn a device is kept or left out by
what its `_HID` or else its `_CID` says then, whatever the methods that were called so
far have done; so what is found is in the order of the namespace
(`Caller.sublist_of_keepMatching`).  Of an `_HID` that cannot be evaluated nothing
remains but a log record, and the `_CID` alone decides (`Caller.matchesId_of_error`).

The depth is the same after a search as before it.  The namespace can only have been
changed by a body: if none of them asks for that (`Request.LeavesSpace`), it is the same
too (`Platform.sameSpace_of_findDevices`).
-/

import Acpi.Proofs.Calls.Nesting

namespace Acpi

variable {η ν α : Type}

open Effect Machine

namespace Caller

variable {p : Platform η ν} {call : Caller η ν} {id : EisaId} {device : NodeId}
  {devices devices' found : List NodeId} {m m₁ m' : Machine η ν} {b : Bool}

theorem keepMatching_append_eq_ok :
    call.keepMatching p id (devices ++ devices') m = .ok (found, m') ↔
      ∃ earlier m₁ later, call.keepMatching p id devices m = .ok (earlier, m₁) ∧
        call.keepMatching p id devices' m₁ = .ok (later, m') ∧ found = earlier ++ later := by
  induction devices generalizing m found with
  | nil =>
    simp only [List.nil_append, keepMatching_nil_eq_ok]
    constructor
    · intro h
      exact ⟨[], m, found, ⟨rfl, rfl⟩, h, rfl⟩
    · rintro ⟨_, _, later, ⟨rfl, rfl⟩, h, rfl⟩
      exact h
  | cons device devices ih =>
    simp only [List.cons_append, keepMatching_cons_eq_ok, ih]
    constructor
    · rintro ⟨b, m₁, _, hmatches, ⟨earlier, m₂, later, hfirst, hrest, rfl⟩, rfl⟩
      refine ⟨_, m₂, later, ⟨b, m₁, earlier, hmatches, hfirst, rfl⟩, hrest, ?_⟩
      cases b <;> rfl
    · rintro ⟨_, m₂, later, ⟨b, m₁, earlier, hmatches, hfirst, rfl⟩, hrest, rfl⟩
      refine ⟨b, m₁, _, hmatches, ⟨earlier, m₂, later, hfirst, hrest, rfl⟩, ?_⟩
      cases b <;> rfl

/-- What is found is in order. -/
theorem sublist_of_keepMatching (h : call.keepMatching p id devices m = .ok (found, m')) :
    found.Sublist devices := by
  induction devices generalizing m found with
  | nil =>
    obtain ⟨rfl, -⟩ := keepMatching_nil_eq_ok.1 h
    exact .slnil
  | cons device devices ih =>
    obtain ⟨b, m₁, others, -, hrest, rfl⟩ := keepMatching_cons_eq_ok.1 h
    cases b with
    | true => exact (ih hrest).cons_cons device
    | false => exact (ih hrest).cons device

/-- An object that cannot be evaluated says no, and leaves a record. -/
theorem objectMatches_of_error {name : String} {node : NodeId} {e : Error}
    (hnode : m.space.resolveChild device name = .ok (some node))
    (heval : call.evalNode p node m = .ok (.error e, m₁))
    (h : call.objectMatches p device name id m = .ok (b, m')) :
    b = false ∧ ∃ deviceName, m' = m₁.logged (.unidentified name deviceName e) := by
  simp only [objectMatches, bind_eq_ok, onSpace_eq_ok] at h
  obtain ⟨_, _, ⟨hfound, rfl⟩, h⟩ := h
  obtain rfl := Except.ok.inj (hnode.symm.trans hfound)
  obtain ⟨_, _, hresult, h⟩ := bind_eq_ok.1 h
  obtain ⟨rfl, rfl⟩ := Prod.mk.inj (Except.ok.inj (heval.symm.trans hresult))
  simp only [bind_eq_ok, onSpace_eq_ok, log_eq_ok, pure_eq_ok, Prod.mk.injEq] at h
  obtain ⟨deviceName, _, ⟨-, rfl⟩, _, _, ⟨-, rfl⟩, rfl, rfl⟩ := h
  exact ⟨rfl, deviceName, rfl⟩

/-- **An `_HID` that fails hides nothing**: the `_CID` decides. -/
theorem matchesId_of_error {node : NodeId} {e : Error}
    (hnode : m.space.resolveChild device hardwareId = .ok (some node))
    (heval : call.evalNode p node m = .ok (.error e, m₁))
    (h : call.matchesId p device id m = .ok (b, m')) :
    ∃ deviceName, call.objectMatches p device compatibleId id
      (m₁.logged (.unidentified hardwareId deviceName e)) = .ok (b, m') := by
  rcases matchesId_eq_ok.1 h with ⟨-, h⟩ | ⟨m₂, hfirst, h⟩
  · obtain ⟨hfalse, -⟩ := objectMatches_of_error hnode heval h
    cases hfalse
  · obtain ⟨-, deviceName, rfl⟩ := objectMatches_of_error hnode heval hfirst
    exact ⟨deviceName, h⟩

end Caller

/-- A request that does not change the namespace by itself. -/
def Request.LeavesSpace : Request ν → Prop
  | addChild .. | setObject .. => False
  | _ => True

/-- The namespace is the same. -/
def Machine.SameSpace (m m' : Machine η ν) : Prop := m'.space = m.space

theorem Machine.SameSpace.tolerant {host : Host η} :
    Tolerant host Request.LeavesSpace (SameSpace (η := η) (ν := ν)) where
  refl _ := rfl
  trans h h' := h'.trans h
  housekeeping _ := rfl
  refusal _ _ _ := rfl
  hostCall _ _ := rfl
  note _ _ := rfl
  addChild h := h.elim
  setObject h := h.elim

namespace Platform

variable {p : Platform η ν}

theorem sameSpace_of_caller (hbodies : ∀ ctx, (p.executor ctx).Uses Request.LeavesSpace)
    (node : NodeId) (args : List Value) : Keeps SameSpace (p.caller node args) :=
  SameSpace.tolerant.caller_keeps_of_space (S := fun ns ns' => ns' = ns) hbodies node args

/-- **A search does not change the namespace** if no body asks for that, -/
theorem sameSpace_of_findDevices (hbodies : ∀ ctx, (p.executor ctx).Uses Request.LeavesSpace)
    (id : EisaId) : Keeps SameSpace (p.findDevices id) :=
  SameSpace.tolerant.search_keeps (sameSpace_of_caller hbodies) id

/-- and never the depth. -/
theorem depth_of_findDevices {id : EisaId} {m m' : Machine η ν} {found : List NodeId}
    (h : p.findDevices id m = .ok (found, m')) : m'.depth = m.depth := by
  have hcalls : ∀ node args, Keeps (Nests (fun _ => True) p.maxCallDepth.toNat)
      (p.caller node args) :=
    caller_nests fun ctx => Body.uses_asksHost_true _
  exact (Nests.tolerant.search_keeps hcalls id h).depth

end Platform
end Acpi
