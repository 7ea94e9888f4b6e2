/-
# What is written down when values move

The journal only grows (`World.Grows`).  Copying and releasing values, and the
operations on slots that are made of them, write down nothing but housekeeping:
calls that give storage out or take it back, and reads of fields.  Elements that
are taken back are all empty.
-/

import Acpi.Machine.Caller
import Acpi.Proofs.Storage.Transfer

namespace Acpi

variable {η ν : Type}

open Effect

/-- The journal has grown by entries of a kind. -/
def World.Grows (kind : Entry ν → Prop) (w w' : World η ν) : Prop :=
  ∃ new, w'.journal.toList = w.journal.toList ++ new ∧ ∀ e ∈ new, kind e

/-- The calls to the host that are made when values are copied and released. -/
def Entry.Housekeeping : Entry ν → Prop
  | host (.allocBytes _) | host (.allocElements _) | host (.freeBytes _) => True
  | host (.freeElements elements) => ∀ v ∈ elements, v = .null
  | host (.readBufferField _) | host (.readOperand _) => True
  | _ => False

namespace World.Grows

variable {kind : Entry ν → Prop} {w w₁ w' : World η ν}

theorem refl (w : World η ν) : w.Grows kind w :=
  ⟨[], (List.append_nil _).symm, fun _ he => absurd he List.not_mem_nil⟩

theorem trans (h : w.Grows kind w₁) (h' : w₁.Grows kind w') : w.Grows kind w' := by
  obtain ⟨new, hnew, hkind⟩ := h
  obtain ⟨new', hnew', hkind'⟩ := h'
  refine ⟨new ++ new', by rw [hnew', hnew, List.append_assoc], fun e he => ?_⟩
  exact (List.mem_append.1 he).elim (hkind e) (hkind' e)

theorem called (w : World η ν) {call : HostCall} (state : η) (h : kind (.host call)) :
    w.Grows kind (w.called call state) :=
  ⟨[.host call], journal_called .., fun _ he => List.mem_singleton.1 he ▸ h⟩

theorem mono {kind' : Entry ν → Prop} (h : w.Grows kind w') (himp : ∀ e, kind e → kind' e) :
    w.Grows kind' w' := by
  obtain ⟨new, hnew, hkind⟩ := h
  exact ⟨new, hnew, fun e he => himp e (hkind e he)⟩

theorem add (w : World η ν) {entry : Entry ν} (h : kind entry) : w.Grows kind (w.add entry) :=
  ⟨[entry], journal_add .., fun _ he => List.mem_singleton.1 he ▸ h⟩

/-- What has grown in two steps by entries of a kind has done so in each of them. -/
theorem split {kind' kind'' : Entry ν → Prop} (h : w.Grows kind' w₁) (h' : w₁.Grows kind'' w')
    (hall : w.Grows kind w') : w.Grows kind w₁ ∧ w₁.Grows kind w' := by
  obtain ⟨new, hnew, -⟩ := h
  obtain ⟨new', hnew', -⟩ := h'
  obtain ⟨all, hall, hkind⟩ := hall
  obtain rfl : all = new ++ new' := by
    rw [hnew', hnew, List.append_assoc] at hall
    exact (List.append_cancel_left hall).symm
  exact ⟨⟨new, hnew, fun e he => hkind e (List.mem_append_left _ he)⟩,
    ⟨new', hnew', fun e he => hkind e (List.mem_append_right _ he)⟩⟩

end World.Grows

namespace Value

variable {host : Host η}

mutual

theorem grows_of_release : (v : Value) → {w w' : World η ν} → {left : Value} →
    release host v w = .ok (left, w') → w.Grows Entry.Housekeeping w'
  | null, w, w', left, h | integer _, w, w', left, h | string _, w, w', left, h
  | bufferField _, w, w', left, h => by
    obtain ⟨rfl, rfl⟩ := Prod.mk.inj (pure_eq_ok.1 (by simpa only [release] using h))
    exact .refl _
  | buffer _, w, w', left, h => by
    obtain ⟨state, -, -, rfl⟩ := release_buffer_eq_ok.1 h
    exact .called w state trivial
  | package elements, w, w', left, h => by
    obtain ⟨cleaned, w₁, state, hall, -, -, rfl⟩ := release_package_eq_ok.1 h
    refine (grows_of_releaseAll elements hall).trans (.called w₁ state ?_)
    rw [left_of_releaseAll hall]
    exact fun v hv => List.eq_of_mem_replicate hv

theorem grows_of_releaseAll : (vs : List Value) → {w w' : World η ν} → {left : List Value} →
    releaseAll host vs w = .ok (left, w') → w.Grows Entry.Housekeeping w'
  | [], w, w', left, h => by
    obtain ⟨-, rfl⟩ := releaseAll_nil_eq_ok.1 h
    exact .refl _
  | v :: vs, w, w', left, h => by
    obtain ⟨u, us, w₁, hv, hvs, -⟩ := releaseAll_cons_eq_ok.1 h
    exact (grows_of_release v hv).trans (grows_of_releaseAll vs hvs)

end

mutual

theorem grows_of_copy : (v : Value) → {w w' : World η ν} → {u : Value} →
    copy host v w = .ok (u, w') → w.Grows Entry.Housekeeping w'
  | null, w, w', u, h | integer _, w, w', u, h | string _, w, w', u, h => by
    obtain ⟨rfl, rfl⟩ := Prod.mk.inj (pure_eq_ok.1 (by simpa only [copy] using h))
    exact .refl _
  | buffer _, w, w', u, h => by
    obtain ⟨_, state, -, -, rfl⟩ := copy_buffer_eq_ok.1 h
    exact .called w state trivial
  | bufferField _, w, w', u, h => by
    obtain ⟨_, state, -, -, rfl⟩ := copy_bufferField_eq_ok.1 h
    exact .called w state trivial
  | package elements, w, w', u, h => by
    obtain ⟨_, state, copies, -, hall, -⟩ := copy_package_eq_ok.1 h
    exact (World.Grows.called w state trivial).trans (grows_of_copyAll elements hall)

theorem grows_of_copyAll : (vs : List Value) → {w w' : World η ν} → {us : List Value} →
    copyAll host vs w = .ok (us, w') → w.Grows Entry.Housekeeping w'
  | [], w, w', us, h => by
    obtain ⟨-, rfl⟩ := copyAll_nil_eq_ok.1 h
    exact .refl _
  | v :: vs, w, w', us, h => by
    obtain ⟨u, us, w₁, hv, hvs, -⟩ := copyAll_cons_eq_ok.1 h
    exact (grows_of_copy v hv).trans (grows_of_copyAll vs hvs)

end

theorem grows_of_overwrite {old source u : Value} {w w' : World η ν}
    (h : old.overwrite host source w = .ok (u, w')) : w.Grows Entry.Housekeeping w' := by
  obtain ⟨left, w₁, hrelease, hcopy⟩ := overwrite_eq_ok.1 h
  exact (grows_of_release old hrelease).trans (grows_of_copy source hcopy)

end Value

namespace Context

variable {host : Host η} {w w' : World η ν} {ctx ctx' : Context} {slot : Slot} {v : Value}

theorem grows_of_store (h : ctx.store host slot v w = .ok (ctx', w')) :
    w.Grows Entry.Housekeeping w' := by
  obtain ⟨old, left, -, hrelease, -⟩ := store_eq_ok.1 h
  exact Value.grows_of_release old hrelease

theorem grows_of_copyInto (h : ctx.copyInto host slot v w = .ok (ctx', w')) :
    w.Grows Entry.Housekeeping w' := by
  obtain ⟨old, u, -, hover, -⟩ := copyInto_eq_ok.1 h
  exact Value.grows_of_overwrite hover

theorem grows_of_copySlot {source : Slot} (h : ctx.copySlot host slot source w = .ok (ctx', w')) :
    w.Grows Entry.Housekeeping w' := by
  rcases copySlot_eq_ok.1 h with ⟨-, -, rfl⟩ | ⟨-, u, -, hcopy⟩
  · exact .refl w'
  · exact grows_of_copyInto hcopy

theorem grows_of_bindArgs {first : Nat} {args : List Value}
    (h : ctx.bindArgs host first args w = .ok (ctx', w')) : w.Grows Entry.Housekeeping w' := by
  induction args generalizing ctx w first with
  | nil =>
    obtain ⟨-, rfl⟩ := Prod.mk.inj (pure_eq_ok.1 (by simpa only [bindArgs] using h))
    exact .refl w'
  | cons arg rest ih =>
    obtain ⟨ctx₁, w₁, hcopy, hrest⟩ := bindArgs_cons_eq_ok.1 h
    exact (grows_of_copyInto hcopy).trans (ih hrest)

theorem grows_of_clean (h : ctx.clean host w = .ok (ctx', w')) : w.Grows Entry.Housekeeping w' :=
  Value.grows_of_releaseAll _ (clean_eq_ok.1 h).2

end Context

theorem Caller.grows_of_readUnit {p : Platform η ν} {operand : Operand} {w w' : World η ν}
    {v : Value} (h : readUnit p operand w = .ok (v, w')) : w.Grows Entry.Housekeeping w' := by
  rw [readUnit, bind_eq_ok] at h
  obtain ⟨held, _, hask, h⟩ := h
  obtain ⟨state, -, rfl⟩ := Host.ask_eq_ok.1 hask
  simp only [bind_eq_ok, pure_eq_ok] at h
  obtain ⟨_, w₁, hcopy, left, _, hrelease, h⟩ := h
  obtain ⟨-, rfl⟩ := Prod.mk.inj h
  exact ((World.Grows.called w state trivial).trans (Value.grows_of_copy held hcopy)).trans
    (Value.grows_of_release held hrelease)

end Acpi
