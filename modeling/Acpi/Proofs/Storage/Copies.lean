/-
# Deep copies

Putting a copy of one value in the place of another gives all that the old value had
back to the host and makes a value that is equal to the source, but for the references
to buffer fields: these have become the integers that were read there
(`Value.overwrite_deep`).  A copy refers to nothing, so a copy of a copy is equal to it
and takes no further readings.

What a copy takes from the host is what releasing it gives back (`Value.release_copy`):
the same blocks of the same sizes, asked for from the outside to the inside and given
back from the inside to the outside.
-/

import Acpi.Proofs.Storage.Parts
import Acpi.Proofs.Storage.Willing

namespace Acpi
namespace Value

variable {η ν : Type} {host : Host η} {w w' : World η ν} {old source u : Value}

open Effect

/-- What a copy in the place of a value is, and what the host got to do for it. -/
theorem overwrite_cases (h : old.overwrite host source w = .ok (u, w')) :
    ∃ given exchanges w₁, host.askAll old.releaseCalls w = .ok (given, w₁) ∧
      host.askAll source.copyCalls w₁ = .ok (exchanges, w') ∧
      u = source.filled (readings exchanges) := by
  rw [overwrite_eq, bind_eq_ok] at h
  obtain ⟨given, w₁, hrelease, h⟩ := h
  obtain ⟨exchanges, _, hcopy, h⟩ := bind_eq_ok.1 h
  obtain ⟨rfl, rfl⟩ := Prod.mk.inj (pure_eq_ok.1 h)
  exact ⟨given, exchanges, w₁, hrelease, hcopy, rfl⟩

theorem journal_of_overwrite (h : old.overwrite host source w = .ok (u, w')) :
    w'.journal.toList =
      w.journal.toList ++ (old.releaseCalls ++ source.copyCalls).map .host := by
  obtain ⟨given, exchanges, w₁, hrelease, hcopy, -⟩ := overwrite_cases h
  rw [(Host.askAll_cases hcopy).2, (Host.askAll_cases hrelease).2, List.map_append,
    List.append_assoc]

/-- What releasing a value has left and has made the host do. -/
theorem release_cases {left : Value} (h : u.release host w = .ok (left, w')) :
    left = null ∧ w'.journal.toList = w.journal.toList ++ u.releaseCalls.map .host := by
  rw [release_eq] at h
  obtain ⟨exchanges, hask, rfl⟩ := map_eq_ok.1 h
  exact ⟨rfl, (Host.askAll_cases hask).2⟩

/-- A copy has no references to buffer fields. -/
theorem fields_of_overwrite (h : old.overwrite host source w = .ok (u, w')) : u.fields = [] := by
  obtain ⟨left, w₁, -, hcopy⟩ := overwrite_eq_ok.1 h
  exact (fields_eq_nil_iff u).2 (hasReference_of_copy source hcopy)

/-- Of all that is asked for, the buffer fields of the source are all that is read. -/
theorem filter_isRead_overwrite (old source : Value) :
    (old.releaseCalls ++ source.copyCalls).filter HostCall.isRead =
      source.fields.map .readBufferField := by
  have hrelease : old.releaseCalls.filter HostCall.isRead = [] :=
    List.filter_eq_nil_iff.2 fun call hcall hread => by
      have := givesBack_of_mem_releaseCalls old call hcall
      cases call <;> first | exact this | cases hread
  rw [List.filter_append, hrelease, filter_isRead_copyCalls, List.nil_append]

/-- **Copies are deep.**  To put a copy of a value in the place of an old one is to give
the blocks of the old value back, each of them once, and then to ask for what the copy
needs; the copy is the value with what was read, from left to right, in the places of its
references to buffer fields.  These are read once each and in this order, and nothing
else is.  So no references are in the copy; it is equal to a source that has none; and a
copy of the copy, wherever it is put and on whatever host, is equal to it and is made
without reading anything.  A host that refuses only what it may refuse does all this. -/
theorem overwrite_deep (host : Host η) (old source : Value) :
    ((old.overwrite host source : WorldM η ν Value) = do
        let _ ← host.askAll old.releaseCalls
        let exchanges ← host.askAll source.copyCalls
        return source.filled (readings exchanges)) ∧
      old.GivenBackBy old.releaseCalls ∧
      (old.releaseCalls ++ source.copyCalls).filter HostCall.isRead =
        source.fields.map .readBufferField ∧
      (∀ (w w' : World η ν) (u : Value), old.overwrite host source w = .ok (u, w') →
        w'.journal.toList =
            w.journal.toList ++ (old.releaseCalls ++ source.copyCalls).map .host ∧
          u.fields = [] ∧ (source.fields = [] → u = source) ∧
          ∀ {η' : Type} (host' : Host η') (old' u' : Value) (w₁ w₂ : World η' ν),
            old'.overwrite host' u w₁ = .ok (u', w₂) →
              u' = u ∧ ∃ calls : List HostCall,
                w₂.journal.toList = w₁.journal.toList ++ calls.map .host ∧
                  calls.filter HostCall.isRead = []) ∧
      (host.Willing → ∀ w : World η ν, ∃ u w', old.overwrite host source w = .ok (u, w')) := by
  refine ⟨overwrite_eq host old source, givenBackBy_releaseCalls old,
    filter_isRead_overwrite old source, fun w w' u h => ?_, fun willing => willing.overwrite _ _⟩
  obtain ⟨-, exchanges, -, -, -, hu⟩ := overwrite_cases h
  have hfields := fields_of_overwrite h
  refine ⟨journal_of_overwrite h, hfields, fun hsource => ?_, fun host' old' u' w₁ w₂ h' => ?_⟩
  · rw [hu, filled_of_fields_eq_nil source hsource]
  · obtain ⟨-, exchanges', -, -, -, hu'⟩ := overwrite_cases h'
    refine ⟨by rw [hu', filled_of_fields_eq_nil u hfields], _, journal_of_overwrite h', ?_⟩
    rw [filter_isRead_overwrite, hfields, List.map_nil]

/-- A package with packages in it, one of them empty, and with references to buffer
fields at two depths. -/
def mixed : Value :=
  package [integer 1, buffer [0xDE, 0xAD], package [], bufferField ⟨NodeId.first, 8, 8⟩,
    package [string "PNP0A03", package [buffer [], bufferField ⟨NodeId.first, 0, 4⟩]]]

/-- A copy of `mixed` where buffer fields hold `0x5A`, and copies of that copy. -/
theorem overwrite_deep_mixed :
    ∃ (u : Value) (w' : World Counters Unit),
      (buffer [1]).overwrite countingHost mixed ⟨{ Counters.zero with fieldValue := 0x5A }, #[]⟩ =
          .ok (u, w') ∧
        u = package [integer 1, buffer [0xDE, 0xAD], package [], integer 0x5A,
          package [string "PNP0A03", package [buffer [], integer 0x5A]]] ∧
        mixed.fields = [⟨NodeId.first, 8, 8⟩, ⟨NodeId.first, 0, 4⟩] ∧
        ∀ (w₁ w₂ : World Counters Unit) (u' : Value),
          null.overwrite countingHost u w₁ = .ok (u', w₂) → u' = u := by
  obtain ⟨w', h⟩ := exists_eq_ok
    (show (((buffer [1]).overwrite countingHost mixed
        (⟨{ Counters.zero with fieldValue := 0x5A }, #[]⟩ : World Counters Unit)).toOption.map
          Prod.fst) =
      some (package [integer 1, buffer [0xDE, 0xAD], package [], integer 0x5A,
        package [string "PNP0A03", package [buffer [], integer 0x5A]]]) by decide +kernel)
  have hdeep := (overwrite_deep countingHost (buffer [1]) mixed).2.2.2.1 _ _ _ h
  exact ⟨_, w', h, rfl, by decide +kernel, fun w₁ w₂ u' h' => (hdeep.2.2.2 _ _ _ _ _ h').1⟩

/-- **What a copy takes it gives back.**  A copy is the value with what was read in the
places of its references, and only the calls that the value tells are made for it.  The
blocks that are asked for with them are, one for one and size for size, the blocks that are
given back when the copy is released.  They are asked for in the sizes that the parts of
the copy have, packages before their elements, and given back with the elements before the
package.  What has been released once can be released again, with nothing for the host
to do. -/
theorem release_copy (host : Host η) (v : Value) :
    (∀ (w w₁ w₂ w₃ : World η ν) (u left : Value), null.overwrite host v w = .ok (u, w₁) →
      u.release host w₂ = .ok (left, w₃) →
        (∃ exchanges, host.askAll v.copyCalls w = .ok (exchanges, w₁) ∧
          u = v.filled (readings exchanges)) ∧
        w₁.journal.toList = w.journal.toList ++ v.copyCalls.map .host ∧
        w₃.journal.toList = w₂.journal.toList ++ u.releaseCalls.map .host ∧
        (v.copyCalls.filterMap HostCall.taken?).Perm
          (u.releaseCalls.filterMap HostCall.givenBack?) ∧
        u.TakenBy v.copyCalls ∧ u.GivenBackBy u.releaseCalls ∧
        ∀ w : World η ν, left.release host w = .ok (null, w)) ∧
      (host.Willing → ∀ w : World η ν, ∃ u w₁ left w₂,
        null.overwrite host v w = .ok (u, w₁) ∧ u.release host w₁ = .ok (left, w₂)) := by
  refine ⟨fun w w₁ w₂ w₃ u left hcopy hrelease => ?_, fun willing w => ?_⟩
  · obtain ⟨given, exchanges, _, hnothing, hask, rfl⟩ := overwrite_cases hcopy
    -- there is nothing to release before the copy is made
    rw [releaseCalls, Host.askAll] at hnothing
    obtain ⟨-, rfl⟩ := Prod.mk.inj (pure_eq_ok.1 hnothing)
    obtain ⟨rfl, hjournal⟩ := release_cases hrelease
    refine ⟨⟨exchanges, hask, rfl⟩, (Host.askAll_cases hask).2, hjournal, ?_,
      takenBy_copyCalls v _, givenBackBy_releaseCalls _, fun w => ?_⟩
    · rw [← filterMap_taken?_copyCalls_filled v (readings exchanges)]
      exact perm_taken?_givenBack? _
    · rw [release]
      exact pure_eq_ok.2 rfl
  · obtain ⟨u, w₁, hcopy⟩ := willing.overwrite null v w
    obtain ⟨w₂, hrelease⟩ := willing.release u w₁
    exact ⟨u, w₁, null, w₂, hcopy, hrelease⟩

/-- A copy of `mixed` and its release: the calls that were made, and their blocks. -/
theorem release_copy_mixed :
    countingHost.Willing ∧ ∃ (u left : Value) (w₁ w₂ : World Counters Unit)
        (calls givenBack : List HostCall),
      null.overwrite countingHost mixed ⟨{ Counters.zero with fieldValue := 0x5A }, #[]⟩ =
          .ok (u, w₁) ∧
        u.release countingHost w₁ = .ok (left, w₂) ∧
        w₁.journal.toList = calls.map .host ∧
        calls.filterMap HostCall.taken? =
          [.elements 5, .bytes 2, .elements 0, .elements 2, .elements 2, .bytes 0] ∧
        w₂.journal.toList = calls.map .host ++ givenBack.map .host ∧
        givenBack.filterMap HostCall.givenBack? =
          [.bytes 2, .elements 0, .bytes 0, .elements 2, .elements 2, .elements 5] ∧
        ∀ w : World Counters Unit, left.release countingHost w = .ok (null, w) := by
  obtain ⟨w₁, hcopy⟩ := exists_eq_ok
    (show ((null.overwrite countingHost mixed
        (⟨{ Counters.zero with fieldValue := 0x5A }, #[]⟩ : World Counters Unit)).toOption.map
          Prod.fst) = some (mixed.filled [0x5A, 0x5A]) by decide +kernel)
  obtain ⟨w₂, hrelease⟩ := willing_countingHost.release (mixed.filled [0x5A, 0x5A]) w₁
  obtain ⟨-, hcalls, hback, -, -, -, hagain⟩ :=
    (release_copy countingHost mixed).1 _ _ _ _ _ _ hcopy hrelease
  refine ⟨willing_countingHost, _, _, w₁, w₂, mixed.copyCalls,
    (mixed.filled [0x5A, 0x5A]).releaseCalls, hcopy, hrelease, hcalls, by decide +kernel, ?_,
    by decide +kernel, hagain⟩
  rw [hback, hcalls]
  rfl

end Value
end Acpi
