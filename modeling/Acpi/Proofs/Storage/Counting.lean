/-
# Blocks that are out

The counting host knows how many blocks of storage are out (`Counters.live`).  That is a
measure in which every block weighs one (`Measure.live`), and so values, contexts and
namespaces weigh as much as they have storage.
-/

import Acpi.Bench.CountingHost
import Acpi.Proofs.Storage.Measure

namespace Acpi

variable {ν : Type}

/-- The number of blocks that are out on the counting host. -/
def Measure.live : Measure countingHost ν where
  weigh _ := 1
  out w := w.host.live
  called := by
    intro call w answer state h
    cases call with
    | freeElements elements =>
      simp only [countingHost] at h
      split at h
      · obtain ⟨-, rfl⟩ := Prod.mk.inj (Except.ok.inj h)
        simp [Counters.live, HostCall.gain, HostCall.taken?, HostCall.givenBack?, tally_one]
        omega
      · cases h
    | readOperand operand =>
      cases operand <;>
      · obtain ⟨-, rfl⟩ := Prod.mk.inj (Except.ok.inj h)
        simp [Counters.live, HostCall.gain, HostCall.taken?, HostCall.givenBack?]
    | _ =>
      obtain ⟨-, rfl⟩ := Prod.mk.inj (Except.ok.inj h)
      simp [Counters.live, HostCall.gain, HostCall.taken?, HostCall.givenBack?, tally_one]
      try omega
  log _ _ := rfl
  note _ _ := rfl

@[simp] theorem Measure.weigh_live : (Measure.live (ν := ν)).weigh = fun _ => 1 := rfl

/-- The counting host gives contexts out as they were made. -/
theorem givesEmpty_countingHost : countingHost.GivesEmpty := by
  intro c given state h
  obtain ⟨rfl, -⟩ := Prod.mk.inj (Except.ok.inj h)
  decide

/-- The counting host reads every field unit as an integer. -/
theorem readsBare_countingHost : countingHost.ReadsBare := by
  intro operand c v c' h
  cases operand <;>
  · obtain ⟨rfl, -⟩ := Prod.mk.inj (Except.ok.inj h)
    exact Value.storage_integer _

end Acpi
