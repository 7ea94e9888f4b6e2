/-
# What storage held before

Storage that the host gives out may hold anything.  Copies are made in storage that
has been cleared, so what it held is never seen again: not in a copy at any depth, not
in an argument or a result, not in a comparison of devices, and not in what is shown
to the host when storage goes back.  Hosts that differ in nothing but this
(`HostCall.SameButStorage`) make for the same runs, those that stop with a fault
included (`Embedding.residue_unseen`).

A body that asks the host for storage on its own can see what is in it, so bodies are
to get storage only through the interpreter (`Body.TakesNoStorage`).  They are then
blind to the difference.
-/

import Acpi.Bench.TableHost
import Acpi.Proofs.Storage.Returns

namespace Acpi

variable {η η' ν α : Type}

open Effect Machine

namespace HostCall

/-- A call that is answered with storage. -/
def GivesStorage : HostCall → Prop
  | allocBytes _ | allocElements _ => True
  | _ => False

/-- Answers that differ at most in what storage holds. -/
def SameButStorage : (call : HostCall) → call.Answer → call.Answer → Prop
  | allocBytes _, _, _ | allocElements _, _, _ => True
  | _, answer, answer' => answer = answer'

theorem SameButStorage.indistinct {call : HostCall} {answer answer' : call.Answer}
    (h : call.SameButStorage answer answer') : call.Indistinct answer answer' := by
  cases call <;> first | exact trivial | exact h ▸ .refl _

/-- Answers other than storage do not differ. -/
theorem SameButStorage.eq {call : HostCall} (hcall : ¬call.GivesStorage)
    {answer answer' : call.Answer} (h : call.SameButStorage answer answer') :
    answer = answer' := by
  cases call <;> first | exact absurd trivial hcall | exact h

end HostCall

namespace Body

/-- A body that does not ask the host for storage on its own. -/
def TakesNoStorage : Body ν α → Prop := Uses (Request.AsksHost fun call => ¬call.GivesStorage)

/-- Whoever asks for no storage sees none. -/
theorem TakesNoStorage.blind {body : Body ν α} (h : body.TakesNoStorage) :
    body.Blind HostCall.SameButStorage :=
  blind_of_uses HostCall.SameButStorage.eq h

end Body

/-- Hosts that differ in what storage holds when they give it out. -/
def Likeness.butStorage {host : Host η} {host' : Host η'} (states : η → η' → Prop)
    (h : ∀ call state state', states state state' →
      EndAlike call.SameButStorage states (host call state) (host' call state')) :
    Likeness host host' where
  states := states
  answers := HostCall.SameButStorage
  allowed _ := True
  alike call _ := h call
  indistinct _ _ _ := HostCall.SameButStorage.indistinct
  clean _ _ := trivial

namespace Embedding

/-- **What storage held before is never seen.**  Let neither an embedding nor the bodies
that it runs ask the host for storage on their own.  On hosts that differ at most in
what storage holds when it is given out, all runs are alike: they stop with the same
fault, or they give the same result, with the same values in the slots of the context,
and leave the same namespace and the same journal behind, the bytes included that are
shown to the host when a buffer goes back.  If the hosts are the same otherwise, there
is no difference at all. -/
theorem residue_unseen (p : Platform η ν) (hbodies : ∀ ctx, (p.executor ctx).TakesNoStorage)
    (e : Embedding ν α) (he : e.All Body.TakesNoStorage) (ctx : Context) :
    (∀ (η' : Type) (host' : Host η') (states : η → η' → Prop),
        (∀ call state state', states state state' →
          EndAlike call.SameButStorage states (p.host call state) (host' call state')) →
        RunAlike (Machine.Alike states) Eq (e.run p ctx) (e.run (p.on host') ctx)) ∧
      ∀ host' : Host η,
        (∀ call state, EndAlike call.SameButStorage Eq (p.host call state) (host' call state)) →
        e.run (p.on host') ctx = e.run p ctx := by
  have halike {η' : Type} {host' : Host η'} (states : η → η' → Prop)
      (h : ∀ call state state', states state state' →
        EndAlike call.SameButStorage states (p.host call state) (host' call state')) :
      RunAlike (Machine.Alike states) Eq (e.run p ctx) (e.run (p.on host') ctx) :=
    (Likeness.butStorage states h).embedding (fun ctx => (p.executor ctx).uses_asksHost_true)
      (fun ctx => (hbodies ctx).blind) (all_of_forall Body.uses_asksHost_true e)
      (he.mono fun _ => Body.TakesNoStorage.blind) ctx
  refine ⟨fun η' host' states h => halike states h, fun host' h => ?_⟩
  have hsame : RunAlike (Machine.Alike Eq) Eq (e.run p ctx) (e.run (p.on host') ctx) := by
    refine halike Eq ?_
    rintro call state _ rfl
    exact h call state
  exact (hsame.eq (fun _ => ⟨rfl, ⟨rfl, rfl⟩, rfl⟩) fun _ _ => Machine.Alike.eq).symm

/-- Tables of which nothing is used but the storage. -/
def storageTables (dirty : Bool) : HostTables := ⟨dirty, [], [], []⟩

/-- Dirty storage makes no difference to `keepTwice`, which gets its package out of it. -/
theorem residue_unseen_keepTwice :
    (∀ ctx, (keeper ctx).TakesNoStorage) ∧ keepTwice.All Body.TakesNoStorage ∧
      (∀ call state, EndAlike call.SameButStorage Eq ((storageTables false).host call state)
        ((storageTables true).host call state)) ∧
      (storageTables false).host (.allocBytes 3) () ≠ (storageTables true).host (.allocBytes 3) () ∧
      ∃ m', keepTwice.run ⟨(storageTables false).host, keeper, 2⟩ Context.fresh
          (start keeperSpace ()) =
            .ok ((.ok (.ok (.package [.buffer [1, 2, 3]])), Context.fresh), m') ∧
        keepTwice.run ⟨(storageTables true).host, keeper, 2⟩ Context.fresh
          (start keeperSpace ()) =
            .ok ((.ok (.ok (.package [.buffer [1, 2, 3]])), Context.fresh), m') := by
  have hhosts (call : HostCall) (state : Unit) : EndAlike call.SameButStorage Eq
      ((storageTables false).host call state) ((storageTables true).host call state) := by
    cases call with
    | allocBytes | allocElements => exact .ok trivial rfl
    | _ => exact .refl _
  obtain ⟨m', h⟩ := exists_eq_ok
    (show ((keepTwice.run (⟨(storageTables false).host, keeper, 2⟩ : Platform Unit Unit)
        Context.fresh (start keeperSpace ())).toOption.map Prod.fst) =
      some (.ok (.ok (.package [.buffer [1, 2, 3]])), Context.fresh) by decide +kernel)
  have hsame := (residue_unseen (⟨(storageTables false).host, keeper, 2⟩ : Platform Unit Unit)
    (uses_keeper _) keepTwice (uses_keepTwice _) Context.fresh).2 _ hhosts
  exact ⟨uses_keeper _, uses_keepTwice _, hhosts, by decide, m', h, hsame ▸ h⟩

end Embedding
end Acpi
