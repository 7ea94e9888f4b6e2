/-
# Callers that agree

Two callers that do the same on every machine of some kind can be exchanged in
everything that is made of calls, as long as calls do not lead out of that kind:
in evaluating nodes, in comparing and finding devices, in the requests of a body
(`Request.perform_agrees`) and so in a body (`Body.run_agrees`).  The bodies of
other methods may be others: they run only when the callers run them.  This
compares runs as a whole, those that end in a fault included.
-/

import Acpi.Proofs.Keeping

namespace Acpi

variable {η ν α β : Type}

open Effect Machine

/-- Computations that do the same on every machine of a kind. -/
def Agrees (kind : Machine η ν → Prop) (act act' : MachineM η ν α) : Prop :=
  ∀ ⦃m⦄, kind m → act m = act' m

namespace Caller

variable {kind : Machine η ν → Prop} {p : Platform η ν}
  {executor : Context → Body ν Unit} {call call' : Caller η ν}

theorem evalNode_agrees (h : ∀ node args, Agrees kind (call node args) (call' node args))
    (node : NodeId) :
    Agrees kind (call.evalNode p node) (call'.evalNode { p with executor } node) := by
  intro m hm
  unfold evalNode
  refine bind_congr_of_ok rfl fun object t ht => ?_
  obtain ⟨-, rfl⟩ := onSpace_eq_ok.1 ht
  cases object
  case method flags body =>
    dsimp only
    split
    · exact h node [] hm
    · rfl
  all_goals rfl

theorem objectMatches_agrees (h : ∀ node args, Agrees kind (call node args) (call' node args))
    (device : NodeId) (name : String) (id : EisaId) :
    Agrees kind (call.objectMatches p device name id)
      (call'.objectMatches { p with executor } device name id) := by
  intro m hm
  unfold objectMatches
  refine bind_congr_of_ok rfl fun found t ht => ?_
  obtain ⟨-, rfl⟩ := onSpace_eq_ok.1 ht
  cases found with
  | none => rfl
  | some node => exact bind_congr_of_ok (evalNode_agrees h node hm) fun _ _ _ => rfl

variable (h : ∀ node args, Agrees kind (call node args) (call' node args))
  (hkeeps : ∀ device name id,
    Keeps (fun m m' => kind m → kind m') (call.objectMatches p device name id))

include h hkeeps

theorem matchesId_agrees (device : NodeId) (id : EisaId) :
    Agrees kind (call.matchesId p device id) (call'.matchesId { p with executor } device id) := by
  intro m hm
  unfold matchesId
  refine bind_congr_of_ok (objectMatches_agrees h device _ id hm) fun matched t ht => ?_
  cases matched with
  | true => rfl
  | false => exact objectMatches_agrees h device _ id (hkeeps _ _ _ ht hm)

theorem findDevices_agrees (id : EisaId) :
    Agrees kind (call.findDevices p id) (call'.findDevices { p with executor } id) := by
  have chain : Chain fun m m' : Machine η ν => kind m → kind m' :=
    ⟨fun _ hm => hm, fun h h' hm => h' (h hm)⟩
  have keep (devices : List NodeId) :
      Agrees kind (call.keepMatching p id devices)
        (call'.keepMatching { p with executor } id devices) := by
    induction devices with
    | nil => exact fun _ _ => rfl
    | cons device rest ih =>
      intro m hm
      simp only [keepMatching]
      refine bind_congr_of_ok (matchesId_agrees h hkeeps device id hm) fun matched t ht => ?_
      have hkind := chain.matchesId_keeps (fun name => hkeeps device name id) ht hm
      exact bind_congr_of_ok (ih hkind) fun _ _ _ => rfl
  intro m hm
  unfold findDevices
  refine bind_congr_of_ok rfl fun devices t ht => ?_
  obtain ⟨-, rfl⟩ := onSpace_eq_ok.1 ht
  exact keep devices hm

end Caller

theorem Request.perform_agrees {kind : Machine η ν → Prop} {p : Platform η ν}
    {executor : Context → Body ν Unit} {call call' : Caller η ν}
    (h : ∀ node args, Agrees kind (call node args) (call' node args))
    (hkeeps : ∀ device name id,
      Keeps (fun m m' => kind m → kind m') (call.objectMatches p device name id))
    (ctx : Context) (r : Request ν) :
    Agrees kind (r.perform p call ctx) (r.perform { p with executor } call' ctx) := by
  intro m hm
  cases r with
  | evalMethod node args => exact bind_congr_of_ok (h node args hm) fun _ _ _ => rfl
  | evalNode node => exact bind_congr_of_ok (Caller.evalNode_agrees h node hm) fun _ _ _ => rfl
  | matchesId device id =>
    exact bind_congr_of_ok (Caller.matchesId_agrees h hkeeps device id hm) fun _ _ _ => rfl
  | findDevices id =>
    exact bind_congr_of_ok (Caller.findDevices_agrees h hkeeps id hm) fun _ _ _ => rfl
  | _ => rfl

/-- **A body does the same with callers that agree**, by induction on its requests, if
nothing leads out of the kind of machines on which they do. -/
theorem Body.run_agrees {kind : Machine η ν → Prop} {p : Platform η ν}
    {executor : Context → Body ν Unit} {call call' : Caller η ν}
    (tolerant : Tolerant p.host (fun _ => True) fun m m' : Machine η ν => kind m → kind m')
    (hcall : ∀ node args, Keeps (fun m m' => kind m → kind m') (call node args))
    (h : ∀ node args, Agrees kind (call node args) (call' node args)) (body : Body ν α)
    (ctx : Context) :
    Agrees kind (body.run p call ctx) (body.run { p with executor } call' ctx) := by
  induction body generalizing ctx with
  | done | fail | fault => exact fun _ _ => rfl
  | ask r next ih =>
    intro m hm
    simp only [run]
    refine bind_congr_of_ok (Request.perform_agrees h (tolerant.objectMatches_keeps hcall) ctx r hm)
      fun answered t ht => ?_
    exact ih answered.1 answered.2 (tolerant.perform_keeps hcall trivial ctx ht hm)

end Acpi
