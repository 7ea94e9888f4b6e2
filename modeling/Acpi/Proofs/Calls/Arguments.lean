/-
# What a body sees

The body of an admitted call starts on a context that has been set up for it
(`Context.Entered`): the argument slots hold copies of the arguments, made in their order,
and the other slots are empty if the host gives contexts out empty.  Neither the calls
before nor those in progress have any part in that, as the context is made of what the host
gives out and of the arguments alone (`Platform.entered_of_enter`).

| slot | holds |
| --- | --- |
| argument `i` of an argument given | the copy of argument `i` |
| any other argument, a local, the return slot | nothing |

What the body leaves in the return slot is copied out when it ends, and when it fails, its
error is what the call returns (`Platform.Returns`).  If nothing has been put into the
return slot, what is there at the end is what was there at the start (`Body.get_of_run`).
-/

import Acpi.Proofs.Calls.Refusal
import Acpi.Proofs.Storage.Copies
import Acpi.Proofs.Storage.Counting

namespace Acpi

variable {η ν α : Type}

open Effect Machine

/-- A context as a body first sees it, with copies of the arguments. -/
structure Context.Entered (ctx : Context) (node : NodeId) (body : CodeRange)
    (copies : List Value) : Prop where
  arg : ∀ i : UInt8, i.toNat < maxArgs → ctx.get (.arg i) = .ok (copies.getD i.toNat .null)
  loc : ∀ i : UInt8, i.toNat < maxLocals → ctx.get (.loc i) = .ok .null
  ret : ctx.get .ret = .ok .null
  argCount : ctx.argCount.toNat = copies.length
  scope : ctx.scope = node
  body : ctx.body = body

/-- **Arguments in an empty context**: copies of them in their slots, and nothing in any
other slot. -/
theorem Context.slots_of_bindArgs {host : Host η} {given ctx : Context} {args : List Value}
    {w w' : World η ν} {argCount : UInt8} {scope : NodeId} {body : CodeRange}
    (hempty : given.IsEmpty) (hbound : args.length ≤ maxArgs)
    (h : { given with argCount, scope, body }.bindArgs host 0 args w = .ok (ctx, w')) :
    ∃ exchanges, host.askAll (Value.copyCallsAll args) w = .ok (exchanges, w') ∧
      Value.fieldsAll (Value.filledAll args (readings exchanges)) = [] ∧
      (∀ i : UInt8, i.toNat < maxArgs → ctx.get (.arg i) =
        .ok ((Value.filledAll args (readings exchanges)).getD i.toNat .null)) ∧
      ∀ {slot : Slot} {i : Fin 16}, (∀ k, slot ≠ .arg k) → slot.cell? = some i →
        ctx.get slot = .ok .null := by
  have hnull {slot : Slot} {i : Fin 16} (hslot : slot.cell? = some i) :
      { given with argCount, scope, body }.get slot = .ok .null := hempty.get_eq hslot
  have hnumber (i : Nat) (hi : i < args.length) : (UInt8.ofNat (0 + i)).toNat = i := by
    rw [Slot.toNat_ofNat (by omega), Nat.zero_add]
  obtain ⟨copies, hcopies, hargs⟩ := bindArgs_copies (by omega)
    (fun i hi => hnull (dif_pos (by rw [hnumber i hi]; omega))) h
  have hplain := Value.anyReference_of_copyAll args hcopies
  rw [Value.copyAll_eq] at hcopies
  obtain ⟨exchanges, hask, rfl⟩ := map_eq_ok.1 hcopies
  refine ⟨exchanges, hask, (Value.fieldsAll_eq_nil_iff _).2 hplain, fun i hi => ?_,
    fun hne hslot => ?_⟩
  · rw [List.getD_eq_getElem?_getD]
    cases hcopy : (Value.filledAll args (readings exchanges))[i.toNat]? with
    | some u =>
      have hbinds := hargs i.toNat u hcopy
      rwa [Nat.zero_add, UInt8.ofNat_toNat] at hbinds
    | none =>
      rw [List.getElem?_eq_none_iff, Value.length_filledAll] at hcopy
      rw [get_of_bindArgs_of_ne h fun k hk he => ?_]
      · exact hnull (dif_pos hi)
      · rw [Slot.arg.inj he, hnumber k hk] at hcopy
        exact Nat.not_le.2 hk hcopy
  · exact (get_of_bindArgs_of_ne h fun _ _ => hne _).trans (hnull hslot)

/-! ### Slots that a body leaves alone -/

/-- A request that puts something into a slot. -/
def Request.Sets (slot : Slot) : Request ν → Prop
  | poke target _ | store target _ | copySlot target _ => target = slot
  | _ => False

/-- A slot that nothing is put into holds what it held, a copy made of it or not. -/
theorem Request.get_of_perform {p : Platform η ν} {call : Caller η ν} {ctx ctx' : Context}
    {m m' : Machine η ν} {slot : Slot} {r : Request ν} {answer : r.Answer}
    (hspares : ¬r.Sets slot) (h : r.perform p call ctx m = .ok ((answer, ctx'), m')) :
    ctx'.get slot = ctx.get slot := by
  replace h := Request.perform_eq_ok.1 h
  cases r with
  | poke target v => exact Context.get_of_set_of_ne h.1 fun he => hspares he.symm
  | store target v =>
    obtain ⟨w, hstore, -⟩ := h
    obtain ⟨old, left, -, -, hset⟩ := Context.store_eq_ok.1 hstore
    exact Context.get_of_set_of_ne hset fun he => hspares he.symm
  | copySlot target source =>
    obtain ⟨w, hcopy, -⟩ := h
    rcases Context.copySlot_eq_ok.1 hcopy with ⟨-, rfl, -⟩ | ⟨-, u, -, hinto⟩
    · rfl
    · exact Context.get_of_copyInto_of_ne hinto fun he => hspares he.symm
  | context | space | depth | limit | history => rw [h.2.1]
  | note => rw [h.1]
  | evalMethod | evalNode | matchesId | findDevices => rw [h.2]
  | host | addChild | setObject | release | overwrite =>
    obtain ⟨_, -, rfl, -⟩ := h
    rfl

namespace Body

/-- When the body runs from here, nothing is put into the slot. -/
def Spares (p : Platform η ν) (call : Caller η ν) (slot : Slot) :
    Body ν α → Context → Machine η ν → Prop
  | done _, _, _ | fail _, _, _ | fault _, _, _ => True
  | ask r next, ctx, m => ¬r.Sets slot ∧ ∀ answer ctx' m',
      r.perform p call ctx m = .ok ((answer, ctx'), m') → (next answer).Spares p call slot ctx' m'

/-- **A body leaves alone** the slots that it does not put anything into, by induction on
its requests. -/
theorem get_of_run {p : Platform η ν} {call : Caller η ν} {body : Body ν α}
    {ctx ctx' : Context} {m m' : Machine η ν} {status : Except Error α} {slot : Slot}
    (hspares : body.Spares p call slot ctx m)
    (h : body.run p call ctx m = .ok ((status, ctx'), m')) : ctx'.get slot = ctx.get slot := by
  induction body generalizing ctx m with
  | done result => rw [(run_done_eq_ok.1 h).2.1]
  | fail e => rw [(run_fail_eq_ok.1 h).2.1]
  | fault f => exact absurd h run_fault_eq_ok
  | ask r next ih =>
    obtain ⟨answer, ctx₁, m₁, hperform, hrest⟩ := run_ask_eq_ok.1 h
    exact (ih answer (hspares.2 _ _ _ hperform) hrest).trans
      (Request.get_of_perform hspares.1 hperform)

end Body

namespace Platform

variable {p : Platform η ν} {node : NodeId} {flags : MethodFlags} {body : CodeRange}
  {args : List Value} {m m' : Machine η ν} {w w' : World η ν} {ctx left : Context}
  {status : Except Error Unit} {r : Except Error Value}

/-- **What a context is set up as.**  A context is asked for and the arguments are copied,
from first to last; nothing else is done. -/
theorem entered_of_enter (hempty : p.host.GivesEmpty) (hcount : args.length = flags.argCount.toNat)
    (h : p.enter node flags body args w = .ok (ctx, w')) :
    ∃ exchanges, p.host.askAll (.allocContext :: Value.copyCallsAll args) w =
        .ok (exchanges, w') ∧
      ctx.Entered node body (Value.filledAll args (readings exchanges)) ∧
      Value.fieldsAll (Value.filledAll args (readings exchanges)) = [] := by
  have hsite := site_enter h
  obtain ⟨given, state, hgiven, hbind⟩ := enter_eq_ok.1 h
  have hbound : args.length ≤ maxArgs := by
    have := flags.argCount_lt
    rw [maxArgs]
    omega
  obtain ⟨exchanges, hask, hplain, harg, hother⟩ :=
    Context.slots_of_bindArgs (hempty _ _ _ hgiven) hbound hbind
  -- the context itself is no reading
  have hreadings := readings_cons_of_field?_eq_none
    (show HostCall.allocContext.field? = none from rfl) given exchanges
  refine ⟨⟨.allocContext, given⟩ :: exchanges, ?_, ?_, hreadings ▸ hplain⟩
  · exact bind_eq_ok.2 ⟨given, _, Host.ask_eq_ok.2 ⟨state, hgiven, rfl⟩,
      bind_eq_ok.2 ⟨exchanges, w', hask, pure_eq_ok.2 rfl⟩⟩
  · rw [hreadings]
    refine ⟨harg, fun i hi => hother (by simp) (dif_pos hi), hother (by simp) rfl, ?_,
      congrArg (·.2.1) hsite, congrArg (·.2.2) hsite⟩
    rw [Value.length_filledAll, hcount]
    exact congrArg (·.1.toNat) hsite

/-- What a call returns of a body that has ended or failed, and of the context that is left:
a copy of what is in the return slot, or the same error. -/
def Returns (p : Platform η ν) (left : Context) (w : World η ν) :
    Except Error Unit → Except Error Value → Prop
  | .ok (), r => ∃ held exchanges w', left.get .ret = .ok held ∧
      p.host.askAll held.copyCalls w = .ok (exchanges, w') ∧
      r = .ok (held.filled (readings exchanges))
  | .error e, r => r = .error e

theorem returns_of_leave (h : p.leave status left w = .ok (r, w')) : p.Returns left w status r := by
  obtain ⟨w₁, cleaned, w₂, state, hresult, -⟩ := leave_cases h
  rcases hresult with ⟨rfl, held, v, hret, hcopy, rfl⟩ | ⟨e, rfl, rfl, -⟩
  · rw [Value.copy_eq] at hcopy
    obtain ⟨exchanges, hask, rfl⟩ := map_eq_ok.1 hcopy
    exact ⟨held, exchanges, w₁, hret, hask, rfl⟩
  · rfl

/-- Nothing in the return slot makes for nothing to return. -/
theorem Returns.of_null (h : p.Returns left w (.ok ()) r) (hnull : left.get .ret = .ok .null) :
    r = .ok .null := by
  obtain ⟨held, exchanges, w', hheld, -, rfl⟩ := h
  obtain rfl := Except.ok.inj (hnull.symm.trans hheld)
  rw [Value.filled]

/-- What a call comes to when its body starts on a context and a machine. -/
structure Concludes (p : Platform η ν) (ctx : Context) (start : Machine η ν)
    (x : Except Fault (Except Error Value × Machine η ν)) : Prop where
  /-- A fault of the body, whose calls are of the same kind, is one of the call. -/
  faults : ∀ f, (p.executor ctx).run p p.evalMethod ctx start = .error f → x = .error f
  /-- If the body has ended or failed, that decides what is returned. -/
  returns : ∀ status left m₁,
    (p.executor ctx).run p p.evalMethod ctx start = .ok ((status, left), m₁) →
      ∀ r m', x = .ok (r, m') → p.Returns left m₁.world status r
  /-- If the body has never set the return slot, there is nothing to return. -/
  unset : (p.executor ctx).Spares p p.evalMethod .ret ctx start → ∀ left m₁,
    (p.executor ctx).run p p.evalMethod ctx start = .ok ((.ok (), left), m₁) →
      ∀ r m', x = .ok (r, m') → r = .ok .null
  /-- A host that refuses only what it may refuse lets the call return. -/
  ends : p.host.Willing → ∀ status left m₁,
    (p.executor ctx).run p p.evalMethod ctx start = .ok ((status, left), m₁) →
      ∃ r m', x = .ok (r, m')

/-- **From where its body starts**, an admitted call does what the body does and then
returns. -/
theorem Admits.concludes {name : Segment} (h : p.Admits node args m flags body)
    (henter : p.enter node flags body args m.world = .ok (ctx, w))
    (hret : ctx.get .ret = .ok .null) (hname : m.space.name node = .ok name) :
    p.Concludes ctx ⟨m.space, w.add (.log (.enter name m.depth flags.argCount)), m.depth + 1⟩
      (p.evalMethod node args m) := by
  have hreturns (status : Except Error Unit) (left : Context) (m₁ : Machine η ν)
      (hrun : (p.executor ctx).run p p.evalMethod ctx
        ⟨m.space, w.add (.log (.enter name m.depth flags.argCount)), m.depth + 1⟩ =
          .ok ((status, left), m₁)) (r : Except Error Value) (m' : Machine η ν)
      (hcall : p.evalMethod node args m = .ok (r, m')) : p.Returns left m₁.world status r := by
    rw [h.evalMethod_eq] at hcall
    obtain ⟨ctx', w', name', status', left', m₂, w₁, -, henter', hname', hrun', hleave, -⟩ :=
      invoke_eq_ok.1 hcall
    obtain ⟨rfl, rfl⟩ := Prod.mk.inj (Except.ok.inj (henter.symm.trans henter'))
    obtain rfl := Except.ok.inj (hname.symm.trans hname')
    obtain ⟨⟨rfl, rfl⟩, rfl⟩ : (status = status' ∧ left = left') ∧ m₁ = m₂ := by
      simpa using hrun.symm.trans hrun'
    exact returns_of_leave hleave
  refine ⟨fun f hrun => ?_, hreturns, fun hspares left m₁ hrun r m' hcall => ?_,
    fun willing status left m₁ hrun => ?_⟩
  · rw [h.evalMethod_eq]
    exact invoke_of_run_fault henter hname hrun
  · refine (hreturns _ _ _ hrun _ _ hcall).of_null ?_
    rw [Body.get_of_run hspares hrun, hret]
  · have hnests (node : NodeId) (args : List Value) :=
      p.caller_nests (fun _ => Body.uses_asksHost_true _) node args
    have hkept := (Machine.Nests.tolerant.run_keeps hnests (Body.uses_asksHost_true _) ctx
      hrun).name_eq hname
    obtain ⟨r, w₁, hleave⟩ := willing.leave_ends status left m₁.world
    rw [h.evalMethod_eq]
    exact ⟨r, _, invoke_eq_ok.2 ⟨ctx, w, name, status, left, m₁, w₁, name, henter, hname, hrun,
      hleave, hkept, rfl⟩⟩

/-- **What a body sees, and what a call returns.**  On a host that gives contexts out empty,
an admitted call asks for a context and for copies of its arguments, which read the buffer
fields of all arguments from the first to the last.  Its body sees the copies in the
argument slots, nothing in any other slot, and how it was called.  What it leaves in the
return slot is copied out, or its error is returned.  This is so in every state, so at every
level of nesting and after any calls: the calls of a body are the same calls, and do not
touch its context; and as no body starts on any other context, what bodies would do
elsewhere is of no concern to any evaluation. -/
theorem bodies_see_copies (p : Platform η ν) (hempty : p.host.GivesEmpty) :
    (∀ node args m flags body, p.Admits node args m flags body →
      (p.host.Willing → ∃ ctx w, p.enter node flags body args m.world = .ok (ctx, w)) ∧
      (∀ f, p.enter node flags body args m.world = .error f →
        p.evalMethod node args m = .error f) ∧
      ∀ ctx w, p.enter node flags body args m.world = .ok (ctx, w) → ∃ exchanges name,
        p.host.askAll (.allocContext :: Value.copyCallsAll args) m.world =
            .ok (exchanges, w) ∧
          ctx.Entered node body (Value.filledAll args (readings exchanges)) ∧
          m.space.name node = .ok name ∧
          p.Concludes ctx
            ⟨m.space, w.add (.log (.enter name m.depth flags.argCount)), m.depth + 1⟩
            (p.evalMethod node args m)) ∧
      (∀ args : List Value, (Value.copyCallsAll args).filter HostCall.isRead =
        (Value.fieldsAll args).map .readBufferField) ∧
      (∀ node args ctx m r ctx' m',
        (Request.evalMethod node args).perform p p.evalMethod ctx m = .ok ((r, ctx'), m') ↔
          p.evalMethod node args m = .ok (r, m') ∧ ctx' = ctx) ∧
      ∀ executor, (∀ ctx, (∃ node body copies, ctx.Entered node body copies ∧
          Value.fieldsAll copies = []) → executor ctx = p.executor ctx) →
        ∀ e, { p with executor }.evaluate e = p.evaluate e := by
  refine ⟨fun node args m flags body hadmits => ⟨fun willing => ?_, fun f henter => ?_,
    fun ctx w henter => ?_⟩, Value.filter_isRead_copyCallsAll,
    fun node args ctx m r ctx' m' => Request.perform_eq_ok, fun executor h e => ?_⟩
  · exact willing.enter hadmits.count node body m.world
  · rw [hadmits.evalMethod_eq]
    exact invoke_of_enter_fault henter
  · obtain ⟨name, hname⟩ := Namespace.exists_name_of_object hadmits.object
    obtain ⟨exchanges, hask, hentered, -⟩ := entered_of_enter hempty hadmits.count henter
    exact ⟨exchanges, name, hask, hentered, hname, hadmits.concludes henter hentered.ret hname⟩
  · refine evaluate_congr (fun node flags body args w ctx w' hcount henter => ?_) h e
    obtain ⟨exchanges, -, hentered, hplain⟩ := entered_of_enter hempty hcount henter
    exact ⟨node, body, _, hentered, hplain⟩

/-- A body that returns its first argument. -/
def echo (_ : Context) : Body Unit Unit := Body.request (.copySlot .ret (.arg 0))

/-- A platform on which all methods have that body. -/
def echoes : Platform Counters Unit := ⟨countingHost, echo, 1⟩

/-- A machine with a method of one argument, where buffer fields hold `0x5A`. -/
def echoStart : Machine Counters Unit :=
  start Evaluation.leakSpace { Counters.zero with fieldValue := 0x5A }

/-- The method is called with `Value.mixed` and returns what it sees. -/
theorem bodies_see_copies_echo :
    countingHost.GivesEmpty ∧
      echoes.Admits ⟨1⟩ [Value.mixed] echoStart (MethodFlags.make 1 false 0) ⟨0, 0⟩ ∧
      ∃ ctx w m', echoes.enter ⟨1⟩ (MethodFlags.make 1 false 0) ⟨0, 0⟩ [Value.mixed]
            echoStart.world = .ok (ctx, w) ∧
          ctx.Entered ⟨1⟩ ⟨0, 0⟩ [Value.mixed.filled [0x5A, 0x5A]] ∧
          echoes.evalMethod ⟨1⟩ [Value.mixed] echoStart =
            .ok (.ok (Value.mixed.filled [0x5A, 0x5A]), m') := by
  have hadmits : echoes.Admits ⟨1⟩ [Value.mixed] echoStart (MethodFlags.make 1 false 0) ⟨0, 0⟩ :=
    ⟨rfl, rfl, by decide⟩
  obtain ⟨hcalls, -⟩ := bodies_see_copies echoes givesEmpty_countingHost
  obtain ⟨hsets, -, hruns⟩ := hcalls _ _ _ _ _ hadmits
  obtain ⟨ctx, w, henter⟩ := hsets willing_countingHost
  obtain ⟨exchanges, name, hask, hentered, -, -⟩ := hruns ctx w henter
  have hread : ((echoes.host.askAll (.allocContext :: Value.copyCallsAll [Value.mixed])
      echoStart.world).toOption.map fun r => readings r.1) = some [0x5A, 0x5A] := by
    decide +kernel
  rw [hask] at hread
  have hreadings : readings exchanges = [0x5A, 0x5A] := Option.some.inj hread
  obtain ⟨m', hcall⟩ := exists_eq_ok
    (show (echoes.evalMethod ⟨1⟩ [Value.mixed] echoStart).toOption.map Prod.fst =
      some (.ok (Value.mixed.filled [0x5A, 0x5A])) by decide +kernel)
  rw [hreadings] at hentered
  exact ⟨givesEmpty_countingHost, hadmits, ctx, w, m', henter, hentered, hcall⟩

end Platform
end Acpi
