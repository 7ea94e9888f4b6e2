/-
# The storage ledger

On the counting host every block that is out is accounted for: it belongs to a
named value of the namespace, to a slot of a context in progress, or to a value
that somebody holds.  What is out beyond that is the balance of the account, and
no operation changes it (`Account.balance_of_step`): neither the operations of
an embedding between evaluations, nor those of frugal bodies while they run, nor
the entering and leaving of methods itself.

The bodies have to be frugal wherever something is true of the namespace that no
operation makes false (`Namespace.Lasting`).  If nothing is asked of the namespace,
this is about every session; if more is asked, about every session that begins where
it is true.
-/

import Acpi.Machine.Shutdown
import Acpi.Proofs.Storage.Counting
import Acpi.Proofs.Storage.Standing
import Mathlib.Logic.Relation

namespace Acpi

variable {ν : Type}

open Effect Machine

/-- The blocks that are out and belong to no named value. -/
def Machine.standing (m : Machine Counters ν) : Int := m.world.host.live - m.space.storage

/-- The storage of a result: that of the value, none if there is an error. -/
def stored : Except Error Value → Nat
  | .ok v => v.storage
  | .error _ => 0

theorem Machine.standing_eq (m : Machine Counters ν) : m.standing = Measure.live.standing m := by
  rw [standing, ← Namespace.tally_one_demand]
  rfl

theorem stored_eq (r : Except Error Value) :
    stored r = tally (fun _ => 1) (Measure.resultDemand r) := by
  cases r with
  | ok v => exact v.tally_one_demand.symm
  | error e => rfl

/-- A moment of a session: the machine, the context of whoever acts, the
contexts of those who wait for them, and the values that any of them holds. -/
structure Account (ν : Type) where
  machine : Machine Counters ν
  context : Context
  waiting : List Context
  held : List Value

namespace Account

/-- The blocks that are out beyond those of the named values, of the values held
and of the contexts in progress. -/
def balance (a : Account ν) : Int :=
  a.machine.world.host.live - a.machine.space.storage - Value.storageAll a.held -
    (a.context.storage + (a.waiting.map Context.storage).sum : Nat)

/-- How calls are made: by the embedding at the depth it is at, by a body with
the levels that are left to it. -/
def Calls (p : Platform Counters ν) (call : Caller Counters ν) : Prop :=
  call = p.caller ∨ ∃ room, call = p.callWithin room

/-- One operation of a session. -/
inductive Step (p : Platform Counters ν) : Account ν → Account ν → Prop
  /-- A request, of the embedding or of the body that runs. -/
  | ask {a : Account ν} {call : Caller Counters ν} {r : Request ν} {answer : r.Answer}
      {context : Context} {machine : Machine Counters ν} (calls : Calls p call)
      (owned : r.Owned a.held)
      (done : r.perform p call a.context a.machine = .ok ((answer, context), machine)) :
      Step p a { a with machine, context, held := r.heldAfter a.held answer }
  /-- Setting up the context of a method that is called. -/
  | enter {a : Account ν} {node : NodeId} {flags : MethodFlags} {body : CodeRange}
      {args : List Value} {context : Context} {world : World Counters ν} {name : Segment}
      (done : p.enter node flags body args a.machine.world = .ok (context, world)) :
      Step p a
        { a with
          machine := ⟨a.machine.space,
            world.add (.log (.enter name a.machine.depth flags.argCount)), a.machine.depth + 1⟩
          context, waiting := a.context :: a.waiting }
  /-- Handing the context of a method back; its value goes to whoever called. -/
  | leave {a : Account ν} {outer : Context} {rest : List Context} {status : Except Error Unit}
      {result : Except Error Value} {world : World Counters ν} {record : LogRecord}
      (calledBy : a.waiting = outer :: rest)
      (done : p.leave status a.context a.machine.world = .ok (result, world)) :
      Step p a
        { machine := ⟨a.machine.space, world.add (.log record), a.machine.depth - 1⟩
          context := outer, waiting := rest
          held := result.toOption.toList ++ a.held }
  /-- Shutting the interpreter down and starting another one over what is left. -/
  | shutdown {a : Account ν} {machine : Machine Counters ν}
      (done : p.shutdown a.machine = .ok ((), machine)) :
      Step p a { a with machine := { machine with depth := 0 } }

end Account

namespace Measure

variable {η : Type} {p : Platform η ν} {M : Measure p.host ν} {good : Namespace → Prop}

/-- At shutdown a named value takes its blocks with it. -/
theorem releaseName_settles (lasting : Namespace.Lasting good) (node : NodeId) :
    Keeps (M.Settles good) (p.releaseName node) := by
  intro m released m' h hm
  rcases Platform.releaseName_cases h with
    ⟨-, value, left, w, space, hobject, hrelease, hset, rfl⟩ | ⟨-, rfl⟩
  · have h₁ := M.release hrelease
    obtain rfl := Value.left_of_release hrelease
    have h₂ := Namespace.tally_setObject M.weigh hobject hset
    refine ⟨lasting.release hm hobject hset, ?_⟩
    simp only [standing, Object.demand, Value.demand_null, tally_nil] at h₂ ⊢
    omega
  · exact ⟨hm, rfl⟩

theorem shutdown_settles (lasting : Namespace.Lasting good) :
    Keeps (M.Settles good) p.shutdown :=
  settles_chain.shutdown_keeps (releaseName_settles lasting) fun m count =>
    settles_logged m (.released count)

end Measure

namespace Account

/-- The balance is what is out beyond the named values, everybody's context, and what
is held. -/
theorem balance_eq (a : Account ν) :
    a.balance = Measure.live.surplus a.machine a.context a.held -
      ((a.waiting.map Context.storage).sum : Nat) := by
  rw [balance, Measure.surplus, ← standing_eq, standing, Measure.weigh_live,
    Context.tally_one_demand, Value.tally_one_demandAll]
  omega

variable {p : Platform Counters ν} {good : Namespace → Prop} {a b : Account ν}

/-- **Every run of a frugal body is a session.** -/
theorem session_of_run {α : Type} {call : Caller Counters ν} (calls : Calls p call)
    {body : Body ν α} {held : List Value} {ctx ctx' : Context} {m m' : Machine Counters ν}
    {status : Except Error α} (hfrugal : body.Frugal p call held ctx m)
    (h : body.run p call ctx m = .ok ((status, ctx'), m')) (waiting : List Context) :
    ∃ held', Value.storageAll held' = 0 ∧
      Relation.ReflTransGen (Step p) ⟨m, ctx, waiting, held⟩ ⟨m', ctx', waiting, held'⟩ := by
  induction body generalizing held ctx m with
  | done result =>
    obtain ⟨-, rfl, rfl⟩ := Body.run_done_eq_ok.1 h
    exact ⟨held, hfrugal, .refl⟩
  | fail e =>
    obtain ⟨-, rfl, rfl⟩ := Body.run_fail_eq_ok.1 h
    exact ⟨held, hfrugal, .refl⟩
  | fault f => exact absurd h Body.run_fault_eq_ok
  | ask r next ih =>
    obtain ⟨answer, ctx₁, m₁, hperform, hrest⟩ := Body.run_ask_eq_ok.1 h
    obtain ⟨howned, hnext⟩ := hfrugal
    obtain ⟨held', hnothing, hsession⟩ := ih answer (hnext _ _ _ hperform) hrest
    exact ⟨held', hnothing, .head (.ask calls howned hperform) hsession⟩

/-- However a call is made, it adds the blocks of its value. -/
theorem Calls.adds {executor : Context → Body ν Unit} {limit : UInt64}
    (lasting : Namespace.Lasting good)
    (hfrugal : Platform.Frugal ⟨countingHost, executor, limit⟩ good) {call : Caller Counters ν}
    (calls : Calls ⟨countingHost, executor, limit⟩ call) (node : NodeId) (args : List Value) :
    Measure.Adds (p := ⟨countingHost, executor, limit⟩) .live good (call node args)
      Measure.resultDemand := by
  rcases calls with rfl | ⟨room, rfl⟩
  · exact Measure.caller_adds givesEmpty_countingHost readsBare_countingHost lasting hfrugal node
      args
  · exact Measure.callWithin_adds givesEmpty_countingHost readsBare_countingHost lasting hfrugal
      room node args

/-- **No operation changes the balance**, and what is true of the namespace stays true. -/
theorem balance_of_step (hp : p.host = countingHost) (lasting : Namespace.Lasting good)
    (hfrugal : p.Frugal good) (hgood : good a.machine.space) (h : Step p a b) :
    good b.machine.space ∧ b.balance = a.balance := by
  obtain ⟨_, executor, limit⟩ := p
  obtain rfl := hp
  cases h with
  | ask calls owned done =>
    obtain ⟨hgood', h₁⟩ := Measure.surplus_perform lasting (calls.adds lasting hfrugal)
      (readsBare_countingHost.request _ _) owned hgood done
    refine ⟨hgood', ?_⟩
    simp only [balance_eq, h₁]
  | enter done =>
    have h₁ := (Measure.live.enter done).2 givesEmpty_countingHost
    refine ⟨hgood, ?_⟩
    simp only [balance_eq, Measure.surplus, Measure.standing, Measure.live.log, Measure.weigh_live,
      Context.tally_one_demand, List.map_cons, List.sum_cons] at h₁ ⊢
    omega
  | @leave outer rest status result world record calledBy done =>
    have h₁ := Measure.live.leave done
    refine ⟨hgood, ?_⟩
    simp only [balance_eq, Measure.surplus, Measure.standing, Measure.tally_takeOver,
      Measure.live.log, Measure.weigh_live, Context.tally_one_demand, calledBy, List.map_cons,
      List.sum_cons] at h₁ ⊢
    omega
  | shutdown done =>
    obtain ⟨hgood', h₁⟩ := Measure.shutdown_settles (M := .live) lasting done hgood
    refine ⟨hgood', ?_⟩
    simp only [balance_eq, Measure.surplus, Measure.standing] at h₁ ⊢
    omega

/-- **The storage ledger.**  With frugal bodies on the counting host the balance
is the same at every moment of every session, inside of evaluations and between
them.  In particular an evaluation leaves exactly the storage of its value with
whoever asked for it, and none when it fails. -/
theorem balance_of_session (hp : p.host = countingHost) (lasting : Namespace.Lasting good)
    (hfrugal : p.Frugal good) :
    (∀ a b, good a.machine.space → Relation.ReflTransGen (Step p) a b →
        b.balance = a.balance) ∧
      (∀ node args m r m', good m.space → p.evalMethod node args m = .ok (r, m') →
        m'.standing = m.standing + stored r) ∧
      ∀ node m r m', good m.space → p.evalNode node m = .ok (r, m') →
        m'.standing = m.standing + stored r := by
  have hsession {a b : Account ν} (hgood : good a.machine.space)
      (h : Relation.ReflTransGen (Step p) a b) :
      good b.machine.space ∧ b.balance = a.balance := by
    induction h with
    | refl => exact ⟨hgood, rfl⟩
    | tail _ hstep ih =>
      obtain ⟨hgood', h₁⟩ := balance_of_step hp lasting hfrugal ih.1 hstep
      exact ⟨hgood', h₁.trans ih.2⟩
  refine ⟨fun a b hgood h => (hsession hgood h).2, ?_⟩
  obtain ⟨_, executor, limit⟩ := p
  obtain rfl := hp
  have hcaller := Calls.adds lasting hfrugal (.inl rfl)
  simp only [standing_eq, stored_eq]
  exact ⟨fun node args m r m' hgood h => (hcaller node args hgood h).2, fun node m r m' hgood h =>
    (Measure.evalNode hcaller (fun _ _ _ => readsBare_countingHost) hgood h).2⟩

/-- The body of `keeper`, after a call of the first node.  That is a scope, and nothing
comes of calling it. -/
def stumbler (ctx : Context) : Body Unit Unit := do
  let _nothing ← Body.request (.evalMethod .first [])
  keeper ctx

/-- Calls the method of `stumbler` and files what it returns in the namespace. -/
def stow : Body Unit Unit := do
  match ← Body.request (.evalMethod ⟨1⟩ []) with
  | .ok value =>
    let _node ← Body.request (.addChild .first ⟨0x4B, 0x45, 0x50, 0x54⟩ (.name value))
  | .error e => .fail e

/-- The first node stays a scope. -/
theorem lasting_scope : Namespace.Lasting fun ns => ns.object .first = .ok .scope where
  addChild hscope h := by
    obtain ⟨-, -, -, -, hobjects, -⟩ := Namespace.addChild_cases h
    rw [Namespace.object_eq_ok_iff] at hscope ⊢
    rw [hobjects, List.getElem?_append_left (List.getElem?_eq_some_iff.1 hscope).1, hscope]
  release {ns ns' node value} hscope hobject h := by
    obtain ⟨-, -, -, hobjects, -⟩ := Namespace.setObject_cases h
    have hne : node.index ≠ NodeId.first.index := fun hsame => by
      rw [show node = .first from congrArg NodeId.mk hsame, hscope] at hobject
      cases hobject
    rw [Namespace.object_eq_ok_iff] at hscope ⊢
    rw [hobjects, List.getElem?_set_ne hne, hscope]

/-- As long as the first node is a scope, the body of `stumbler` is frugal, though it drops
what comes of a call. -/
theorem frugal_stumbler {p : Platform Counters Unit} (hp : p.executor = stumbler) :
    p.Frugal fun ns => ns.object .first = .ok .scope := by
  intro room ctx m hscope
  rw [hp]
  refine ⟨trivial, fun answer ctx' m' h => ?_⟩
  obtain ⟨hcall, -⟩ := Request.perform_eq_ok.1 h
  rcases Platform.callWithin_cases hcall with ⟨e, rfl, -⟩ | ⟨_, _, _, -, hmethod, -⟩
  · exact frugal_keeper p _ ctx ctx' m'
  · cases hscope.symm.trans hmethod

theorem frugal_stow (p : Platform Counters Unit) (call : Caller Counters Unit) (ctx : Context)
    (m : Machine Counters Unit) : stow.Frugal p call [] ctx m := by
  refine ⟨trivial, fun answer _ _ _ => ?_⟩
  cases answer with
  | ok value =>
    refine ⟨.inl (List.mem_cons_self ..), fun _ _ _ _ => ?_⟩
    simp only [Request.heldAfter, List.erase_cons_head]
    rfl
  | error e => rfl

/-- Of all that two nested calls of `stumbler` put out, the two blocks of the value that
they return are left in the end.  Filed in the namespace they stay out, and at shutdown
they come back. -/
theorem balance_of_session_keeper :
    ∃ (m : Machine Counters Unit) (a b : Account Unit),
      (⟨countingHost, stumbler, 2⟩ : Platform Counters Unit).evalMethod ⟨1⟩ []
          (start keeperSpace Counters.zero) = .ok (.ok (.package [.buffer [1, 2, 3]]), m) ∧
        m.standing = 2 ∧
        Relation.ReflTransGen (Step ⟨countingHost, stumbler, 2⟩)
          ⟨start keeperSpace Counters.zero, Context.fresh, [], []⟩ a ∧
        a.machine.world.host.live = 2 ∧
        Relation.ReflTransGen (Step ⟨countingHost, stumbler, 2⟩) a b ∧
        b.machine.world.host.live = 0 := by
  let p : Platform Counters Unit := ⟨countingHost, stumbler, 2⟩
  obtain ⟨m, heval⟩ := exists_eq_ok
    (show (p.evalMethod ⟨1⟩ [] (start keeperSpace Counters.zero)).toOption.map Prod.fst =
      some (.ok (.package [.buffer [1, 2, 3]])) by decide +kernel)
  obtain ⟨_, hstow⟩ := exists_eq_ok
    (show ((do
        let result ← stow.run p p.caller Context.fresh
        let filed ← get
        p.shutdown
        return (result, filed.space.storage, (← get).space.storage) : MachineM Counters Unit _)
          (start keeperSpace Counters.zero)).toOption.map Prod.fst =
      some ((.ok (), Context.fresh), 2, 0) by decide +kernel)
  simp only [bind_eq_ok, get_eq_ok, pure_eq_ok, Prod.mk.injEq] at hstow
  obtain ⟨_, _, hrun, _, m₁, ⟨rfl, rfl⟩, _, _, hshutdown, _, m₂, ⟨rfl, rfl⟩, ⟨rfl, h₁, h₂⟩, -⟩ :=
    hstow
  obtain ⟨held, hnothing, hfiled⟩ :=
    session_of_run (.inl rfl) (frugal_stow p p.caller _ _) hrun []
  have hdown : Step p ⟨m₁, Context.fresh, [], held⟩ _ := .shutdown hshutdown
  obtain ⟨hbalance, hstanding, -⟩ :=
    balance_of_session rfl lasting_scope (frugal_stumbler (p := p) rfl)
  have hfresh : Context.fresh.storage = 0 := by decide
  have hstart :
      balance (ν := Unit) ⟨start keeperSpace Counters.zero, Context.fresh, [], []⟩ = 0 := by decide
  have ha := (hbalance _ _ rfl hfiled).trans hstart
  have hb := (hbalance _ _ rfl (hfiled.tail hdown)).trans hstart
  simp only [balance, hnothing, hfresh, ← h₁, ← h₂, List.map_nil, List.sum_nil] at ha hb
  have hlive : m₁.world.host.live = 2 := by omega
  have hlive' : m₂.world.host.live = 0 := by omega
  exact ⟨m, _, _, heval, hstanding _ _ _ _ _ rfl heval, hfiled, hlive, .single hdown, hlive'⟩

end Account
end Acpi
