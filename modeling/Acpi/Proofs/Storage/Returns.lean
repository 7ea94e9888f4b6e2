/-
# Only what is empty goes back to the host

Elements of a package and contexts go back to the host empty: whatever they held
has been released before.  So an embedding whose bodies keep to this themselves
writes down no other calls (`Embedding.growsClean_of_run`), and how the host would take
anything else back is of no concern to it (`Likeness.onClean`).  As a context that
goes back is empty, and what it is for is written over when it is given out again,
a host can give it out again like a new one (`Likeness.reusing`).
-/

import Acpi.Proofs.Calls.Nesting
import Acpi.Proofs.Storage.Counting
import Acpi.Proofs.Twin.Likeness

namespace Acpi

variable {η η' ν α : Type}

open Effect Machine

/-- An entry that shows no value going back to the host inside of something. -/
def Entry.Clean : Entry ν → Prop
  | host call => call.Clean
  | log _ | note _ => True

theorem Entry.Housekeeping.clean : ∀ {e : Entry ν}, e.Housekeeping → e.Clean
  | .host (.freeElements _), h => h
  | .host (.allocBytes _), _ | .host (.allocElements _), _ | .host (.freeBytes _), _ => trivial
  | .host (.readBufferField _), _ | .host (.readOperand _), _ => trivial

/-- The machine has written down clean entries only. -/
def Machine.GrowsClean (m m' : Machine η ν) : Prop := m.world.Grows Entry.Clean m'.world

theorem Machine.growsClean_tolerant {host : Host η} :
    Tolerant host (Request.AsksHost HostCall.Clean) (GrowsClean (ν := ν)) where
  refl m := .refl m.world
  trans h h' := h.trans h'
  housekeeping h := h.mono fun _ => Entry.Housekeeping.clean
  refusal m _ _ := .add m.world trivial
  hostCall := by
    intro m call answer w hclean hask
    obtain ⟨state, -, rfl⟩ := Host.ask_eq_ok.1 hask
    exact .called m.world state hclean
  note m _ := .add m.world trivial
  addChild _ _ := .refl _
  setObject _ _ := .refl _

namespace Platform

variable {p : Platform η ν} {call : Caller η ν} {node : NodeId} {args : List Value}

theorem growsClean_of_enter {flags : MethodFlags} {body : CodeRange} {ctx : Context}
    {w w' : World η ν} (h : p.enter node flags body args w = .ok (ctx, w')) :
    w.Grows Entry.Clean w' := by
  obtain ⟨before, hbefore, hkind⟩ := journal_enter h
  exact ⟨_, hbefore, List.forall_mem_cons.2 ⟨trivial, fun e he => (hkind e he).clean⟩⟩

/-- A context that goes back has been cleaned. -/
theorem growsClean_of_leave {status : Except Error Unit} {ctx : Context} {w w' : World η ν}
    {r : Except Error Value} (h : p.leave status ctx w = .ok (r, w')) :
    w.Grows Entry.Clean w' := by
  obtain ⟨after, freed, hafter, hkind, -, hempty⟩ := journal_leave h
  exact ⟨_, hafter, List.forall_mem_append.2
    ⟨fun e he => (hkind e he).clean, List.forall_mem_singleton.2 hempty⟩⟩

theorem growsClean_of_invoke
    (hbodies : ∀ ctx, (p.executor ctx).Uses (Request.AsksHost HostCall.Clean))
    (hcall : ∀ node args, Keeps GrowsClean (call node args)) {flags : MethodFlags}
    {body : CodeRange} : Keeps GrowsClean (p.invoke call node flags body args) := by
  intro m r m' h
  obtain ⟨ctx, w, name, status, ctx', m₁, w₁, name', henter, -, hrun, hleave, -, rfl⟩ :=
    invoke_eq_ok.1 h
  have hentered : m.world.Grows Entry.Clean
      (w.add (.log (.enter name m.depth flags.argCount))) :=
    (growsClean_of_enter henter).trans (.add w trivial)
  have hran := growsClean_tolerant.run_keeps hcall (hbodies ctx) ctx hrun
  have hleft : m₁.world.Grows Entry.Clean
      (w₁.add (.log (.leave name' (r.toOption.map Value.typeName)))) :=
    (growsClean_of_leave hleave).trans (.add w₁ trivial)
  exact (hentered.trans hran).trans hleft

/-- **Calls write down clean entries only.** -/
theorem growsClean_of_caller
    (hbodies : ∀ ctx, (p.executor ctx).Uses (Request.AsksHost HostCall.Clean)) (node : NodeId)
    (args : List Value) : Keeps GrowsClean (p.caller node args) := by
  refine growsClean_tolerant.caller_keeps ?_ node args
  intro call hcall node flags body args m m' r _ _ h
  exact growsClean_of_invoke hbodies hcall h

theorem growsClean_of_shutdown : Keeps GrowsClean p.shutdown := by
  have tolerant : Tolerant p.host (Request.AsksHost HostCall.Clean) (GrowsClean (ν := ν)) :=
    growsClean_tolerant
  refine tolerant.toChain.shutdown_keeps (fun node m released m' h => ?_) fun m _ =>
    .add m.world trivial
  rcases releaseName_cases h with ⟨-, value, left, w, space, -, hrelease, -, rfl⟩ | ⟨-, rfl⟩
  · exact (Value.grows_of_release value hrelease).mono fun _ => Entry.Housekeeping.clean
  · exact .refl _

end Platform

theorem Embedding.growsClean_of_run {p : Platform η ν}
    (hbodies : ∀ ctx, (p.executor ctx).Uses (Request.AsksHost HostCall.Clean))
    {e : Embedding ν α} (he : e.All (Body.Uses (Request.AsksHost HostCall.Clean)))
    (ctx : Context) : Keeps GrowsClean (e.run p ctx) := by
  have tolerant : Tolerant p.host (Request.AsksHost HostCall.Clean) (GrowsClean (ν := ν)) :=
    growsClean_tolerant
  have hcaller := Platform.growsClean_of_caller hbodies
  induction e generalizing ctx with
  | last body => exact tolerant.run_keeps hcaller he ctx
  | renew body next ih =>
    intro m r m' h
    simp only [run, bind_eq_ok, modify_eq_ok] at h
    obtain ⟨⟨result, ctx₁⟩, m₁, hrun, _, m₂, hshutdown, _, _, ⟨-, rfl⟩, hnext⟩ := h
    have hlast := tolerant.run_keeps hcaller he.1 ctx hrun
    have hrest := ih result (he.2 result) ctx₁ hnext
    exact (hlast.trans (Platform.growsClean_of_shutdown hshutdown)).trans hrest

/-! ### Other hosts -/

/-- Answers that differ at most in what a context says of the call that it was last
used for. -/
def HostCall.SameButSite : (call : HostCall) → call.Answer → call.Answer → Prop
  | .allocContext, ctx, ctx' => ctx.cells = ctx'.cells
  | _, answer, answer' => answer = answer'

theorem HostCall.SameButSite.indistinct {call : HostCall} {answer answer' : call.Answer}
    (h : call.SameButSite answer answer') : call.Indistinct answer answer' := by
  cases call <;> first | exact h | exact h ▸ .refl _

/-- Answers other than contexts do not differ. -/
theorem HostCall.SameButSite.eq {call : HostCall} (hcall : call ≠ .allocContext)
    {answer answer' : call.Answer} (h : call.SameButSite answer answer') : answer = answer' := by
  cases call <;> first | exact absurd rfl hcall | exact h

/-- A body that asks the host for no context of its own. -/
def Body.TakesNoContext : Body ν α → Prop :=
  Uses (Request.AsksHost fun call => call ≠ .allocContext)

/-- Whoever asks for no context sees none but the one that the body was given. -/
theorem Body.TakesNoContext.blind {body : Body ν α} (h : body.TakesNoContext) :
    body.Blind HostCall.SameButSite :=
  blind_of_uses HostCall.SameButSite.eq h

/-- A host that gives out the contexts that it has got back, the last one first.  For
all else, and when there is none, it relies on another host. -/
def Host.reusing (host : Host η) : Host (η × List Context)
  | .allocContext, (state, pool) => do
    let (ctx, state) ← host .allocContext state
    match pool with
    | [] => return (ctx, state, [])
    | used :: rest => return (used, state, rest)
  | .freeContext ctx, (state, pool) => do
    let (_, state) ← host (.freeContext ctx) state
    return ((), state, ctx :: pool)
  | call, (state, pool) => do
    let (answer, state) ← host call state
    return (answer, state, pool)

/-- What a host of this kind holds: the state of the other one, and contexts that are
all empty. -/
def Host.Reuses (s : η × List Context) (state : η) : Prop :=
  s.1 = state ∧ ∀ used ∈ s.2, used.IsEmpty

theorem Host.reusing_endAlike {host : Host η} {call : HostCall} {state : η} {pool : List Context}
    (hempty : host.GivesEmpty) (hclean : call.Clean) (hpool : ∀ used ∈ pool, used.IsEmpty) :
    EndAlike call.SameButSite Reuses (host.reusing call (state, pool)) (host call state) := by
  cases hcall : host call state with
  | error f =>
    cases call <;> simp only [reusing, hcall] <;> exact .fault f
  | ok r =>
    cases call
    case allocContext =>
      have hgiven := hempty _ _ _ hcall
      cases pool with
      | nil =>
        simp only [reusing, hcall]
        exact .ok rfl ⟨rfl, hpool⟩
      | cons used rest =>
        rw [List.forall_mem_cons] at hpool
        simp only [reusing, hcall]
        exact .ok (hpool.1.cells_eq hgiven) ⟨rfl, hpool.2⟩
    case freeContext ctx =>
      simp only [reusing, hcall]
      exact .ok rfl ⟨rfl, List.forall_mem_cons.2 ⟨hclean, hpool⟩⟩
    all_goals
      simp only [reusing, hcall]
      exact .ok rfl ⟨rfl, hpool⟩

namespace Likeness

variable {host : Host η}

/-- Hosts that differ in how they take back what is not empty. -/
def onClean {host' : Host η} (h : ∀ call, call.Clean → host' call = host call) :
    Likeness host host' where
  states := Eq
  answers _ := Eq
  allowed := HostCall.Clean
  alike := by
    rintro call hclean state _ rfl
    rw [h call hclean]
    exact .refl _
  indistinct := by
    rintro call answer _ rfl
    exact .refl answer
  clean _ := id

/-- Hosts that differ in what contexts say when they are given out. -/
def butSite {host' : Host η'} (states : η → η' → Prop)
    (h : ∀ call, call.Clean → ∀ state state', states state state' →
      EndAlike call.SameButSite states (host call state) (host' call state')) :
    Likeness host host' where
  states := states
  answers := HostCall.SameButSite
  allowed := HostCall.Clean
  alike := h
  indistinct _ _ _ := HostCall.SameButSite.indistinct
  clean _ := id

/-- A host that gives out what it has got back, and the host that it relies on. -/
def reusing (hempty : host.GivesEmpty) : Likeness host.reusing host :=
  butSite Host.Reuses fun call hclean s _ h => by
    obtain ⟨state, pool⟩ := s
    obtain ⟨rfl, hpool⟩ := h
    exact Host.reusing_endAlike hempty hclean hpool

end Likeness

namespace Embedding

/-- What a context says of the call that it was last used for makes no difference to an
embedding: hosts whose contexts differ in that give the same results, the same namespace
and the same journal, and a host that gives contexts out again cannot be told from one
whose contexts are new. -/
structure SiteUnseen (p : Platform η ν) (e : Embedding ν α) (ctx : Context) : Prop where
  alike : ∀ (η' : Type) (host' : Host η') (states : η → η' → Prop),
    (∀ call, call.Clean → ∀ state state', states state state' →
      EndAlike call.SameButSite states (p.host call state) (host' call state')) →
    RunAlike (Machine.Alike states) Eq (e.run p ctx) (e.run (p.on host') ctx)
  reusing : p.host.GivesEmpty →
    RunAlike (Machine.Alike Host.Reuses) Eq (e.run (p.on p.host.reusing) ctx) (e.run p ctx)

theorem siteUnseen_of_blind {p : Platform η ν}
    (hbodies : ∀ ctx, (p.executor ctx).Uses (Request.AsksHost HostCall.Clean))
    (hblind : ∀ ctx, (p.executor ctx).Blind HostCall.SameButSite) {e : Embedding ν α}
    (he : e.All (Body.Uses (Request.AsksHost HostCall.Clean)))
    (heblind : e.All (Body.Blind HostCall.SameButSite)) (ctx : Context) : e.SiteUnseen p ctx where
  alike _ _ states h := (Likeness.butSite states h).embedding hbodies hblind he heblind ctx
  reusing hempty := (Likeness.reusing hempty).embedding (p := p.on p.host.reusing) hbodies hblind he
    heblind ctx

/-- **Only what is empty goes back.**  Let an embedding and the bodies that it runs
not give back themselves what still holds a value.  Then no element of a package
and no slot of a context holds a value when it goes back to the host.  All runs,
those that stop with a fault included, are the same whatever the host does about
other calls.  If nobody asks for contexts himself, or nobody looks at what a context
that he has asked for says of a call, then that is never seen. -/
theorem returns_empty (p : Platform η ν)
    (hbodies : ∀ ctx, (p.executor ctx).Uses (Request.AsksHost HostCall.Clean))
    (e : Embedding ν α) (he : e.All (Body.Uses (Request.AsksHost HostCall.Clean)))
    (ctx : Context) :
    Keeps GrowsClean (e.run p ctx) ∧
      (∀ host' : Host η, (∀ call, call.Clean → host' call = p.host call) →
        e.run (p.on host') ctx = e.run p ctx) ∧
      ((∀ ctx, (p.executor ctx).TakesNoContext) → e.All Body.TakesNoContext →
        e.SiteUnseen p ctx) ∧
      ((∀ ctx, (p.executor ctx).Blind HostCall.SameButSite) →
        e.All (Body.Blind HostCall.SameButSite) → e.SiteUnseen p ctx) := by
  refine ⟨growsClean_of_run hbodies he ctx, fun host' h => ?_, fun hnone henone => ?_,
    fun hblind heblind => siteUnseen_of_blind hbodies hblind he heblind ctx⟩
  · have hrun := (Likeness.onClean h).embedding hbodies (fun _ => Body.blind_eq _) he
      (all_of_forall Body.blind_eq e) ctx
    exact (hrun.eq (fun _ => ⟨rfl, ⟨rfl, rfl⟩, rfl⟩) fun _ _ => Machine.Alike.eq).symm
  · exact siteUnseen_of_blind hbodies (fun ctx => (hnone ctx).blind) he
      (henone.mono fun _ => Body.TakesNoContext.blind) ctx

/-- Calls the method of `keeper`, gives the interpreter up, and calls it again. -/
def keepTwice : Embedding Unit (Except Error Value) :=
  .renew (Body.request (.evalMethod ⟨1⟩ [])) fun _ => .last (Body.request (.evalMethod ⟨1⟩ []))

theorem uses_keeper (allowed : HostCall → Prop) (ctx : Context) :
    (keeper ctx).Uses (Request.AsksHost allowed) := by
  refine ⟨trivial, fun package => ⟨trivial, fun _ => ⟨trivial, fun result => ?_⟩⟩⟩
  cases result <;> exact ⟨trivial, fun _ => trivial⟩

theorem uses_keepTwice (allowed : HostCall → Prop) :
    keepTwice.All (Body.Uses (Request.AsksHost allowed)) :=
  ⟨⟨trivial, fun _ => trivial⟩, fun _ => ⟨trivial, fun _ => trivial⟩⟩

/-- An empty context that says of itself that it was used with three arguments. -/
def usedContext : Context := ⟨Vector.replicate 16 .null, 3, ⟨7⟩, ⟨1, 9⟩⟩

/-- Whether the counting host has a used context in reserve cannot be told from what
`keepTwice` gives. -/
theorem returns_empty_keepTwice :
    (∀ ctx, (keeper ctx).Uses (Request.AsksHost HostCall.Clean)) ∧
      keepTwice.All (Body.Uses (Request.AsksHost HostCall.Clean)) ∧
      (∀ ctx, (keeper ctx).TakesNoContext) ∧ keepTwice.All Body.TakesNoContext ∧
      ∃ m' m₁, keepTwice.run ⟨countingHost, keeper, 2⟩ Context.fresh
          (start keeperSpace Counters.zero) =
            .ok ((.ok (.ok (.package [.buffer [1, 2, 3]])), Context.fresh), m') ∧
        (start keeperSpace Counters.zero).GrowsClean m' ∧
        keepTwice.run ⟨countingHost.reusing, keeper, 2⟩ Context.fresh
          (start keeperSpace (Counters.zero, [usedContext])) =
            .ok ((.ok (.ok (.package [.buffer [1, 2, 3]])), Context.fresh), m₁) ∧
        m₁.Alike Host.Reuses m' := by
  obtain ⟨m', h⟩ := exists_eq_ok
    (show ((keepTwice.run (⟨countingHost, keeper, 2⟩ : Platform Counters Unit) Context.fresh
        (start keeperSpace Counters.zero)).toOption.map Prod.fst) =
      some (.ok (.ok (.package [.buffer [1, 2, 3]])), Context.fresh) by decide +kernel)
  obtain ⟨hclean, -, hsite, -⟩ := returns_empty (⟨countingHost, keeper, 2⟩ : Platform Counters Unit)
    (uses_keeper _) keepTwice (uses_keepTwice _) Context.fresh
  have hstart : (start keeperSpace (Counters.zero, [usedContext])).Alike Host.Reuses
      (start keeperSpace Counters.zero : Machine Counters Unit) :=
    ⟨rfl, ⟨⟨rfl, by decide⟩, rfl⟩, rfl⟩
  have hend := (hsite (uses_keeper _) (uses_keepTwice _)).reusing givesEmpty_countingHost hstart
  rw [h] at hend
  obtain ⟨m₁, hreused, halike⟩ := hend.exists_ok
  exact ⟨uses_keeper _, uses_keepTwice _, uses_keeper _, uses_keepTwice _, m', m₁, h, hclean h,
    hreused, halike⟩

end Embedding
end Acpi
