/-
# Calls are nested

Whatever the bodies do, a call leaves the depth as it was and writes a nested
journal (`Machine.Nests`).  One admitted call is one pair of brackets around what
its body writes (`Platform.invoke_nests`), so every call is nested
(`Platform.callWithin_nests`), and everything that is made of calls is.
-/

import Acpi.Proofs.Calls.Brackets
import Acpi.Proofs.Keeping

namespace Acpi

variable {η ν : Type}

open Effect

/-- What happens between two machines when calls are nested. -/
structure Machine.Nests (allowed : HostCall → Prop) (limit : Nat) (m m' : Machine η ν) :
    Prop where
  depth : m'.depth = m.depth
  journal : ∃ new, m'.world.journal.toList = m.world.journal.toList ++ new ∧
    Nested allowed limit m.depth m.space new m'.space

namespace Machine.Nests

variable {allowed : HostCall → Prop} {limit : Nat} {m m₁ m' : Machine η ν} {host : Host η}

theorem refl (m : Machine η ν) : m.Nests allowed limit m :=
  ⟨rfl, [], (List.append_nil _).symm, .nil⟩

theorem trans (h : m.Nests allowed limit m₁) (h' : m₁.Nests allowed limit m') :
    m.Nests allowed limit m' := by
  obtain ⟨hdepth, new, hnew, hnested⟩ := h
  obtain ⟨hdepth', new', hnew', hnested'⟩ := h'
  refine ⟨hdepth'.trans hdepth, new ++ new', ?_, ?_⟩
  · rw [hnew', hnew, List.append_assoc]
  · exact hnested.append (hdepth ▸ hnested')

/-- Nodes keep their names. -/
theorem name_eq {node : NodeId} {name : Segment} (h : m.Nests allowed limit m')
    (hname : m.space.name node = .ok name) : m'.space.name node = .ok name := by
  obtain ⟨-, new, -, hnested⟩ := h
  exact hnested.name_eq hname

/-- Entries that are plain nest at every depth. -/
theorem of_grows {w : World η ν} (h : m.world.Grows (Entry.Plain allowed) w) :
    m.Nests allowed limit { m with world := w } := by
  obtain ⟨new, hnew, hplain⟩ := h
  exact ⟨rfl, new, hnew, .of_forall hplain⟩

theorem of_add (m : Machine η ν) {e : Entry ν} (h : e.Plain allowed) :
    m.Nests allowed limit { m with world := m.world.add e } :=
  of_grows ⟨[e], World.journal_add .., fun _ he => List.mem_singleton.1 he ▸ h⟩

/-- A change of the namespace is not written down. -/
theorem of_changes {space : Namespace} (h : m.space.Changes space) :
    m.Nests allowed limit { m with space } :=
  ⟨rfl, [], (List.append_nil _).symm, .change h .nil⟩

/-- Nesting takes no notice of what bodies do on their own. -/
theorem tolerant : Tolerant host (Request.AsksHost allowed)
    (Machine.Nests (η := η) (ν := ν) allowed limit) where
  refl := refl
  trans := trans
  housekeeping := by
    intro m w ⟨new, hnew, hkind⟩
    exact of_grows ⟨new, hnew, fun e he => (hkind e he).plain⟩
  refusal := fun m _ h => of_add m h
  hostCall := by
    intro m call answer w hallowed hask
    obtain ⟨state, -, rfl⟩ := Host.ask_eq_ok.1 hask
    exact of_grows (.called m.world state (.inr hallowed))
  note := fun m _ => of_add m trivial
  addChild := fun _ h => of_changes (.addChild h)
  setObject := fun _ h => of_changes (.setObject h)

end Machine.Nests

namespace Platform

variable {p : Platform η ν} {call : Caller η ν} {allowed : HostCall → Prop} {limit : Nat}

/-- Setting a context up allocates it and does some housekeeping. -/
theorem journal_enter {node : NodeId} {flags : MethodFlags} {body : CodeRange}
    {args : List Value} {w w' : World η ν} {ctx : Context}
    (h : p.enter node flags body args w = .ok (ctx, w')) :
    ∃ before, w'.journal.toList = w.journal.toList ++ .host .allocContext :: before ∧
      ∀ e ∈ before, e.Housekeeping := by
  obtain ⟨given, state, -, hbind⟩ := enter_eq_ok.1 h
  obtain ⟨before, hbefore, hkind⟩ := Context.grows_of_bindArgs hbind
  refine ⟨before, ?_, hkind⟩
  rw [hbefore, World.journal_called, List.append_assoc, List.singleton_append]

/-- Handing a context back does some housekeeping and frees the context, which is empty. -/
theorem journal_leave {status : Except Error Unit} {ctx : Context} {w w' : World η ν}
    {r : Except Error Value} (h : p.leave status ctx w = .ok (r, w')) :
    ∃ after freed, w'.journal.toList = w.journal.toList ++ (after ++ [.host (.freeContext freed)]) ∧
      (∀ e ∈ after, e.Housekeeping) ∧ freed.site = ctx.site ∧ freed.IsEmpty := by
  obtain ⟨w₁, cleaned, w₂, state, hresult, hclean, -, rfl⟩ := leave_cases h
  have hcopied : w.Grows Entry.Housekeeping w₁ := by
    rcases hresult with ⟨-, held, v, -, hcopy, -⟩ | ⟨-, -, -, rfl⟩
    · exact Value.grows_of_copy held hcopy
    · exact .refl w₁
  obtain ⟨after, hafter, hkind⟩ := hcopied.trans (Context.grows_of_clean hclean)
  refine ⟨after, cleaned, ?_, hkind, Context.site_clean hclean, Context.isEmpty_of_clean hclean⟩
  rw [World.journal_called, hafter, List.append_assoc]

/-- **An admitted call is a pair of brackets around what its body writes.** -/
theorem invoke_nests (huses : ∀ ctx, (p.executor ctx).Uses (Request.AsksHost allowed))
    (hcall : ∀ node args, Keeps (Machine.Nests allowed limit) (call node args)) {node : NodeId}
    {flags : MethodFlags} {body : CodeRange} {args : List Value} {m m' : Machine η ν}
    {r : Except Error Value} (hobject : m.space.object node = .ok (.method flags body))
    (hdepth : m.depth < limit)
    (h : p.invoke call node flags body args m = .ok (r, m')) : m.Nests allowed limit m' := by
  obtain ⟨ctx, w, name, status, ctx', m₁, w₁, name', henter, hname, hrun, hleave, hname', rfl⟩ :=
    invoke_eq_ok.1 h
  obtain ⟨before, hbefore, hkind⟩ := journal_enter henter
  have hbody := Machine.Nests.tolerant.run_keeps hcall (huses ctx) ctx hrun
  obtain ⟨after, freed, hafter, hkind', hsite, hempty⟩ := journal_leave hleave
  -- nobody has changed the name of the method or what the context is for
  obtain rfl := Except.ok.inj ((hbody.name_eq hname).symm.trans hname')
  have hfreed : freed.site = (flags.argCount, node, body) :=
    hsite.trans ((Body.site_run hrun).trans (site_enter henter))
  obtain ⟨hsame, inner, hinner, hnested⟩ := hbody
  have hpair : Nested allowed limit m.depth m.space (.host .allocContext ::
      (before ++ .log (.enter name m.depth flags.argCount) :: (inner ++ (after ++
        [.host (.freeContext freed), .log (.leave name (r.toOption.map Value.typeName))]))))
      m₁.space :=
    .call hdepth hobject hname hfreed hempty hkind hnested hkind' .nil
  refine ⟨by simp only [hsame, Nat.add_sub_cancel], _, ?_, hpair⟩
  simp only [World.journal_add, hafter, hinner, hbefore, List.append_assoc, List.cons_append,
    List.nil_append]

/-- **Every call is nested.** -/
theorem callWithin_nests (huses : ∀ ctx, (p.executor ctx).Uses (Request.AsksHost allowed))
    (room : Nat) (node : NodeId) (args : List Value) :
    Keeps (Machine.Nests allowed p.maxCallDepth.toNat) (p.callWithin room node args) :=
  Machine.Nests.tolerant.callWithin_keeps (invoke_nests huses) room node args

theorem caller_nests (huses : ∀ ctx, (p.executor ctx).Uses (Request.AsksHost allowed))
    (node : NodeId) (args : List Value) :
    Keeps (Machine.Nests allowed p.maxCallDepth.toNat) (p.caller node args) :=
  Machine.Nests.tolerant.caller_keeps (invoke_nests huses) node args

end Platform
end Acpi
