/-
# Nested calls in a journal

A call leaves four marks in the journal: the context is allocated, the method is
entered, the method is left, and the context is freed, in the order

    allocate · enter · … · free · leave

`Nested` is the language of journals in which these marks are brackets: what
stands between the entering and the freeing is nested one level deeper, and
every record of an entering carries its level.  Besides the marks there may be
other entries, which are plain.  As bodies change the namespace while they run, a
journal is read along with it: the method of a call is the one that its node holds
when it is entered, and the context that is freed is the one of that call
(`Context.site`).

A weight of the entries for which the marks of a call go up by one and down again
(`Brackets`) adds up to zero over a nested journal (`Nested.level_eq_zero`) and on
the way never passes the number of levels that are left (`Nested.stays`).
-/

import Acpi.Proofs.Calls.Site
import Acpi.Proofs.Storage.Housekeeping
import Acpi.Proofs.Tree.Columns
import Mathlib.Algebra.BigOperators.Group.List.Basic
import Mathlib.Algebra.Ring.Int.Defs

namespace Acpi

variable {ν : Type}

/-- The calls to the host that give a context out or take it back. -/
def HostCall.IsContextCall : HostCall → Prop
  | allocContext | freeContext _ => True
  | _ => False

namespace Entry

/-- An entry that marks neither the beginning nor the end of a call.  Calls to
the host are housekeeping or are made by method bodies, which make only calls
that are allowed. -/
def Plain (allowed : HostCall → Prop) : Entry ν → Prop
  | host call => Housekeeping (ν := ν) (host call) ∨ allowed call
  | log record => record.IsRefusal
  | note _ => True

theorem Housekeeping.plain {allowed : HostCall → Prop} {e : Entry ν} (h : e.Housekeeping) :
    e.Plain allowed := by
  cases e with
  | host call => exact .inl h
  | log record => exact h.elim
  | note line => exact trivial

end Entry

/-- What a body can do to a namespace with one request. -/
inductive Namespace.Changes (ns : Namespace) : Namespace → Prop
  | addChild {parent name object id ns'} : ns.addChild parent name object = .ok (id, ns') →
      Changes ns ns'
  | setObject {node object ns'} : ns.setObject node object = .ok ns' → Changes ns ns'

/-- Nodes keep their names. -/
theorem Namespace.Changes.name_eq {ns ns' : Namespace} {node : NodeId} {name : Segment}
    (h : ns.Changes ns') (hname : ns.name node = .ok name) : ns'.name node = .ok name := by
  cases h with
  | addChild hadd => exact name_of_addChild hadd hname
  | setObject hset => exact name_of_setObject hset hname

/-- **Nested journals.**  `Nested allowed limit d ns l ns'` says that in `l`, while the
namespace goes from `ns` to `ns'`, the marks of calls are brackets, where the outermost
calls are made at level `d`, no call is made at a level that is not below the limit, and
the record of an entering carries its level.  The node that is called holds a method when
it is entered, both records have its name, and the context that is freed belongs to that
node, to the number of arguments that the method declares and to its code, and is empty. -/
inductive Nested (allowed : HostCall → Prop) (limit : Nat) :
    Nat → Namespace → List (Entry ν) → Namespace → Prop
  | nil {d ns} : Nested allowed limit d ns [] ns
  | plain {d ns e rest ns'} : e.Plain allowed → Nested allowed limit d ns rest ns' →
      Nested allowed limit d ns (e :: rest) ns'
  | change {d ns ns₁ l ns'} : ns.Changes ns₁ → Nested allowed limit d ns₁ l ns' →
      Nested allowed limit d ns l ns'
  | call {d ns ns₁ ns' node flags body name typeName} {freed : Context}
      {before inner after rest} : d < limit →
      ns.object node = .ok (.method flags body) → ns.name node = .ok name →
      freed.site = (flags.argCount, node, body) → freed.IsEmpty →
      (∀ e ∈ before, e.Housekeeping) → Nested allowed limit (d + 1) ns inner ns₁ →
      (∀ e ∈ after, e.Housekeeping) → Nested allowed limit d ns₁ rest ns' →
      Nested allowed limit d ns
        (.host .allocContext :: (before ++ .log (.enter name d flags.argCount) ::
          (inner ++ (after ++ .host (.freeContext freed) :: .log (.leave name typeName) :: rest))))
        ns'

/-- The sum of a weight over a journal. -/
def level (weigh : Entry ν → Int) (journal : List (Entry ν)) : Int := (journal.map weigh).sum

section

variable (weigh : Entry ν → Int) (e : Entry ν) (l l' : List (Entry ν))

@[simp] theorem level_nil : level weigh [] = 0 := rfl

@[simp] theorem level_cons : level weigh (e :: l) = weigh e + level weigh l := by
  simp [level]

@[simp] theorem level_append : level weigh (l ++ l') = level weigh l + level weigh l' := by
  simp [level]

end

theorem level_eq_zero_of_forall {weigh : Entry ν → Int} {l : List (Entry ν)}
    (h : ∀ e ∈ l, weigh e = 0) : level weigh l = 0 := by
  induction l with
  | nil => rfl
  | cons e l ih =>
    rw [level_cons, h e (List.mem_cons_self ..), ih fun e he => h e (List.mem_cons_of_mem _ he),
      Int.add_zero]

/-- A journal over which the level stays between two bounds all the way. -/
def Stays (weigh : Entry ν → Int) (lo hi : Int) (l : List (Entry ν)) : Prop :=
  ∀ pre, pre <+: l → lo ≤ level weigh pre ∧ level weigh pre ≤ hi

namespace Stays

variable {weigh : Entry ν → Int} {lo hi : Int} {e : Entry ν} {l l' : List (Entry ν)}

theorem nil (hlo : lo ≤ 0) (hhi : 0 ≤ hi) : Stays weigh lo hi [] := by
  intro pre hpre
  rw [List.prefix_nil.1 hpre]
  exact ⟨hlo, hhi⟩

/-- The rest of a journal stays between the bounds as they are after its first
entry. -/
theorem cons (hlo : lo ≤ 0) (hhi : 0 ≤ hi) (h : Stays weigh (lo - weigh e) (hi - weigh e) l) :
    Stays weigh lo hi (e :: l) := by
  intro pre hpre
  rcases List.prefix_cons_iff.1 hpre with rfl | ⟨rest, rfl, hrest⟩
  · exact ⟨hlo, hhi⟩
  · have := h rest hrest
    rw [level_cons]
    omega

theorem append (h : Stays weigh lo hi l)
    (h' : Stays weigh (lo - level weigh l) (hi - level weigh l) l') :
    Stays weigh lo hi (l ++ l') := by
  induction l generalizing lo hi with
  | nil => simpa using h'
  | cons e l ih =>
    have h₀ := h [] List.nil_prefix
    rw [level_nil] at h₀
    refine cons h₀.1 h₀.2 (ih (fun pre hpre => ?_) (fun pre hpre => ?_))
    · have := h (e :: pre) ((List.prefix_cons_inj e).2 hpre)
      rw [level_cons] at this
      omega
    · have := h' pre hpre
      rw [level_cons] at this
      omega

theorem of_forall (hlo : lo ≤ 0) (hhi : 0 ≤ hi) (h : ∀ e ∈ l, weigh e = 0) :
    Stays weigh lo hi l := by
  intro pre hpre
  rw [level_eq_zero_of_forall fun e he => h e (hpre.subset he)]
  exact ⟨hlo, hhi⟩

theorem mono {lo' hi' : Int} (h : Stays weigh lo hi l) (hlo : lo' ≤ lo) (hhi : hi ≤ hi') :
    Stays weigh lo' hi' l := by
  intro pre hpre
  have := h pre hpre
  omega

end Stays

/-- A weight that is zero but for the marks of calls, where it goes up by one until
the method is entered and down by one from the freeing on. -/
structure Brackets (allowed : HostCall → Prop) (weigh : Entry ν → Int) : Prop where
  plain : ∀ {e}, e.Plain allowed → weigh e = 0
  alloc : 0 ≤ weigh (.host .allocContext)
  enter : ∀ name d args, 0 ≤ weigh (.log (.enter name d args)) ∧
    weigh (.host .allocContext) + weigh (.log (.enter name d args)) = 1
  free : ∀ ctx, weigh (.host (.freeContext ctx)) ≤ 0
  leave : ∀ ctx name typeName, weigh (.log (.leave name typeName)) ≤ 0 ∧
    weigh (.host (.freeContext ctx)) + weigh (.log (.leave name typeName)) = -1

/-- Allocating a context counts up and freeing one counts down. -/
def Entry.contexts : Entry ν → Int
  | host .allocContext => 1
  | host (.freeContext _) => -1
  | _ => 0

/-- Entering a method counts up and leaving one counts down. -/
def Entry.records : Entry ν → Int
  | log (.enter ..) => 1
  | log (.leave ..) => -1
  | _ => 0

/-- Contexts are brackets as long as method bodies leave them to the interpreter. -/
theorem brackets_contexts {allowed : HostCall → Prop}
    (h : ∀ call, allowed call → ¬call.IsContextCall) :
    Brackets allowed (Entry.contexts (ν := ν)) where
  plain := by
    intro e he
    cases e with
    | host call =>
      cases call with
      | allocContext => exact absurd trivial (h _ (he.resolve_left id))
      | freeContext ctx => exact absurd trivial (h _ (he.resolve_left id))
      | _ => rfl
    | _ => rfl
  alloc := by simp [Entry.contexts]
  enter := by simp [Entry.contexts]
  free := by simp [Entry.contexts]
  leave := by simp [Entry.contexts]

theorem brackets_records {allowed : HostCall → Prop} :
    Brackets allowed (Entry.records (ν := ν)) where
  plain := by
    intro e he
    cases e with
    | log record => cases record <;> first | exact he.elim | rfl
    | _ => rfl
  alloc := by simp [Entry.records]
  enter := by simp [Entry.records]
  free := by simp [Entry.records]
  leave := by simp [Entry.records]

theorem Brackets.eq_zero {allowed : HostCall → Prop} {weigh : Entry ν → Int}
    (hweigh : Brackets allowed weigh) {l : List (Entry ν)} (h : ∀ e ∈ l, e.Housekeeping) :
    ∀ e ∈ l, weigh e = 0 :=
  fun e he => hweigh.plain (h e he).plain

namespace Nested

variable {allowed : HostCall → Prop} {limit d : Nat} {ns ns₁ ns' : Namespace}
  {l l' : List (Entry ν)}

theorem of_forall (h : ∀ e ∈ l, e.Plain allowed) : Nested allowed limit d ns l ns := by
  induction l with
  | nil => exact .nil
  | cons e l ih =>
    exact .plain (h e (List.mem_cons_self ..)) (ih fun e he => h e (List.mem_cons_of_mem _ he))

theorem append (h : Nested allowed limit d ns l ns₁) (h' : Nested allowed limit d ns₁ l' ns') :
    Nested allowed limit d ns (l ++ l') ns' := by
  induction h with
  | nil => exact h'
  | plain he _ ih => exact .plain he (ih h')
  | change hchange _ ih => exact .change hchange (ih h')
  | call hd hobject hname hsite hempty hbefore hinner hafter _ _ ih =>
    simp only [List.cons_append, List.append_assoc]
    exact .call hd hobject hname hsite hempty hbefore hinner hafter (ih h')

/-- Nodes keep their names. -/
theorem name_eq {node : NodeId} {name : Segment} (h : Nested allowed limit d ns l ns')
    (hname : ns.name node = .ok name) : ns'.name node = .ok name := by
  induction h with
  | nil => exact hname
  | plain _ _ ih => exact ih hname
  | change hchange _ ih => exact ih (hchange.name_eq hname)
  | call _ _ _ _ _ _ _ _ _ ihinner ihrest => exact ihrest (ihinner hname)

/-- **Every bracket that is opened in a nested journal is closed.** -/
theorem level_eq_zero {weigh : Entry ν → Int} (hweigh : Brackets allowed weigh)
    (h : Nested allowed limit d ns l ns') : level weigh l = 0 := by
  induction h with
  | nil => rfl
  | plain he _ ih => rw [level_cons, hweigh.plain he, ih, Int.add_zero]
  | change _ _ ih => exact ih
  | @call d _ _ _ _ flags _ name typeName freed _ _ _ _ _ _ _ _ _ hbefore _ hafter _ ihinner
      ihrest =>
    have h₁ := level_eq_zero_of_forall (hweigh.eq_zero hbefore)
    have h₂ := level_eq_zero_of_forall (hweigh.eq_zero hafter)
    have h₃ := hweigh.enter name d flags.argCount
    have h₄ := hweigh.leave freed name typeName
    simp only [level_cons, level_append]
    omega

/-- **No more brackets are open at any time than there are levels left.** -/
theorem stays {weigh : Entry ν → Int} (hweigh : Brackets allowed weigh)
    (h : Nested allowed limit d ns l ns') : Stays weigh 0 (limit - d : Nat) l := by
  induction h with
  | nil => exact .nil (Int.le_refl 0) (Int.natCast_nonneg _)
  | plain he _ ih =>
    refine .cons (Int.le_refl 0) (Int.natCast_nonneg _) ?_
    simpa only [hweigh.plain he, Int.sub_zero] using ih
  | change _ _ ih => exact ih
  | @call d _ _ _ _ flags _ name typeName freed _ _ _ _ hd _ _ _ _ hbefore hinner hafter _ ihinner
      ihrest =>
    have h₀ := hweigh.alloc
    have h₁ := level_eq_zero_of_forall (hweigh.eq_zero hbefore)
    have h₂ := level_eq_zero hweigh hinner
    have h₃ := level_eq_zero_of_forall (hweigh.eq_zero hafter)
    have h₄ := hweigh.enter name d flags.argCount
    have h₅ := hweigh.free freed
    have h₆ := hweigh.leave freed name typeName
    refine .cons (by omega) (by omega) ?_
    refine .append (.of_forall (by omega) (by omega) (hweigh.eq_zero hbefore)) ?_
    refine .cons (by omega) (by omega) ?_
    refine .append (ihinner.mono (by omega) (by omega)) ?_
    refine .append (.of_forall (by omega) (by omega) (hweigh.eq_zero hafter)) ?_
    refine .cons (by omega) (by omega) (.cons (by omega) (by omega) ?_)
    exact ihrest.mono (by omega) (by omega)

end Nested
end Acpi
