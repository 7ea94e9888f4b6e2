/-
# What a computation that succeeds has done

Computations of the world, of the machine and of a bench all carry a state and
may end in a fault.  For each way to build them there is one lemma here that
takes a successful run apart: a sequence has succeeded exactly when both of its
parts have (`bind_eq_ok`), and a computation of a part of the state has changed
that part only (`onWorld_eq_ok`, `onSpace_eq_ok`).  Proofs about runs use these
lemmas and never unfold the carriers.

Where runs that end in a fault count as well, a run is computed step by step from the
state it starts in (`bind_apply`, `map_apply`, `onWorld_apply`, `onSpace_apply`).
-/

import Acpi.Machine.Basic

namespace Acpi
namespace Effect

variable {σ α β : Type} {s t : σ} {a : α} {b : β}

@[simp] theorem pure_eq_ok {r : α × σ} :
    (pure a : StateT σ (Except Fault) α) s = .ok r ↔ r = (a, s) := by
  show Except.ok (a, s) = .ok r ↔ r = (a, s)
  rw [Except.ok.injEq, eq_comm]

/-- A sequence has succeeded when its first part has and, from where that has
left off, the second part. -/
theorem bind_eq_ok {x : StateT σ (Except Fault) α} {f : α → StateT σ (Except Fault) β}
    {r : β × σ} : (x >>= f) s = .ok r ↔ ∃ a t, x s = .ok (a, t) ∧ f a t = .ok r := by
  cases h : x s with
  | error _ => simp [bind, StateT.bind, Except.bind, h]
  | ok u =>
    obtain ⟨a, t⟩ := u
    simp only [bind, StateT.bind, Except.bind, h, Except.ok.injEq, Prod.mk.injEq]
    exact ⟨fun hf => ⟨a, t, ⟨rfl, rfl⟩, hf⟩, fun ⟨_, _, ⟨rfl, rfl⟩, hf⟩ => hf⟩

@[simp] theorem map_eq_ok {x : StateT σ (Except Fault) α} {f : α → β} :
    (f <$> x) s = .ok (b, t) ↔ ∃ a, x s = .ok (a, t) ∧ f a = b := by
  cases h : x s <;> simp [Functor.map, StateT.map, bind, Except.bind, pure, Except.pure, h]
  grind

@[simp] theorem get_eq_ok {r : σ × σ} :
    (get : StateT σ (Except Fault) σ) s = .ok r ↔ r = (s, s) := by
  show Except.ok (s, s) = .ok r ↔ r = (s, s)
  rw [Except.ok.injEq, eq_comm]

@[simp] theorem set_eq_ok {r : PUnit × σ} :
    (set t : StateT σ (Except Fault) PUnit) s = .ok r ↔ r = (⟨⟩, t) := by
  show Except.ok (⟨⟩, t) = .ok r ↔ r = (⟨⟩, t)
  rw [Except.ok.injEq, eq_comm]

@[simp] theorem modify_eq_ok {f : σ → σ} {r : PUnit × σ} :
    (modify f : StateT σ (Except Fault) PUnit) s = .ok r ↔ r = (⟨⟩, f s) := by
  show Except.ok (⟨⟩, f s) = .ok r ↔ r = (⟨⟩, f s)
  rw [Except.ok.injEq, eq_comm]

@[simp] theorem throw_eq_ok {f : Fault} {r : α × σ} :
    ¬(throw f : StateT σ (Except Fault) α) s = .ok r := by
  simp [throw, throwThe, MonadExceptOf.throw, StateT.lift, bind, Except.bind]

/-- What does not touch the state leaves it as it was. -/
@[simp] theorem lift_eq_ok {x : Except Fault α} {r : α × σ} :
    (monadLift x : StateT σ (Except Fault) α) s = .ok r ↔ x = .ok r.1 ∧ r.2 = s := by
  obtain ⟨a, t⟩ := r
  cases x <;> simp [monadLift, MonadLift.monadLift, StateT.lift, bind, Except.bind, pure,
    Except.pure, eq_comm]

theorem get_apply (s : σ) : (get : StateT σ (Except Fault) σ) s = .ok (s, s) := rfl

/-- A sequence goes on from where its first part has left off. -/
theorem bind_apply (x : StateT σ (Except Fault) α) (f : α → StateT σ (Except Fault) β) (s : σ) :
    (x >>= f) s = (x s).bind fun r => f r.1 r.2 := rfl

theorem map_apply (f : α → β) (x : StateT σ (Except Fault) α) (s : σ) :
    (f <$> x) s = (x s).map fun r => (f r.1, r.2) := by
  show (x s).bind _ = _
  cases x s <;> rfl

/-- A sequence goes on with what its first part has come to. -/
theorem bind_of_ok {x : StateT σ (Except Fault) α} {f : α → StateT σ (Except Fault) β}
    (h : x s = .ok (a, t)) : (x >>= f) s = f a t := by
  rw [bind_apply, h]
  rfl

theorem bind_of_error {x : StateT σ (Except Fault) α} {f : α → StateT σ (Except Fault) β}
    {e : Fault} (h : x s = .error e) : (x >>= f) s = .error e := by
  rw [bind_apply, h]
  rfl

/-- What does not touch the state and has a result goes on with it. -/
theorem lift_ok_bind (a : α) (f : α → StateT σ (Except Fault) β) :
    ((monadLift (.ok a : Except Fault α) : StateT σ (Except Fault) α) >>= f) = f a := rfl

theorem lift_error_bind (e : Fault) (f : α → StateT σ (Except Fault) β) :
    ((monadLift (.error e : Except Fault α) : StateT σ (Except Fault) α) >>= f) =
      fun _ => .error e := rfl

/-- Sequences do the same if their first parts do and, from where the first part
has left off, their second parts. -/
theorem bind_congr_of_ok {x x' : StateT σ (Except Fault) α}
    {f f' : α → StateT σ (Except Fault) β} (h : x s = x' s)
    (hf : ∀ a t, x s = .ok (a, t) → f a t = f' a t) : (x >>= f) s = (x' >>= f') s := by
  cases hx : x s with
  | error e => simp only [bind, StateT.bind, Except.bind, ← h, hx]
  | ok r =>
    simp only [bind, StateT.bind, Except.bind, ← h, hx]
    exact hf r.1 r.2 hx

/-- A run with a known answer has left some state behind. -/
theorem exists_eq_ok {x : Except Fault (α × σ)} (h : x.toOption.map Prod.fst = some a) :
    ∃ s, x = .ok (a, s) := by
  cases x with
  | error f => cases h
  | ok r =>
    obtain rfl := Option.some.inj h
    exact ⟨r.2, rfl⟩

end Effect

section World

variable {η ν : Type} {w w' : World η ν}

/-- The world with one more entry in its journal. -/
def World.add (w : World η ν) (entry : Entry ν) : World η ν := ⟨w.host, w.journal.push entry⟩

@[simp] theorem World.host_add (w : World η ν) (entry : Entry ν) : (w.add entry).host = w.host :=
  rfl

@[simp] theorem World.journal_add (w : World η ν) (entry : Entry ν) :
    (w.add entry).journal.toList = w.journal.toList ++ [entry] :=
  Array.toList_push ..

@[simp] theorem World.write_eq_ok {entry : Entry ν} {r : Unit × World η ν} :
    World.write entry w = .ok r ↔ r = ((), w.add entry) := by
  simp [World.write, World.add]

/-- The world after a call to the host, which has left the host in a state. -/
def World.called (w : World η ν) (call : HostCall) (state : η) : World η ν :=
  ⟨state, w.journal.push (.host call)⟩

@[simp] theorem World.host_called (w : World η ν) (call : HostCall) (state : η) :
    (w.called call state).host = state :=
  rfl

@[simp] theorem World.journal_called (w : World η ν) (call : HostCall) (state : η) :
    (w.called call state).journal.toList = w.journal.toList ++ [.host call] :=
  Array.toList_push ..

/-- A call to the host is written down, and the host answers it. -/
theorem Host.ask_eq_ok {host : Host η} {call : HostCall} {answer : call.Answer} :
    host.ask call w = .ok (answer, w') ↔
      ∃ state, host call w.host = .ok (answer, state) ∧ w' = w.called call state := by
  simp only [Host.ask, Effect.bind_eq_ok, World.write_eq_ok, World.add, World.called]
  cases h : host call w.host <;> simp [h, bind, Except.bind, pure, Except.pure]
  grind

end World

namespace Machine

variable {η ν α : Type} {m m' : Machine η ν} {a : α}

/-- A computation of the world changes nothing but the world. -/
@[simp] theorem onWorld_eq_ok {act : WorldM η ν α} :
    onWorld act m = .ok (a, m') ↔ ∃ w, act m.world = .ok (a, w) ∧ m' = { m with world := w } := by
  obtain ⟨space, world, depth⟩ := m
  cases h : act world <;> simp [onWorld, bind, Except.bind, pure, Except.pure, h]
  grind

theorem onWorld_apply (act : WorldM η ν α) (m : Machine η ν) :
    onWorld act m = (act m.world).map fun r => (r.1, { m with world := r.2 }) := by
  show (act m.world).bind _ = _
  cases act m.world <;> rfl

/-- What the namespace answers changes nothing. -/
@[simp] theorem onSpace_eq_ok {query : Namespace → Except Fault α} :
    onSpace query m = .ok (a, m') ↔ query m.space = .ok a ∧ m' = m := by
  simp only [onSpace, Effect.bind_eq_ok, Effect.get_eq_ok, Effect.lift_eq_ok, Prod.mk.injEq]
  grind

theorem onSpace_apply (query : Namespace → Except Fault α) (m : Machine η ν) :
    onSpace query m = (query m.space).map (·, m) := by
  rw [onSpace, Effect.bind_apply, Effect.get_apply]
  show (monadLift (query m.space) : MachineM η ν α) m = _
  cases query m.space <;> rfl

/-- The machine with one more log record in its journal. -/
def logged (m : Machine η ν) (record : LogRecord) : Machine η ν :=
  { m with world := m.world.add (.log record) }

@[simp] theorem log_eq_ok {record : LogRecord} {r : Unit × Machine η ν} :
    log record m = .ok r ↔ r = ((), m.logged record) := by
  obtain ⟨u, m'⟩ := r
  simp [log, logged]

end Machine
end Acpi
