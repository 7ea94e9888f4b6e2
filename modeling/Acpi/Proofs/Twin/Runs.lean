/-
# Runs side by side

Two runs are compared from start to end: they end alike if both stop with the
same fault, or if both succeed with answers and states that are related
(`EndAlike`).  Computations run alike if they end alike from all states that are
related (`RunAlike`).  There is one lemma for each way to build a computation, so
that two runs of the same program are compared along its text, and runs that end
in a fault are compared too.
-/

import Acpi.Proofs.Effect

namespace Acpi

variable {σ τ α β γ δ : Type}

/-- Both runs stop with the same fault, or succeed with related answers in related
states. -/
inductive EndAlike (A : α → β → Prop) (S : σ → τ → Prop) :
    Except Fault (α × σ) → Except Fault (β × τ) → Prop
  | ok {a : α} {b : β} {s : σ} {t : τ} (answers : A a b) (states : S s t) :
      EndAlike A S (.ok (a, s)) (.ok (b, t))
  | fault (f : Fault) : EndAlike A S (.error f) (.error f)

theorem EndAlike.refl (x : Except Fault (α × σ)) : EndAlike Eq Eq x x := by
  cases x with
  | ok r => exact .ok rfl rfl
  | error f => exact .fault f

/-- A run that ends like one that has succeeded has given the same answer. -/
theorem EndAlike.exists_ok {S : σ → τ → Prop} {x : Except Fault (α × σ)} {a : α} {t : τ}
    (h : EndAlike Eq S x (.ok (a, t))) : ∃ s, x = .ok (a, s) ∧ S s t := by
  cases h with
  | ok answers states => exact ⟨_, answers ▸ rfl, states⟩

/-- Computations that end alike from states that are alike. -/
def RunAlike (S : σ → τ → Prop) (A : α → β → Prop) (x : StateT σ (Except Fault) α)
    (y : StateT τ (Except Fault) β) : Prop :=
  ∀ ⦃s t⦄, S s t → EndAlike A S (x s) (y t)

namespace RunAlike

variable {S : σ → τ → Prop} {A : α → β → Prop} {B : γ → δ → Prop}
  {x : StateT σ (Except Fault) α} {y : StateT τ (Except Fault) β}
  {f : α → StateT σ (Except Fault) γ} {g : β → StateT τ (Except Fault) δ}

protected theorem pure {a : α} {b : β} (h : A a b) : RunAlike S A (pure a) (pure b) :=
  fun _ _ hst => .ok h hst

protected theorem throw (f : Fault) : RunAlike S A (throw f) (throw f) :=
  fun _ _ _ => .fault f

/-- Sequences run alike if their first parts do and, from answers that are alike,
their second parts. -/
protected theorem bind (hx : RunAlike S A x y) (hf : ∀ a b, A a b → RunAlike S B (f a) (g b)) :
    RunAlike S B (x >>= f) (y >>= g) := by
  intro s t hst
  have h := hx hst
  simp only [bind, StateT.bind, Except.bind]
  generalize x s = r, y t = r' at h
  cases h with
  | ok answers states => exact hf _ _ answers states
  | fault f => exact .fault f

/-- The second parts of sequences need to run alike only from the same answer if the first
parts give the same. -/
theorem bindEq {y : StateT τ (Except Fault) α} {g : α → StateT τ (Except Fault) δ}
    (hx : RunAlike S Eq x y) (hf : ∀ a, RunAlike S B (f a) (g a)) :
    RunAlike S B (x >>= f) (y >>= g) :=
  hx.bind fun a _ h => h ▸ hf a

theorem mono {A' : α → β → Prop} (hx : RunAlike S A x y) (h : ∀ a b, A a b → A' a b) :
    RunAlike S A' x y := by
  intro s t hst
  have hend := hx hst
  generalize x s = r, y t = r' at hend ⊢
  cases hend with
  | ok answers states => exact .ok (h _ _ answers) states
  | fault f => exact .fault f

/-- What does not touch the state runs alike with itself. -/
protected theorem lift (x : Except Fault α) : RunAlike S Eq (monadLift x) (monadLift x) := by
  intro s t hst
  cases x with
  | ok a => exact .ok rfl hst
  | error f => exact .fault f

theorem get : RunAlike S S (get : StateT σ (Except Fault) σ) (get : StateT τ (Except Fault) τ) :=
  fun _ _ hst => .ok hst hst

theorem set {s : σ} {t : τ} (h : S s t) : RunAlike S Eq (set s : StateT σ (Except Fault) PUnit)
    (set t : StateT τ (Except Fault) PUnit) :=
  fun _ _ _ => .ok rfl h

theorem modify {f : σ → σ} {g : τ → τ} (h : ∀ s t, S s t → S (f s) (g t)) :
    RunAlike S Eq (modify f : StateT σ (Except Fault) PUnit)
      (modify g : StateT τ (Except Fault) PUnit) :=
  fun s t hst => .ok rfl (h s t hst)

/-- What is made of an answer is alike if the answers are. -/
protected theorem map {f : α → γ} {g : β → δ} (hx : RunAlike S A x y)
    (hf : ∀ a b, A a b → B (f a) (g b)) : RunAlike S B (f <$> x) (g <$> y) := by
  rw [← bind_pure_comp, ← bind_pure_comp]
  exact hx.bind fun a b hab => .pure (hf a b hab)

/-- A choice between computations is made alike if it depends on the same condition. -/
protected theorem ite {c : Prop} [Decidable c] {x' : StateT σ (Except Fault) α}
    {y' : StateT τ (Except Fault) β} (hx : RunAlike S A x y) (hx' : RunAlike S A x' y') :
    RunAlike S A (if c then x else x') (if c then y else y') := by
  split
  · exact hx
  · exact hx'

/-- Computations run alike if they do so once something is made of their answers. -/
theorem of_map {f : α → γ} {g : β → δ} (h : RunAlike S B (f <$> x) (g <$> y)) :
    RunAlike S (fun a b => B (f a) (g b)) x y := by
  intro s t hst
  have hend := h hst
  cases hx : x s <;> cases hy : y t <;>
    simp only [Functor.map, StateT.map, bind, Except.bind, pure, Except.pure, hx, hy] at hend
  · cases hend
    exact .fault _
  · cases hend
  · cases hend
  · cases hend with
    | ok answers states => exact .ok answers states

/-- Computations that run alike with equal answers are equal if states that are alike
are equal. -/
theorem eq {S : σ → σ → Prop} {x y : StateT σ (Except Fault) α} (h : RunAlike S Eq x y)
    (hrefl : ∀ s, S s s) (heq : ∀ s t, S s t → s = t) : x = y := by
  funext s
  have hend := h (hrefl s)
  generalize x s = r, y s = r' at hend
  cases hend with
  | ok answers states => rw [answers, heq _ _ states]
  | fault f => rfl

end RunAlike
end Acpi
