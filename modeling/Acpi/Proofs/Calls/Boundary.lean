/-
# No reference crosses the boundary of a call

A reference to a buffer field is good only where it was made.  What an evaluation
returns is a copy in every case: of the value of a node, of what a field unit holds,
or of what a body has left in its return slot (`Caller.Plain`).  What a body finds
in its argument slots are copies as well.  Argument slots beyond the arity are the
host's, who gives contexts out with nothing set.
-/

import Acpi.Bench.TableHost
import Acpi.Proofs.Calls.Entry
import Acpi.Proofs.Calls.Site
import Acpi.Proofs.Storage.Reference

namespace Acpi

variable {η ν : Type}

open Effect Machine

/-- A way to call methods whose results refer to nothing. -/
def Caller.Plain (call : Caller η ν) : Prop :=
  ∀ ⦃node args m v m'⦄, call node args m = .ok (.ok v, m') → v.hasReference = false

theorem Caller.Plain.evalNode {p : Platform η ν} {call : Caller η ν} (hcall : call.Plain)
    {node : NodeId} {m m' : Machine η ν} {v : Value}
    (h : call.evalNode p node m = .ok (.ok v, m')) : v.hasReference = false := by
  rcases evalNode_cases h with h | ⟨value, u, w, -, hcopy, hv, -⟩ |
    ⟨-, operand, u, w, -, -, hread, hv, -⟩ | ⟨e, he, -⟩
  · exact hcall h
  · obtain rfl := Except.ok.inj hv
    exact Value.hasReference_of_copy value hcopy
  · obtain rfl := Except.ok.inj hv
    simp only [readUnit, bind_eq_ok, pure_eq_ok, Prod.mk.injEq] at hread
    obtain ⟨held, _, -, copy, w₁, hcopy, _, _, -, rfl, -⟩ := hread
    exact Value.hasReference_of_copy held hcopy
  · cases he

namespace Platform

variable {p : Platform η ν}

theorem hasReference_of_leave {status : Except Error Unit} {ctx : Context} {w w' : World η ν}
    {v : Value} (h : p.leave status ctx w = .ok (.ok v, w')) : v.hasReference = false := by
  obtain ⟨w₁, cleaned, w₂, state, hresult, -⟩ := leave_cases h
  rcases hresult with ⟨-, held, u, -, hcopy, hv⟩ | ⟨e, -, he, -⟩
  · obtain rfl := Except.ok.inj hv
    exact Value.hasReference_of_copy held hcopy
  · cases he

/-- **Calls return values that refer to nothing.** -/
theorem callWithin_plain (room : Nat) : (p.callWithin room).Plain := by
  intro node args m v m' h
  rcases callWithin_cases h with ⟨e, he, -⟩ | ⟨below, flags, body, rfl, -, -, -, hinvoke⟩
  · cases he
  · obtain ⟨_, _, _, _, _, _, _, _, -, -, -, hleave, -⟩ := invoke_eq_ok.1 hinvoke
    exact hasReference_of_leave hleave

theorem caller_plain : p.caller.Plain := by
  intro node args m v m' h
  simp only [caller, bind_eq_ok, get_eq_ok] at h
  obtain ⟨_, _, ⟨rfl, rfl⟩, h⟩ := h
  exact callWithin_plain _ h

/-- An argument slot beyond the arity that holds what the host has left there. -/
def LeftOver (p : Platform η ν) (ctx : Context) (i : UInt8) : Prop :=
  ctx.argCount.toNat ≤ i.toNat ∧ ∃ state given state',
    p.host .allocContext state = .ok (given, state') ∧ ctx.get (.arg i) = given.get (.arg i)

/-- **What a body finds in its argument slots** refers to nothing, unless the host has
left it in a slot that is not bound. -/
theorem entersOn_plain_or_leftOver :
    p.EntersOn fun ctx => ∀ i : UInt8, i.toNat < maxArgs → ctx.PlainArg i ∨ p.LeftOver ctx i := by
  intro node flags body args w ctx w' hcount h i hi
  have hargs : ctx.argCount = flags.argCount := congrArg Prod.fst (site_enter h)
  have hbound : 0 + args.length ≤ maxArgs := by
    have := flags.argCount_lt
    simp only [maxArgs]
    omega
  obtain ⟨given, state, hgiven, hbind⟩ := enter_eq_ok.1 h
  obtain ⟨hplain, hrest⟩ := Context.bindArgs_get hbound hbind
  by_cases hlt : i.toNat < args.length
  · exact .inl (hplain i (Nat.zero_le _) (by omega))
  · refine .inr ⟨?_, w.host, given, state, hgiven, hrest i (.inr (by omega))⟩
    rw [hargs, ← hcount]
    exact Nat.not_lt.1 hlt

/-- A host that gives contexts out empty leaves nothing in their slots. -/
theorem LeftOver.plainArg {ctx : Context} {i : UInt8} (h : p.LeftOver ctx i)
    (hempty : ∀ state given state', p.host .allocContext state = .ok (given, state') →
      given.IsEmpty) (hi : i.toNat < maxArgs) : ctx.PlainArg i := by
  obtain ⟨-, state, given, state', hgiven, hget⟩ := h
  have hcell : (Slot.arg i).cell? = some ⟨i.toNat, Nat.lt_trans hi (by decide)⟩ := dif_pos hi
  exact ⟨.null, hget.trans ((hempty state given state' hgiven).get_eq hcell), rfl⟩

end Platform

namespace Evaluation

/-- **No reference crosses the boundary of a call.**  What an evaluation returns does
not refer to a buffer field at any depth, and neither does what nested calls and
evaluations return to a body.  A body starts only where its argument slots refer to
nothing, up to what the host has left in slots beyond the arity: what bodies would do
elsewhere is of no concern, at any level of nesting.  If the host gives contexts out
with nothing set, as it is to do, no argument slot refers to anything. -/
theorem no_reference_crosses (p : Platform η ν) (e : Evaluation) :
    (∀ m v m', p.evaluate e m = .ok (.ok v, m') → v.hasReference = false) ∧
      (∀ room node args m v m', p.callWithin room node args m = .ok (.ok v, m') ∨
        (p.callWithin room).evalNode p node m = .ok (.ok v, m') → v.hasReference = false) ∧
      (∀ executor, (∀ ctx, (∀ i : UInt8, i.toNat < maxArgs →
          ctx.PlainArg i ∨ p.LeftOver ctx i) → executor ctx = p.executor ctx) →
        { p with executor }.evaluate e = p.evaluate e) ∧
      ((∀ state given state', p.host .allocContext state = .ok (given, state') →
          given.IsEmpty) →
        ∀ executor, (∀ ctx, (∀ i : UInt8, i.toNat < maxArgs → ctx.PlainArg i) →
            executor ctx = p.executor ctx) →
          { p with executor }.evaluate e = p.evaluate e) := by
  refine ⟨fun m v m' h => ?_, fun room node args m v m' h => ?_, fun executor h =>
    Platform.evaluate_congr Platform.entersOn_plain_or_leftOver h e, fun hempty executor h =>
    Platform.evaluate_congr Platform.entersOn_plain_or_leftOver (fun ctx hctx => ?_) e⟩
  · cases e with
    | method node args => exact Platform.caller_plain h
    | node node => exact Platform.caller_plain.evalNode h
  · rcases h with h | h
    · exact Platform.callWithin_plain room h
    · exact (Platform.callWithin_plain room).evalNode h
  · exact h ctx fun i hi => (hctx i hi).elim id fun hleft => hleft.plainArg hempty hi

/-- A buffer field that holds 42 on the host of `fieldTables`. -/
def someField : BufferField := ⟨⟨0⟩, 8, 16⟩

def fieldTables : HostTables := ⟨true, [], [(someField, 42)], []⟩

/-- A body that leaves a reference in its return slot. -/
def leak (_ : Context) : Body Unit Unit :=
  Body.request (.poke .ret (.package [.bufferField someField, .integer 1]))

/-- The same body, unless its first argument refers to a buffer field. -/
def guardedLeak (ctx : Context) : Body Unit Unit :=
  match ctx.get (.arg 0) with
  | .ok v => if v.hasReference then .fault .endless else leak ctx
  | .error f => .fault f

/-- A method of one argument below the root. -/
def leakSpace : Namespace :=
  ⟨#[⟨Segment.root, .scope, none, some ⟨1⟩, some ⟨1⟩, none⟩,
    ⟨⟨0x4C, 0x45, 0x41, 0x4B⟩, .plainMethod 1 ⟨0, 0⟩, some ⟨0⟩, none, none, none⟩], NodeId.first⟩

/-- The method is called with a reference and returns one, and neither gets through. -/
theorem no_reference_crosses_leak :
    (∀ state given state', fieldTables.host .allocContext state = .ok (given, state') →
        given.IsEmpty) ∧
      ∃ v m', (⟨fieldTables.host, leak, 2⟩ : Platform Unit Unit).evaluate
          (.method ⟨1⟩ [.bufferField someField]) (start leakSpace ()) = .ok (.ok v, m') ∧
        v.hasReference = false ∧
        (⟨fieldTables.host, guardedLeak, 2⟩ : Platform Unit Unit).evaluate
          (.method ⟨1⟩ [.bufferField someField]) (start leakSpace ()) = .ok (.ok v, m') := by
  have hempty : ∀ state given state',
      fieldTables.host .allocContext state = .ok (given, state') → given.IsEmpty := by
    intro state given state' hgiven
    obtain ⟨rfl, -⟩ := Prod.mk.inj (Except.ok.inj hgiven)
    decide
  obtain ⟨m', h⟩ := exists_eq_ok
    (show ((⟨fieldTables.host, leak, 2⟩ : Platform Unit Unit).evaluate
        (.method ⟨1⟩ [.bufferField someField]) (start leakSpace ())).toOption.map Prod.fst =
      some (.ok (.package [.integer 42, .integer 1])) by decide +kernel)
  obtain ⟨hresult, -, -, hguard⟩ :=
    no_reference_crosses (⟨fieldTables.host, leak, 2⟩ : Platform Unit Unit)
      (.method ⟨1⟩ [.bufferField someField])
  refine ⟨hempty, _, m', h, hresult _ _ _ h, ?_⟩
  rw [← h, ← hguard hempty guardedLeak fun ctx hctx => ?_]
  obtain ⟨v, hv, hplain⟩ := hctx 0 (by decide)
  simp only [guardedLeak, hv, hplain, Bool.false_eq_true, if_false]

end Evaluation
end Acpi
