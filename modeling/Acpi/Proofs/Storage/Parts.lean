/-
# The blocks of a value

A package has parts, and these may have parts again: a path of positions leads to each
of them (`Value.part?`).  The parts that are buffers or packages have a block of storage
each, and the value can be gone through block by block with every package before or
behind its elements (`Value.blocks`).  Copies take their storage in the first order
(`Value.takenBy_copyCalls`), and storage goes back in the second one
(`Value.givenBackBy_releaseCalls`).  Either way each block has its turn once, so the two
orders are of the same blocks (`Value.perm_blocks`).
-/

import Acpi.Proofs.Storage.Orders
import Mathlib.Data.List.Perm.Basic

namespace Acpi

/-- A block of storage: how much goes into it, and of what. -/
inductive Block
  | bytes (length : Nat)
  | elements (count : Nat)
deriving DecidableEq

namespace HostCall

/-- The block that is asked for with a call. -/
def taken? : HostCall → Option Block
  | allocBytes length => some (.bytes length)
  | allocElements count => some (.elements count)
  | _ => none

/-- The block that is given back with a call. -/
def givenBack? : HostCall → Option Block
  | freeBytes bytes => some (.bytes bytes.length)
  | freeElements elements => some (.elements elements.length)
  | _ => none

end HostCall

namespace Value

/-- The part of a value to which a path leads. -/
def part? : Value → List Nat → Option Value
  | v, [] => some v
  | package elements, i :: path => elements[i]?.bind (part? · path)
  | _, _ :: _ => none

/-- The block in which a value is stored. -/
def block? : Value → Option Block
  | buffer bytes => some (.bytes bytes.length)
  | package elements => some (.elements elements.length)
  | _ => none

/-- The call with which the block of a value goes back, after its elements have gone. -/
def freeCall? : Value → Option HostCall
  | buffer bytes => some (.freeBytes bytes)
  | package elements => some (.freeElements (List.replicate elements.length null))
  | _ => none

@[simp] theorem block?_buffer (bytes : List UInt8) :
    (buffer bytes).block? = some (.bytes bytes.length) := rfl

@[simp] theorem block?_package (elements : List Value) :
    (package elements).block? = some (.elements elements.length) := rfl

@[simp] theorem freeCall?_buffer (bytes : List UInt8) :
    (buffer bytes).freeCall? = some (.freeBytes bytes) := rfl

@[simp] theorem freeCall?_package (elements : List Value) :
    (package elements).freeCall? =
      some (.freeElements (List.replicate elements.length null)) := rfl

mutual

/-- The parts that have a block of storage and the paths that lead to them, with every
package before its elements or behind them. -/
def blocks (outerFirst : Bool) : Value → List (List Nat × Value)
  | package elements =>
    if outerFirst then ([], package elements) :: blocksFrom outerFirst 0 elements
    else blocksFrom outerFirst 0 elements ++ [([], package elements)]
  | buffer bytes => [([], buffer bytes)]
  | null | integer _ | string _ | bufferField _ => []

/-- The blocks of elements that are numbered from `first`. -/
def blocksFrom (outerFirst : Bool) (first : Nat) : List Value → List (List Nat × Value)
  | [] => []
  | v :: vs => (blocks outerFirst v).map (Prod.map (first :: ·) id) ++
      blocksFrom outerFirst (first + 1) vs

end

variable {v : Value} {path : List Nat} {part : Value} {outerFirst : Bool}

/-- The elements of a package are in it in either order. -/
theorem mem_blocks_package {elements : List Value} {entry : List Nat × Value} :
    entry ∈ (package elements).blocks outerFirst ↔
      entry = ([], package elements) ∨ entry ∈ blocksFrom outerFirst 0 elements := by
  cases outerFirst <;> simp [blocks, or_comm]

mutual

/-- **The blocks of a value** are its parts that have a block. -/
theorem mem_blocks : (v : Value) → (path : List Nat) → ((path, part) ∈ v.blocks outerFirst ↔
    v.part? path = some part ∧ part.block?.isSome = true)
  | null, path | integer _, path | string _, path | bufferField _, path => by
    cases path with
    | nil =>
      simp only [blocks, part?, Option.some.injEq, List.not_mem_nil, false_iff]
      rintro ⟨rfl, h⟩
      cases h
    | cons => simp [blocks, part?]
  | buffer _, path => by
    cases path with
    | nil =>
      simp only [blocks, part?, List.mem_singleton, Prod.mk.injEq, true_and, Option.some.injEq]
      exact ⟨fun h => ⟨h.symm, h ▸ rfl⟩, fun h => h.1.symm⟩
    | cons => simp [blocks, part?]
  | package elements, path => by
    rw [mem_blocks_package, mem_blocksFrom elements]
    cases path with
    | nil =>
      simp only [part?, Prod.mk.injEq, true_and, Option.some.injEq]
      constructor
      · rintro (rfl | ⟨_, _, h, -⟩)
        · exact ⟨rfl, rfl⟩
        · cases h
      · rintro ⟨rfl, -⟩
        exact .inl rfl
    | cons i rest => simp [part?]

theorem mem_blocksFrom : (vs : List Value) → {first : Nat} → {path : List Nat} →
    ((path, part) ∈ blocksFrom outerFirst first vs ↔
      ∃ i rest, path = (first + i) :: rest ∧ vs[i]?.bind (part? · rest) = some part ∧
        part.block?.isSome = true)
  | [], first, path => by simp [blocksFrom]
  | v :: vs, first, path => by
    rw [blocksFrom, List.mem_append, mem_blocksFrom vs, List.mem_map]
    constructor
    · rintro (⟨⟨rest, u⟩, hmem, h⟩ | ⟨i, rest, rfl, h⟩)
      · obtain ⟨rfl, hu⟩ := Prod.mk.inj h
        exact ⟨0, rest, rfl, (mem_blocks v rest).1 ((show u = part from hu) ▸ hmem)⟩
      · exact ⟨i + 1, rest, by rw [Nat.add_right_comm, Nat.add_assoc], h⟩
    · rintro ⟨i, rest, rfl, h⟩
      cases i with
      | zero => exact .inl ⟨(rest, part), (mem_blocks v rest).2 h, rfl⟩
      | succ i => exact .inr ⟨i, rest, by rw [Nat.add_right_comm, Nat.add_assoc], h⟩

end

/-- Of two entries of a list, the earlier one is not inside the later one, if packages
come first, or else does not contain it. -/
def Apart (outerFirst : Bool) (earlier later : List Nat × Value) : Prop :=
  if outerFirst then ¬later.1 <+: earlier.1 else ¬earlier.1 <+: later.1

theorem Apart.ne {earlier later : List Nat × Value} (h : Apart outerFirst earlier later) :
    earlier ≠ later := by
  rintro rfl
  cases outerFirst <;> exact h (List.prefix_refl _)

mutual

/-- In one order no block comes before one that it is in, in the other none comes before
one that is in it. -/
theorem pairwise_blocks : (v : Value) → (v.blocks outerFirst).Pairwise (Apart outerFirst)
  | null | integer _ | string _ | bufferField _ | buffer _ => by simp [blocks]
  | package elements => by
    have hinner := pairwise_blocksFrom elements 0
    -- no element is where the package itself is
    have hown : ∀ entry ∈ blocksFrom outerFirst 0 elements, ¬entry.1 <+: [] := by
      rintro ⟨path, part⟩ hmem hprefix
      obtain ⟨i, rest, rfl, -⟩ := (mem_blocksFrom elements).1 hmem
      cases List.prefix_nil.1 hprefix
    cases outerFirst with
    | true => exact List.pairwise_cons.2 ⟨hown, hinner⟩
    | false =>
      refine List.pairwise_append.2
        ⟨hinner, List.pairwise_singleton _ _, fun entry hmem own h => ?_⟩
      rw [List.mem_singleton.1 h]
      exact hown entry hmem

theorem pairwise_blocksFrom : (vs : List Value) → (first : Nat) →
    (blocksFrom outerFirst first vs).Pairwise (Apart outerFirst)
  | [], _ => .nil
  | v :: vs, first => by
    refine List.pairwise_append.2 ⟨?_, pairwise_blocksFrom vs _, ?_⟩
    · refine List.pairwise_map.2 ((pairwise_blocks v).imp fun h => ?_)
      cases outerFirst <;> simpa [Apart, List.cons_prefix_cons] using h
    · rintro entry hentry ⟨path, part⟩ hmem
      obtain ⟨⟨inner, u⟩, -, rfl⟩ := List.mem_map.1 hentry
      obtain ⟨i, rest, rfl, -⟩ := (mem_blocksFrom vs).1 hmem
      cases outerFirst <;> simp [Apart, List.cons_prefix_cons] <;> omega

end

/-- **Both orders are of the same blocks**, each of them once. -/
theorem perm_blocks (v : Value) : (v.blocks true).Perm (v.blocks false) := by
  have hnodup (outerFirst : Bool) : (v.blocks outerFirst).Nodup :=
    (pairwise_blocks v).imp Apart.ne
  refine (List.perm_ext_iff_of_nodup (hnodup _) (hnodup _)).2 ?_
  rintro ⟨path, part⟩
  rw [mem_blocks, mem_blocks]

mutual

/-- Storage for a copy is asked for block by block, packages before their elements. -/
theorem filterMap_taken?_copyCalls : (v : Value) →
    v.copyCalls.filterMap HostCall.taken? = (v.blocks true).filterMap (·.2.block?)
  | null | integer _ | string _ | bufferField _ | buffer _ => by
    simp [copyCalls, blocks, HostCall.taken?]
  | package elements => by
    simp [copyCalls, blocks, HostCall.taken?, filterMap_taken?_copyCallsAll elements 0]

theorem filterMap_taken?_copyCallsAll : (vs : List Value) → (first : Nat) →
    (copyCallsAll vs).filterMap HostCall.taken? =
      (blocksFrom true first vs).filterMap (·.2.block?)
  | [], _ => by simp [copyCallsAll, blocksFrom]
  | v :: vs, first => by
    simp [copyCallsAll, blocksFrom, List.filterMap_map,
      filterMap_taken?_copyCalls v, filterMap_taken?_copyCallsAll vs (first + 1)]

end

mutual

/-- Storage is given back block by block, packages behind their elements. -/
theorem releaseCalls_eq : (v : Value) →
    v.releaseCalls = (v.blocks false).filterMap (·.2.freeCall?)
  | null | integer _ | string _ | bufferField _ | buffer _ => by
    simp [releaseCalls, blocks]
  | package elements => by
    simp [releaseCalls, blocks, releaseCallsAll_eq elements 0]

theorem releaseCallsAll_eq : (vs : List Value) → (first : Nat) →
    releaseCallsAll vs = (blocksFrom false first vs).filterMap (·.2.freeCall?)
  | [], _ => by simp [releaseCallsAll, blocksFrom]
  | v :: vs, first => by
    simp [releaseCallsAll, blocksFrom, List.filterMap_map,
      releaseCalls_eq v, releaseCallsAll_eq vs (first + 1)]

end

mutual

/-- Readings in the places of references change no block. -/
theorem filterMap_taken?_copyCalls_filled : (v : Value) → (readings : List UInt64) →
    (v.filled readings).copyCalls.filterMap HostCall.taken? =
      v.copyCalls.filterMap HostCall.taken?
  | null, _ | integer _, _ | string _, _ | buffer _, _ | bufferField _, [] => by simp only [filled]
  | bufferField _, _ :: _ => by simp [filled, copyCalls, HostCall.taken?]
  | package elements, readings => by
    simp [filled, copyCalls, HostCall.taken?, length_filledAll,
      filterMap_taken?_copyCallsAll_filledAll elements]

theorem filterMap_taken?_copyCallsAll_filledAll : (vs : List Value) → (readings : List UInt64) →
    (copyCallsAll (filledAll vs readings)).filterMap HostCall.taken? =
      (copyCallsAll vs).filterMap HostCall.taken?
  | [], _ => by simp only [filledAll]
  | v :: vs, readings => by
    rw [filledAll, copyCallsAll, copyCallsAll, List.filterMap_append, List.filterMap_append,
      filterMap_taken?_copyCalls_filled v, filterMap_taken?_copyCallsAll_filledAll vs]

end

/-! ### Calls that take and give back a value block by block -/

/-- The parts of a value that have a block, each of them once, with every package before
what is in it or after it. -/
structure Inventory (outerFirst : Bool) (v : Value) (parts : List (List Nat × Value)) : Prop where
  mem_iff : ∀ path part,
    (path, part) ∈ parts ↔ v.part? path = some part ∧ part.block?.isSome = true
  pairwise : parts.Pairwise (Apart outerFirst)

theorem inventory_blocks (outerFirst : Bool) (v : Value) :
    v.Inventory outerFirst (v.blocks outerFirst) :=
  ⟨fun path _ => mem_blocks v path, pairwise_blocks v⟩

/-- Among the calls are those that take the blocks of a value, each once and of the size
that the part of the value has, that of a package before those of its elements. -/
def TakenBy (v : Value) (calls : List HostCall) : Prop :=
  ∃ parts, v.Inventory true parts ∧
    calls.filterMap HostCall.taken? = parts.filterMap (·.2.block?)

/-- The calls are those that give the blocks of a value back, each once, that of a package
after those of its elements. -/
def GivenBackBy (v : Value) (calls : List HostCall) : Prop :=
  ∃ parts, v.Inventory false parts ∧ calls = parts.filterMap (·.2.freeCall?)

/-- **A copy takes its blocks.** -/
theorem takenBy_copyCalls (v : Value) (readings : List UInt64) :
    (v.filled readings).TakenBy v.copyCalls :=
  ⟨_, inventory_blocks true _, by
    rw [← filterMap_taken?_copyCalls, filterMap_taken?_copyCalls_filled]⟩

/-- **A value gives its blocks back.** -/
theorem givenBackBy_releaseCalls (v : Value) : v.GivenBackBy v.releaseCalls :=
  ⟨_, inventory_blocks false v, releaseCalls_eq v⟩

/-- No block is given back when a value is copied. -/
theorem filterMap_givenBack?_copyCalls (v : Value) :
    v.copyCalls.filterMap HostCall.givenBack? = [] :=
  List.filterMap_eq_nil_iff.2 fun call hcall => by
    have := supplies_of_mem_copyCalls v call hcall
    cases call <;> first | rfl | exact this.elim

/-- No block is asked for when a value is released. -/
theorem filterMap_taken?_releaseCalls (v : Value) :
    v.releaseCalls.filterMap HostCall.taken? = [] :=
  List.filterMap_eq_nil_iff.2 fun call hcall => by
    have := givesBack_of_mem_releaseCalls v call hcall
    cases call <;> first | rfl | exact this.elim

/-- What a value gives back are the blocks that a copy of it takes. -/
theorem perm_taken?_givenBack? (v : Value) :
    (v.copyCalls.filterMap HostCall.taken?).Perm
      (v.releaseCalls.filterMap HostCall.givenBack?) := by
  have hsize (part : Value) : part.freeCall?.bind HostCall.givenBack? = part.block? := by
    cases part <;> simp [freeCall?, block?, HostCall.givenBack?]
  rw [filterMap_taken?_copyCalls, releaseCalls_eq, List.filterMap_filterMap]
  simp only [hsize]
  exact (perm_blocks v).filterMap _

end Value
end Acpi
