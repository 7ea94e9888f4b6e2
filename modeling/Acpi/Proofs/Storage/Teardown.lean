/-
# Shutting down gives everything back

At shutdown the named values below the root go back to the host.  A node that is visited
gives its value back and keeps the empty one (`Platform.releaseName_eq`).  The walk is
over before the first value is given back, and it visits no node twice, so each of the
values goes back as it was when the shutdown began, and exactly once
(`Platform.releaseNames_eq`, by induction on what is still to be visited).

What is left is the namespace with empty values in the place of these
(`Namespace.emptied`).  Nothing else about it has changed, so it can be shut down again,
and then there is nothing to give back (`Namespace.Built.teardown`).
-/

import Acpi.Proofs.Storage.Copies
import Acpi.Proofs.Storage.Count
import Acpi.Proofs.Tree.Traversal

namespace Acpi

/-- The object with the empty value in the place of its value. -/
def Object.emptied : Object → Object
  | name _ => name .null
  | object => object

theorem Object.emptied_eq_self {object : Object} (h : object.value? = none) :
    object.emptied = object := by
  cases object <;> first | rfl | cases h

@[simp] theorem Object.emptied_emptied (object : Object) :
    object.emptied.emptied = object.emptied := by
  cases object <;> rfl

@[simp] theorem Object.value?_emptied (object : Object) :
    object.emptied.value? = object.value?.map fun _ => .null := by
  cases object <;> rfl

namespace Namespace

variable {ns : Namespace} {id top : NodeId} {ids : List NodeId} {v : Value}

/-- The values of the nodes below a node, in preorder. -/
def valuesBelow (ns : Namespace) (top : NodeId) : List Value := (ns.below top).filterMap ns.value?

/-- The namespace with empty values in the place of the values of some nodes. -/
def emptied (ns : Namespace) (ids : List NodeId) : Namespace :=
  { ns with nodes := ns.nodes.mapIdx fun i n =>
      if ⟨i⟩ ∈ ids then { n with object := n.object.emptied } else n }

theorem nodes_emptied (ns : Namespace) (ids : List NodeId) (i : Nat) :
    (ns.emptied ids).nodes[i]? = ns.nodes[i]?.map fun n =>
      if ⟨i⟩ ∈ ids then { n with object := n.object.emptied } else n :=
  Array.getElem?_mapIdx

@[simp] theorem size_emptied (ns : Namespace) (ids : List NodeId) :
    (ns.emptied ids).size = ns.size := by
  simp [size, emptied]

theorem eq_of_nodes {ns' : Namespace} (hroot : ns.root = ns'.root)
    (hnodes : ∀ i : Nat, ns.nodes[i]? = ns'.nodes[i]?) : ns = ns' := by
  obtain ⟨nodes, root⟩ := ns
  obtain ⟨nodes', root'⟩ := ns'
  obtain rfl : root = root' := hroot
  exact congrArg (Namespace.mk · root) (Array.ext_getElem? hnodes)

theorem value?_emptied (ns : Namespace) (ids : List NodeId) (id : NodeId) :
    (ns.emptied ids).value? id =
      if id ∈ ids then (ns.value? id).map fun _ => .null else ns.value? id := by
  rw [value?, nodes_emptied, value?]
  cases ns.nodes[id.index]? with
  | none => split_ifs <;> rfl
  | some n => by_cases h : id ∈ ids <;> simp [h]

theorem emptied_eq_self (h : ∀ id ∈ ids, ns.value? id = none) : ns.emptied ids = ns := by
  refine eq_of_nodes rfl fun i => ?_
  rw [nodes_emptied]
  cases hn : ns.nodes[i]? with
  | none => rfl
  | some n =>
    by_cases hi : (⟨i⟩ : NodeId) ∈ ids
    · have hv := h _ hi
      rw [value?, hn, Option.bind_some] at hv
      simp [hi, Object.emptied_eq_self hv]
    · simp [hi]

/-- One node after the other. -/
theorem emptied_cons (ns : Namespace) (id : NodeId) (ids : List NodeId) :
    (ns.emptied [id]).emptied ids = ns.emptied (id :: ids) := by
  refine eq_of_nodes rfl fun i => ?_
  rw [nodes_emptied, nodes_emptied, nodes_emptied, Option.map_map]
  refine congrArg (Option.map · _) (funext fun n => ?_)
  by_cases h₁ : (⟨i⟩ : NodeId) = id <;> by_cases h₂ : (⟨i⟩ : NodeId) ∈ ids <;> simp [h₁, h₂]

theorem emptied_emptied (ns : Namespace) (ids : List NodeId) :
    (ns.emptied ids).emptied ids = ns.emptied ids := by
  refine eq_of_nodes rfl fun i => ?_
  rw [nodes_emptied, nodes_emptied, Option.map_map]
  refine congrArg (Option.map · _) (funext fun n => ?_)
  by_cases h : (⟨i⟩ : NodeId) ∈ ids <;> simp [h]

/-- A node is emptied by putting the empty value in its place. -/
theorem setObject_null (h : ns.value? id = some v) :
    ns.setObject id (.name .null) = .ok (ns.emptied [id]) := by
  obtain ⟨n, hn, hv⟩ := Option.bind_eq_some_iff.1 h
  have hlt := (Array.getElem?_eq_some_iff.1 hn).1
  rw [setObject, if_pos hlt]
  refine congrArg Except.ok (eq_of_nodes rfl fun i => ?_)
  rw [nodes_emptied, Array.getElem?_modify]
  by_cases hi : id.index = i
  · subst hi
    rw [hn]
    cases hobject : n.object with
    | name u => simp [Object.emptied, hobject]
    | _ => simp [hobject, Object.value?] at hv
  · have hne : (⟨i⟩ : NodeId) ≠ id := fun h => hi (congrArg NodeId.index h).symm
    simp [hi, hne]

/-- What holds whatever object is put into the place of another one holds when nodes have
been emptied. -/
theorem emptied_induction {motive : Namespace → Prop}
    (hset : ∀ {ns ns' : Namespace} {id object}, motive ns → ns.setObject id object = .ok ns' →
      motive ns') (hns : motive ns) (ids : List NodeId) : motive (ns.emptied ids) := by
  induction ids generalizing ns with
  | nil => rwa [emptied_eq_self (by simp)]
  | cons id rest ih =>
    rw [← emptied_cons]
    refine ih ?_
    cases hv : ns.value? id with
    | none => rwa [emptied_eq_self (List.forall_mem_singleton.2 hv)]
    | some v => exact hset hns (setObject_null hv)

theorem Built.emptied (built : ns.Built) (ids : List NodeId) : (ns.emptied ids).Built :=
  emptied_induction .setObject built ids

theorem below_emptied (built : ns.Built) (ids : List NodeId) (p : NodeId) :
    (ns.emptied ids).below p = ns.below p := by
  have hchildren : ∀ p, (ns.emptied ids).childList p = ns.childList p :=
    emptied_induction (motive := fun ns' => ∀ p, ns'.childList p = ns.childList p)
      (fun h hset p => (childList_of_setObject hset p).trans (h p)) (fun _ => rfl) ids
  exact built.linked.pruned_congr (built.emptied ids).linked hchildren _ p

/-- Emptied nodes have as many values as before, all of them empty. -/
theorem valuesBelow_emptied (built : ns.Built) (top : NodeId) :
    (ns.emptied (ns.below top)).valuesBelow top =
      List.replicate (ns.valuesBelow top).length .null := by
  have hempty : (ns.below top).filterMap (ns.emptied (ns.below top)).value? =
      (ns.below top).filterMap fun id => (ns.value? id).map fun _ => .null :=
    List.filterMap_congr fun id hid => by rw [value?_emptied, if_pos hid]
  rw [valuesBelow, below_emptied built, hempty, ← List.map_const', valuesBelow,
    List.map_filterMap]

end Namespace

namespace Value

mutual

/-- One call gives each buffer and each package back. -/
theorem length_releaseCalls : (v : Value) → v.releaseCalls.length = v.storage
  | null | integer _ | string _ | bufferField _ | buffer _ => by simp [releaseCalls, storage]
  | package elements => by simp [releaseCalls, storage, length_releaseCallsAll elements]

theorem length_releaseCallsAll : (vs : List Value) → (releaseCallsAll vs).length = storageAll vs
  | [] => by simp [releaseCallsAll, storageAll]
  | v :: vs => by
    simp [releaseCallsAll, storageAll, length_releaseCalls v, length_releaseCallsAll vs]

end

end Value

variable {η ν : Type}

open Effect Machine

/-- The counting host counts every call that gives storage back, and does nothing else. -/
theorem Host.askAll_givesBack_counting {calls : List HostCall}
    (h : ∀ call ∈ calls, call.GivesBack) {w w' : World Counters ν} {exchanges : List Exchange}
    (hask : countingHost.askAll calls w = .ok (exchanges, w')) :
    w'.host = { w.host with frees := w.host.frees + calls.length } := by
  induction calls generalizing w exchanges with
  | nil =>
    obtain ⟨-, rfl⟩ := Prod.mk.inj (pure_eq_ok.1 (by simpa only [Host.askAll] using hask))
    rfl
  | cons call calls ih =>
    obtain ⟨hcall, hcalls⟩ := List.forall_mem_cons.1 h
    rw [Host.askAll, bind_eq_ok] at hask
    obtain ⟨answer, _, hfirst, hask⟩ := hask
    obtain ⟨state, hstate, rfl⟩ := Host.ask_eq_ok.1 hfirst
    obtain ⟨rest, _, hrest, hask⟩ := bind_eq_ok.1 hask
    obtain ⟨-, rfl⟩ := Prod.mk.inj (pure_eq_ok.1 hask)
    have hstate : state = { w.host with frees := w.host.frees + 1 } := by
      cases call with
      | freeBytes bytes => exact (Prod.mk.inj (Except.ok.inj hstate)).2.symm
      | freeElements elements =>
        simp only [countingHost] at hstate
        split at hstate
        · exact (Prod.mk.inj (Except.ok.inj hstate)).2.symm
        · cases hstate
      | _ => exact hcall.elim
    rw [ih hcalls hrest, World.host_called, hstate, List.length_cons, Nat.add_assoc,
      Nat.add_comm 1]

theorem filterMap_cons_eq {α β : Type} (f : α → Option β) (a : α) (l : List α) :
    (a :: l).filterMap f = (f a).toList ++ l.filterMap f := by
  cases h : f a <;> simp [h]

namespace Platform

variable {m : Machine η ν} {node : NodeId} {ids : List NodeId}

/-- **One node at shutdown**: it gives back the value that it has, if it has one. -/
theorem releaseName_eq (p : Platform η ν) (h : node.index < m.space.size) :
    p.releaseName node m =
      (p.host.askAll (Value.releaseCallsAll (m.space.value? node).toList) m.world).map fun r =>
        ((m.space.value? node).isSome, ⟨m.space.emptied [node], r.2, m.depth⟩) := by
  rw [releaseName, bind_apply, onSpace_apply]
  cases hv : m.space.value? node with
  | none =>
    rw [Namespace.emptied_eq_self (List.forall_mem_singleton.2 hv)]
    obtain ⟨n, hn⟩ := Namespace.node_eq_ok_of_lt h
    have hobject : n.object.value? = none := by
      rwa [Namespace.value?, Namespace.node_eq_ok_iff.1 hn] at hv
    rw [Namespace.object, hn]
    cases hn : n.object with
    | name u =>
      rw [hn] at hobject
      cases hobject
    | _ =>
      simp only [Functor.map, Except.map, hn]
      rfl
  | some v =>
    rw [Namespace.value?_eq_some_iff.1 hv, Option.toList_some, Value.releaseCallsAll,
      Value.releaseCallsAll, List.append_nil]
    show (onWorld (v.release p.host) >>= _) m = _
    rw [bind_apply, onWorld_apply, Value.release_eq, map_apply]
    cases p.host.askAll v.releaseCalls m.world with
    | error f => rfl
    | ok r =>
      simp only [Except.map, Except.bind, bind_apply, get_apply]
      rw [Namespace.setObject_null hv]
      rfl

/-- **All nodes at shutdown**: what is given back are the values that were there before
the first of them was. -/
theorem releaseNames_eq (p : Platform η ν) (hnodup : ids.Nodup)
    (hlt : ∀ id ∈ ids, id.index < m.space.size) :
    p.releaseNames ids m =
      (p.host.askAll (Value.releaseCallsAll (ids.filterMap m.space.value?)) m.world).map fun r =>
        ((ids.filterMap m.space.value?).length, ⟨m.space.emptied ids, r.2, m.depth⟩) := by
  induction ids generalizing m with
  | nil =>
    rw [Namespace.emptied_eq_self (by simp)]
    rfl
  | cons id rest ih =>
    obtain ⟨hnew, hnodup⟩ := List.nodup_cons.1 hnodup
    obtain ⟨hid, hlt⟩ := List.forall_mem_cons.1 hlt
    -- the values still to come are not those that are gone
    have hvalues : rest.filterMap (m.space.emptied [id]).value? =
        rest.filterMap m.space.value? := List.filterMap_congr fun d hd => by
      have hne : d ∉ [id] := fun h => hnew (List.mem_singleton.1 h ▸ hd)
      rw [Namespace.value?_emptied, if_neg hne]
    rw [releaseNames, bind_apply, releaseName_eq p hid, filterMap_cons_eq,
      Value.releaseCallsAll_append, Host.askAll_append, bind_apply]
    cases p.host.askAll (Value.releaseCallsAll (m.space.value? id).toList) m.world with
    | error f => rfl
    | ok r =>
      simp only [Except.map, Except.bind, bind_apply]
      rw [ih hnodup (by simpa using hlt), hvalues]
      cases p.host.askAll (Value.releaseCallsAll (rest.filterMap m.space.value?)) r.2 with
      | error f => rfl
      | ok r' =>
        rw [← Namespace.emptied_cons m.space id rest]
        cases m.space.value? id <;> rfl

end Platform

namespace Namespace

variable {ns : Namespace} {top : NodeId} {m m' : Machine η ν}

/-- A shutdown makes the calls that release the values below the root, and no other. -/
theorem Built.shutdown_eq (built : ns.Built) (htop : top.index < ns.size) (p : Platform η ν)
    (hm : m.space = ns.rootedAt top) :
    p.shutdown m =
      (p.host.askAll (Value.releaseCallsAll (ns.valuesBelow top)) m.world).map fun r =>
        ((), ⟨(ns.emptied (ns.below top)).rootedAt top,
          r.2.add (.log (.released (ns.valuesBelow top).length)), m.depth⟩) := by
  have hwalk : m.space.walk = .ok (ns.below top) := by
    rw [hm]
    exact built.walk_rootedAt htop
  have hlt : ∀ id ∈ ns.below top, id.index < m.space.size := fun id hid => by
    rw [hm]
    exact built.lt_size_of_mem_below hid
  rw [Platform.shutdown, bind_apply, onSpace_apply, hwalk]
  simp only [Except.map, Except.bind, bind_apply]
  rw [Platform.releaseNames_eq p (built.nodup_below top) hlt, hm]
  have hvalues : (ns.below top).filterMap (ns.rootedAt top).value? = ns.valuesBelow top := rfl
  rw [hvalues]
  cases p.host.askAll (Value.releaseCallsAll (ns.valuesBelow top)) m.world <;> rfl

/-- **What a shutdown has done.** -/
theorem Built.shutdown_cases (built : ns.Built) (htop : top.index < ns.size) {p : Platform η ν}
    (hm : m.space = ns.rootedAt top) (h : p.shutdown m = .ok ((), m')) :
    ∃ exchanges w,
      p.host.askAll (Value.releaseCallsAll (ns.valuesBelow top)) m.world = .ok (exchanges, w) ∧
      m' = ⟨(ns.emptied (ns.below top)).rootedAt top,
        w.add (.log (.released (ns.valuesBelow top).length)), m.depth⟩ := by
  rw [built.shutdown_eq htop p hm] at h
  cases hask : p.host.askAll (Value.releaseCallsAll (ns.valuesBelow top)) m.world with
  | error f =>
    rw [hask] at h
    cases h
  | ok r =>
    rw [hask] at h
    exact ⟨r.1, r.2, rfl, (Prod.mk.inj (Except.ok.inj h)).2.symm⟩

/-- **There is nothing left to give back.** -/
theorem Built.shutdown_emptied (built : ns.Built) (htop : top.index < ns.size) (p : Platform η ν)
    (hm : m.space = (ns.emptied (ns.below top)).rootedAt top) :
    p.shutdown m = .ok ((), m.logged (.released (ns.valuesBelow top).length)) := by
  have htop' : top.index < (ns.emptied (ns.below top)).size := by rwa [size_emptied]
  rw [(built.emptied _).shutdown_eq htop' p hm, valuesBelow_emptied built, below_emptied built,
    emptied_emptied, ← hm, Value.releaseCallsAll_replicate_null, List.length_replicate]
  rfl

/-- **A shutdown gives back every value below the root, once.**  It releases the values of
the nodes below the root in preorder and asks the host for nothing else.  After it these
nodes have the empty value; all other objects, that of the root among them, and all names
and links are as they were.  The number of the values is written down at the end.  A host
that refuses only what it may refuse lets the shutdown finish.  What is left can be shut
down again, at any time and on any platform, and then nothing happens but that the number
is written down again.  A host that counts finds that as many blocks have come back as
there are buffers and packages in the values. -/
theorem Built.teardown (built : ns.Built) (htop : top.index < ns.size) :
    (∀ id, id ∈ ns.below top ↔ Relation.TransGen ns.Up id top) ∧
    (∀ {η ν : Type} (p : Platform η ν) (m : Machine η ν), m.space = ns.rootedAt top →
      (p.shutdown m = (Value.releaseAll p.host (ns.valuesBelow top) m.world).map fun r =>
        ((), ⟨(ns.emptied (ns.below top)).rootedAt top,
          r.2.add (.log (.released (ns.valuesBelow top).length)), m.depth⟩)) ∧
      (p.host.Willing → ∃ m', p.shutdown m = .ok ((), m')) ∧
      ∀ m', p.shutdown m = .ok ((), m') →
        m'.space.root = top ∧
        (∀ i : Nat, m'.space.nodes[i]? = ns.nodes[i]?.map fun n =>
          if ⟨i⟩ ∈ ns.below top then { n with object := n.object.emptied } else n) ∧
        m'.world.journal.toList = m.world.journal.toList ++
          ((ns.valuesBelow top).flatMap Value.releaseCalls).map .host ++
          [.log (.released (ns.valuesBelow top).length)] ∧
        ∀ (p' : Platform η ν) (m₂ : Machine η ν), m₂.space = m'.space →
          p'.shutdown m₂ = .ok ((), m₂.logged (.released (ns.valuesBelow top).length))) ∧
    ∀ {ν : Type} (p : Platform Counters ν) (m m' : Machine Counters ν), p.host = countingHost →
      m.space = ns.rootedAt top → p.shutdown m = .ok ((), m') →
      m'.world.host = { m.world.host with
        frees := m.world.host.frees + ((ns.valuesBelow top).map Value.storage).sum } := by
  refine ⟨fun id => built.mem_below, fun {η ν} p m hm => ?_, fun {ν} p m m' hp hm h => ?_⟩
  · have heq := built.shutdown_eq htop p hm
    refine ⟨?_, fun willing => ?_, fun m' h => ?_⟩
    · rw [heq, Value.releaseAll_eq, map_apply]
      cases p.host.askAll (Value.releaseCallsAll (ns.valuesBelow top)) m.world <;> rfl
    · obtain ⟨exchanges, w, hask⟩ := willing.askAll (fun call hcall =>
        (Value.givesBack_of_mem_releaseCallsAll (ns.valuesBelow top) call hcall).clean) m.world
      exact ⟨_, by rw [heq, hask]; rfl⟩
    · obtain ⟨exchanges, w, hask, rfl⟩ := built.shutdown_cases htop hm h
      refine ⟨rfl, fun i => nodes_emptied ns (ns.below top) i, ?_,
        fun p' m₂ hm₂ => built.shutdown_emptied htop p' hm₂⟩
      rw [World.journal_add, (Host.askAll_cases hask).2, Value.releaseCallsAll_eq_flatMap]
  · obtain ⟨exchanges, w, hask, rfl⟩ := built.shutdown_cases htop hm h
    rw [hp] at hask
    rw [World.host_add, Host.askAll_givesBack_counting
      (Value.givesBack_of_mem_releaseCallsAll (ns.valuesBelow top)) hask,
      Value.length_releaseCallsAll, Value.storageAll_eq_sum]

/-- A root that holds nothing, with two values below it and a third one below the first. -/
def threeValues : Namespace :=
  ⟨#[⟨Segment.root, .scope, none, some ⟨1⟩, some ⟨2⟩, none⟩,
    ⟨⟨0x50, 0x43, 0x49, 0x30⟩, .name (.buffer [1]), some ⟨0⟩, some ⟨3⟩, some ⟨3⟩, some ⟨2⟩⟩,
    ⟨⟨0x50, 0x43, 0x49, 0x31⟩, .name (.buffer [2]), some ⟨0⟩, none, none, none⟩,
    ⟨⟨0x4E, 0x49, 0x43, 0x30⟩, .name Value.mixed, some ⟨1⟩, none, none, none⟩], NodeId.first⟩

theorem built_threeValues : threeValues.Built := by
  have h₁ := @Built.setObject _ _ ⟨1⟩ (.name (.buffer [1])) built_threeDevices rfl
  have h₂ := @Built.setObject _ _ ⟨2⟩ (.name (.buffer [2])) h₁ rfl
  exact @Built.setObject _ _ ⟨3⟩ (.name Value.mixed) h₂ rfl

/-- A shutdown below the first of three values. -/
theorem Built.teardown_threeValues :
    threeValues.Built ∧ (⟨1⟩ : NodeId).index < threeValues.size ∧ countingHost.Willing ∧
      ∃ m' : Machine Counters Unit,
        (⟨countingHost, fun _ => .done (), defaultCallDepth⟩ : Platform Counters Unit).shutdown
            (.start (threeValues.rootedAt ⟨1⟩) Counters.zero) = .ok ((), m') ∧
          m'.world.host.frees = 6 ∧ m'.space.object ⟨1⟩ = .ok (.name (.buffer [1])) ∧
          m'.space.object ⟨3⟩ = .ok (.name .null) := by
  have htop : (⟨1⟩ : NodeId).index < threeValues.size := by decide
  have hbelow : threeValues.below ⟨1⟩ = [⟨3⟩] := by
    have h₁ : threeValues.childList ⟨1⟩ = [⟨3⟩] := by decide +kernel
    have h₃ : threeValues.childList ⟨3⟩ = [] := by decide +kernel
    rw [built_threeValues.linked.below_eq, h₁, List.flatMap_singleton,
      built_threeValues.linked.below_eq, h₃, List.flatMap_nil]
  have hvalues : threeValues.valuesBelow ⟨1⟩ = [Value.mixed] := by
    rw [valuesBelow, hbelow]
    rfl
  obtain ⟨-, hany, hcounts⟩ := built_threeValues.teardown htop
  obtain ⟨-, hfinishes, hdone⟩ := hany
    (⟨countingHost, fun _ => .done (), defaultCallDepth⟩ : Platform Counters Unit)
    (.start (threeValues.rootedAt ⟨1⟩) Counters.zero) rfl
  obtain ⟨m', h⟩ := hfinishes willing_countingHost
  obtain ⟨-, hnodes, -, -⟩ := hdone m' h
  refine ⟨built_threeValues, htop, willing_countingHost, m', h, ?_, ?_, ?_⟩
  · rw [hcounts _ _ m' rfl rfl h, hvalues]
    decide +kernel
  · rw [object, node, hnodes, hbelow]
    decide +kernel
  · rw [object, node, hnodes, hbelow]
    decide +kernel

end Namespace
end Acpi
