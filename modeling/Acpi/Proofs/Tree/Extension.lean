/-
# Adding a node disturbs nothing

A node that is added is the last child of its parent, so it is taken in a descent
only where no older child has its name.  What could be reached is reached as
before, and of the strings that led nowhere just those lead to the new node that
lead to its parent and end in its name (`Built.descend_of_addChild`).  A search can
get to the new node earlier than to what it found before, but it never finds
anything else (`Built.search_of_addChild`).  The walk goes as before and passes the
new node on its way (`Built.below_of_addChild`).
-/

import Acpi.Proofs.Tree.Ancestry
import Acpi.Proofs.Tree.Traversal
import Mathlib.Data.List.Find
import Mathlib.Data.List.Induction

namespace Acpi
namespace Namespace

variable {ns ns' : Namespace} {id p q c : NodeId} {name n : Segment} {object : Object}
  {names : List Segment} {v : List UInt8}

/-- A node can be added below every node that is there. -/
theorem addChild_eq_ok (hq : q.index < ns.size) (name : Segment) (object : Object) :
    ∃ ns', ns.addChild q name object = .ok (⟨ns.size⟩, ns') := by
  have hparent : (ns.nodes.push ⟨name, object, some q, none, none, none⟩)[q.index]? =
      ns.nodes[q.index]? :=
    Array.getElem?_push.trans (if_neg (Nat.ne_of_lt hq))
  obtain ⟨parent, hnode⟩ := node_eq_ok_of_lt hq
  simp only [addChild, hparent, node_eq_ok_iff.1 hnode]
  exact ⟨_, rfl⟩

/-- What the nodes that were there are keeps to them. -/
theorem node_of_addChild_of_lt (hq : q.index < ns.size)
    (h : ns.addChild q name object = .ok (id, ns')) (hp : p.index < ns.size) :
    ∃ old new, ns.node p = .ok old ∧ ns'.node p = .ok new ∧
      new.name = old.name ∧ new.object = old.object ∧ new.parent = old.parent := by
  obtain ⟨_, -, hold, -⟩ := nodes_of_addChild hq h
  obtain ⟨old, hnode⟩ := node_eq_ok_of_lt hp
  have hnew := hold p.index hp
  rw [node_eq_ok_iff.1 hnode, Option.map_some] at hnew
  exact ⟨old, _, hnode, node_eq_ok_iff.2 hnew, rfl, rfl, rfl⟩

theorem name_eq_of_addChild (hq : q.index < ns.size)
    (h : ns.addChild q name object = .ok (id, ns')) (hp : p.index < ns.size) :
    ns'.name p = ns.name p := by
  obtain ⟨old, new, hold, hnew, hname, -⟩ := node_of_addChild_of_lt hq h hp
  rw [Namespace.name, Namespace.name, hold, hnew]
  exact congrArg Except.ok hname

theorem object_eq_of_addChild (hq : q.index < ns.size)
    (h : ns.addChild q name object = .ok (id, ns')) (hp : p.index < ns.size) :
    ns'.object p = ns.object p := by
  obtain ⟨old, new, hold, hnew, -, hobject, -⟩ := node_of_addChild_of_lt hq h hp
  rw [Namespace.object, Namespace.object, hold, hnew]
  exact congrArg Except.ok hobject

theorem parent_eq_of_addChild (hq : q.index < ns.size)
    (h : ns.addChild q name object = .ok (id, ns')) (hp : p.index < ns.size) :
    ns'.parent p = ns.parent p := by
  obtain ⟨old, new, hold, hnew, -, -, hparent⟩ := node_of_addChild_of_lt hq h hp
  obtain ⟨-, -, hroot, -⟩ := addChild_cases h
  rw [parent, parent, hroot, hold, hnew]
  split
  · rfl
  · exact congrArg Except.ok hparent

theorem name_addChild_new (h : ns.addChild q name object = .ok (id, ns')) :
    ns'.name id = .ok name := by
  obtain ⟨rfl, -, -, hnames, -, -⟩ := addChild_cases h
  have hlength : ns.names.length = ns.size := by simp [names, size]
  rw [name_eq_ok_iff, hnames, ← hlength, List.getElem?_concat_length]

/-- **The earliest child of a name after a node has been added**: the one that
there was, or else the new node if it is such a child. -/
theorem eldest_of_addChild (hq : q.index < ns.size)
    (h : ns.addChild q name object = .ok (id, ns')) (p : NodeId) (n : Segment) :
    ns'.eldest p n = (ns.eldest p n).or (if p = q ∧ n = name then some id else none) := by
  have hold : (ns.childList p).find? (ns'.isNamed n) = (ns.childList p).find? (ns.isNamed n) := by
    refine List.find?_congr fun c hc => ?_
    rw [Bool.eq_iff_iff, isNamed_iff, isNamed_iff,
      name_eq_of_addChild hq h (lt_size_of_mem_childList hc)]
  have hnew : ns'.isNamed n id = true ↔ n = name := by
    rw [isNamed_iff, name_addChild_new h, Except.ok.injEq, eq_comm]
  obtain ⟨hid, -⟩ := addChild_cases h
  rw [eldest, childList_of_addChild h, List.find?_append, hold, ← hid, eldest]
  congr 1
  by_cases hp : q = p
  · subst hp
    simp [List.find?_singleton, hnew]
  · rw [if_neg hp, if_neg fun he => hp he.1.symm, List.find?_nil]

namespace Built

theorem childList_addChild_new (built : ns.Built) (hq : q.index < ns.size)
    (h : ns.addChild q name object = .ok (id, ns')) : ns'.childList id = [] := by
  obtain ⟨rfl, -⟩ := addChild_cases h
  have hne : q ≠ ⟨ns.size⟩ := by
    rintro rfl
    exact Nat.lt_irrefl _ hq
  rw [childList_of_addChild h, built.linked.childList_eq_nil (p := ⟨ns.size⟩) (Nat.le_refl _),
    if_neg hne, List.append_nil]

/-- **Where names lead after a node has been added**: where they led, or else to
the new node if they lead to its parent and then name it.  The induction takes
the last name off, as only this one can name the new node. -/
theorem follow_of_addChild (built : ns.Built) (hq : q.index < ns.size)
    (h : ns.addChild q name object = .ok (id, ns')) (p : NodeId) (names : List Segment)
    (d : NodeId) :
    ns'.follow p names = some d ↔ ns.follow p names = some d ∨
      ns.follow p names = none ∧ d = id ∧ ∃ up, names = up ++ [name] ∧ ns.follow p up = some q := by
  induction names using List.reverseRecOn generalizing d with
  | nil => simp [follow]
  | append_singleton names n ih =>
    rw [follow_concat, follow_concat]
    have hlast (c : NodeId) (hc : ns.follow p names = some c) :
        (∃ up, names ++ [n] = up ++ [name] ∧ ns.follow p up = some q) ↔ c = q ∧ n = name := by
      constructor
      · rintro ⟨up, hup, hq⟩
        obtain ⟨rfl, hn⟩ := List.append_inj' hup rfl
        exact ⟨Option.some.inj (hc.symm.trans hq), (List.cons.inj hn).1⟩
      · rintro ⟨rfl, rfl⟩
        exact ⟨names, rfl, hc⟩
    cases hc : ns.follow p names with
    | some c =>
      rw [(ih c).2 (.inl hc), Option.bind_some, Option.bind_some, eldest_of_addChild hq h,
        hlast c hc]
      by_cases hnew : c = q ∧ n = name
      · cases ns.eldest c n <;> simp [hnew, eq_comm]
      · simp [hnew]
    | none =>
      have hold : ¬∃ up, names ++ [n] = up ++ [name] ∧ ns.follow p up = some q := by
        rintro ⟨up, hup, hq⟩
        obtain ⟨rfl, -⟩ := List.append_inj' hup rfl
        cases hc.symm.trans hq
      have hnew (c : NodeId) (hc' : ns'.follow p names = some c) : ns'.eldest c n = none := by
        rcases (ih c).1 hc' with hc' | ⟨-, rfl, -⟩
        · cases hc.symm.trans hc'
        · rw [eldest, built.childList_addChild_new hq h, List.find?_nil]
      simp only [Option.bind_none, hold, and_false, or_false, reduceCtorEq, iff_false]
      cases hc' : ns'.follow p names with
      | none => exact fun he => by cases he
      | some c => simp [hnew c hc']

/-- A string of bytes leads where it led, or else to the new node if it leads to
its parent and ends in its name. -/
theorem descend_of_addChild (built : ns.Built) (hq : q.index < ns.size)
    (h : ns.addChild q name object = .ok (id, ns')) (hp : p.index < ns.size) (v : List UInt8)
    (d : NodeId) :
    ns'.descend p v = .ok (some d) ↔ ns.descend p v = .ok (some d) ∨
      ns.descend p v = .ok none ∧ d = id ∧
        ∃ up, v = up ++ name.bytes ∧ ns.descend p up = .ok (some q) := by
  have hp' := lt_size_of_addChild h hp
  have built' : ns'.Built := .addChild built hq h
  by_cases hv : 4 ∣ v.length
  · obtain ⟨names, rfl⟩ : ∃ names, v = Path.joined names := ⟨_, (Path.joined_segmentsOf hv).symm⟩
    have hup : (∃ up, Path.joined names = up ++ name.bytes ∧ ns.descend p up = .ok (some q)) ↔
        ∃ up, names = up ++ [name] ∧ ns.follow p up = some q := by
      constructor
      · rintro ⟨up, hup, hdescend⟩
        have hwhole : 4 ∣ up.length := by
          have hlength := congrArg List.length hup
          rw [Path.length_joined, List.length_append, Segment.length_bytes] at hlength
          omega
        rw [← Path.joined_segmentsOf hwhole] at hup hdescend
        rw [← Path.joined_concat] at hup
        refine ⟨Path.segmentsOf up, ?_, ?_⟩
        · rw [← Path.segmentsOf_joined names, hup, Path.segmentsOf_joined]
        · exact Except.ok.inj ((built.descend_joined hp _).symm.trans hdescend)
      · rintro ⟨up, rfl, hfollow⟩
        exact ⟨Path.joined up, Path.joined_concat up name, by rw [built.descend_joined hp, hfollow]⟩
    rw [built'.descend_joined hp', built.descend_joined hp, hup]
    simpa only [Except.ok.injEq] using built.follow_of_addChild hq h p names d
  · have hup (up : List UInt8) (hv' : v = up ++ name.bytes) : ¬4 ∣ up.length := by
      rintro ⟨k, hk⟩
      refine hv ⟨k + 1, ?_⟩
      rw [hv', List.length_append, Segment.length_bytes, hk, Nat.mul_succ]
    have hold : ns.descend p v = .ok none := by rw [built.descend_eq hp, if_neg hv]
    have hnew : ns'.descend p v = .ok none := by rw [built'.descend_eq hp', if_neg hv]
    have hnowhere : ¬∃ up, v = up ++ name.bytes ∧ ns.descend p up = .ok (some q) := by
      rintro ⟨up, hv', hdescend⟩
      rw [built.descend_eq hp, if_neg (hup up hv')] at hdescend
      cases hdescend
    simp [hold, hnew, hnowhere]

theorem exists_search (built : ns.Built) (hp : p.index < ns.size) (v : List UInt8) :
    ∃ r, ns.search p v = .ok r := by
  obtain ⟨scope, habove, hsearch⟩ := built.exists_search_eq_descend hp v
  have hscope := Nat.lt_of_le_of_lt (built.reflTransGen_up_le habove) hp
  exact hsearch ▸ built.exists_descend hscope v

/-- **A search finds what it found before, or the new node**, by induction on the
way up to the root. -/
theorem search_of_addChild (built : ns.Built) (hq : q.index < ns.size)
    (h : ns.addChild q name object = .ok (id, ns')) (hp : p.index < ns.size) (v : List UInt8) :
    ns'.search p v = ns.search p v ∨ ns'.search p v = .ok (some id) := by
  have built' : ns'.Built := .addChild built hq h
  have hroot' : ns'.root = ns.root := (addChild_cases h).2.2.1
  -- it is only where neither finds anything that both go on
  have hcases {p : NodeId} (hp : p.index < ns.size) :
      (ns'.search p v = ns.search p v ∨ ns'.search p v = .ok (some id)) ∨
        ns.descend p v = .ok none ∧ ns'.descend p v = .ok none := by
    obtain ⟨r, hnew⟩ := built'.exists_descend (lt_size_of_addChild h hp) v
    obtain ⟨_ | d, hold⟩ := built.exists_descend hp v
    · cases r with
      | none => exact .inr ⟨hold, hnew⟩
      | some d =>
        rcases (built.descend_of_addChild hq h hp v d).1 hnew with hold' | ⟨-, rfl, -⟩
        · cases hold.symm.trans hold'
        · exact .inl (.inr (search_of_found hnew))
    · have hkept := (built.descend_of_addChild hq h hp v d).2 (.inl hold)
      exact .inl (.inl ((search_of_found hkept).trans (search_of_found hold).symm))
  have hreaches := built.reaches_root hp
  clear hp
  induction hreaches using Relation.ReflTransGen.head_induction_on with
  | refl =>
    rcases hcases built.root_lt_size with hfound | ⟨hold, hnew⟩
    · exact hfound
    · rw [← hroot'] at hnew
      have hnew' := search_root_of_not_found hnew
      rw [hroot'] at hnew'
      exact .inl (hnew'.trans (search_root_of_not_found hold).symm)
  | head hup _ ih =>
    have hp := lt_size_of_mem_childList (built.up_iff.1 hup)
    rcases hcases hp with hfound | ⟨hold, hnew⟩
    · exact hfound
    · have hup' : ns'.Up _ _ := (parent_eq_of_addChild hq h hp).trans hup
      rwa [built'.search_up hnew hup', built.search_up hold hup]

/-- **What is below a node, but for the new one, is what was below it.** -/
theorem below_of_addChild (built : ns.Built) (hq : q.index < ns.size)
    (h : ns.addChild q name object = .ok (id, ns')) (p : NodeId) :
    (ns'.below p).filter (· ≠ id) = ns.below p := by
  have built' : ns'.Built := .addChild built hq h
  have hid : id = ⟨ns.size⟩ := (addChild_cases h).1
  have hleaf : ns'.below id = [] := by
    rw [built'.linked.below_eq, built.childList_addChild_new hq h, List.flatMap_nil]
  induction p using built'.linked.induction with
  | h p ih =>
    have hold : ∀ c ∈ ns.childList p, (c :: ns'.below c).filter (· ≠ id) = c :: ns.below c := by
      intro c hc
      have hne : c ≠ id := by
        rintro rfl
        have hlt := lt_size_of_mem_childList hc
        rw [hid] at hlt
        exact Nat.lt_irrefl _ hlt
      have hc' : c ∈ ns'.childList p := childList_of_addChild h p ▸ List.mem_append_left _ hc
      rw [List.filter_cons_of_pos (by simpa using hne), ih c hc']
    rw [built'.linked.below_eq, List.filter_flatMap, childList_of_addChild h, List.flatMap_append,
      List.flatMap_congr hold, ← built.linked.below_eq, ← hid]
    split <;> simp [hleaf]

/-- **Adding a node disturbs nothing.**  A node can be added below any node.  What
could be reached from a node that was there is reached from it as before.  Of the
strings that led nowhere, those lead to the new node that lead to its parent and
then spell its name, and the others still lead nowhere.  A search finds what it
found, or the new node.  Without the new node, the walk is what it was, and every
other node keeps its name, its parent and its object. -/
theorem undisturbed_addChild (built : ns.Built) (hq : q.index < ns.size) (name : Segment)
    (object : Object) :
    ∃ id ns', ns.addChild q name object = .ok (id, ns') ∧ ns.size ≤ id.index ∧
      (∀ p, p.index < ns.size → ∀ v,
        (∃ r, ns.descend p v = .ok r) ∧
        (∀ d, ns.descend p v = .ok (some d) → ns'.descend p v = .ok (some d)) ∧
        (ns.descend p v = .ok none →
          ((∃ up, v = up ++ name.bytes ∧ ns.descend p up = .ok (some q)) →
            ns'.descend p v = .ok (some id)) ∧
          ((¬∃ up, v = up ++ name.bytes ∧ ns.descend p up = .ok (some q)) →
            ns'.descend p v = .ok none))) ∧
      (∀ p, p.index < ns.size → ∀ v, ∃ r, ns.search p v = .ok r ∧
        (ns'.search p v = .ok r ∨ ns'.search p v = .ok (some id))) ∧
      (∃ l, ns'.walk = .ok l ∧ id ∈ l ∧ ns.walk = .ok (l.filter (· ≠ id))) ∧
      ∀ p, p.index < ns.size →
        ns'.name p = ns.name p ∧ ns'.parent p = ns.parent p ∧ ns'.object p = ns.object p := by
  obtain ⟨ns', h⟩ := addChild_eq_ok hq name object
  have built' : ns'.Built := .addChild built hq h
  refine ⟨⟨ns.size⟩, ns', h, Nat.le_refl _, fun p hp v => ⟨built.exists_descend hp v, ?_, ?_⟩,
    fun p hp v => ?_, ⟨ns'.below ns'.root, built'.walk_eq, ?_, ?_⟩, fun p hp => ?_⟩
  · exact fun d hd => (built.descend_of_addChild hq h hp v d).2 (.inl hd)
  · intro hnone
    refine ⟨fun hup => (built.descend_of_addChild hq h hp v _).2 (.inr ⟨hnone, rfl, hup⟩),
      fun hup => ?_⟩
    obtain ⟨_ | d, hnew⟩ := built'.exists_descend (lt_size_of_addChild h hp) v
    · exact hnew
    · rcases (built.descend_of_addChild hq h hp v d).1 hnew with hold | ⟨-, -, hup'⟩
      · cases hnone.symm.trans hold
      · exact absurd hup' hup
  · obtain ⟨r, hr⟩ := built.exists_search hp v
    exact ⟨r, hr, hr ▸ built.search_of_addChild hq h hp v⟩
  · have hlt : (⟨ns.size⟩ : NodeId).index < ns'.size := size_of_addChild h ▸ Nat.lt_succ_self _
    have hne : ns'.root ≠ ⟨ns.size⟩ := by
      rw [(addChild_cases h).2.2.1, built.root_eq]
      exact fun he => Nat.ne_of_lt built.linked.nonempty (congrArg NodeId.index he)
    have hreaches := Relation.reflTransGen_iff_eq_or_transGen.1 (built'.reaches_root hlt)
    exact built'.mem_below.2 (hreaches.resolve_left hne)
  · rw [built.below_of_addChild hq h, (addChild_cases h).2.2.1, built.walk_eq]
  · exact ⟨name_eq_of_addChild hq h hp, parent_eq_of_addChild hq h hp,
      object_eq_of_addChild hq h hp⟩

/-- A second `NIC0`, below the root this time: it is found there, and the one below
`PCI0` is where it was. -/
theorem undisturbed_addChild_threeDevices :
    threeDevices.Built ∧ (⟨0⟩ : NodeId).index < threeDevices.size ∧
      ∃ id ns', threeDevices.addChild ⟨0⟩ ⟨0x4E, 0x49, 0x43, 0x30⟩ .device = .ok (id, ns') ∧
        ns'.descend ⟨0⟩ [0x50, 0x43, 0x49, 0x30, 0x4E, 0x49, 0x43, 0x30] = .ok (some ⟨3⟩) ∧
        ns'.descend ⟨0⟩ [0x4E, 0x49, 0x43, 0x30] = .ok (some id) := by
  have hroot : (⟨0⟩ : NodeId).index < threeDevices.size := by decide
  have hbelow : threeDevices.descend ⟨0⟩ [0x50, 0x43, 0x49, 0x30, 0x4E, 0x49, 0x43, 0x30] =
      .ok (some ⟨3⟩) :=
    built_threeDevices.descend_joined hroot [⟨0x50, 0x43, 0x49, 0x30⟩, ⟨0x4E, 0x49, 0x43, 0x30⟩]
  have hnone : threeDevices.descend ⟨0⟩ [0x4E, 0x49, 0x43, 0x30] = .ok none :=
    built_threeDevices.descend_joined hroot [⟨0x4E, 0x49, 0x43, 0x30⟩]
  obtain ⟨id, ns', hadd, -, hdescend, -⟩ :=
    built_threeDevices.undisturbed_addChild hroot ⟨0x4E, 0x49, 0x43, 0x30⟩ .device
  refine ⟨built_threeDevices, hroot, id, ns', hadd, ?_, ?_⟩
  · exact (hdescend ⟨0⟩ hroot _).2.1 ⟨3⟩ hbelow
  · exact ((hdescend ⟨0⟩ hroot _).2.2 hnone).1 ⟨[], rfl, rfl⟩

end Built
end Namespace
end Acpi
