/-
# Finding devices

Where the `_HID` and the `_CID` of the devices are values, or objects that have none, a
search calls no method and reads no field unit.  To evaluate such an object is to copy its
value, and the copy is released once it has been looked at, so nothing is out that was not
out before (`Machine.Unmoved`).  The copy is the value as it is read, which the namespace
and the contents of the buffer fields tell, and with it what the object says
(`Namespace.identifiedBy`).  One lemma for the object (`Caller.objectMatches_inert`), one
for the device and one for the list of devices (`Caller.keepMatching_inert`): what is found
is the devices below the root for which one of their two objects says yes.

Where there are methods, they can do anything.  A search ends if they do, as long as what
they count on holds (`Acpi.Proofs.Devices.Ending`), and what is found is in order, each
device by what it said in its turn (`Acpi.Proofs.Devices.Turns`).  All of this is joined in
`Platform.devices_found`.
-/

import Acpi.Proofs.Calls.Refusal
import Acpi.Proofs.Devices.Recognition
import Acpi.Proofs.Storage.Counting
import Acpi.Proofs.Storage.Readings

namespace Acpi

variable {η ν : Type}

open Effect Machine

namespace Namespace

variable {ns : Namespace} {d : NodeId} {name : Segment} {id : EisaId}
  {contents : BufferField → UInt64}

/-- Whether the first child of that name has a value which, as it is read, identifies
`id`. -/
def identifiedBy (ns : Namespace) (contents : BufferField → UInt64) (id : EisaId) (d : NodeId)
    (name : Segment) : Bool :=
  ((ns.eldest d name).bind ns.value?).any fun v => (v.asRead contents).identifies id

theorem Built.identifiedBy_iff (built : ns.Built) : ns.identifiedBy contents id d name = true ↔
    ∃ child v, ns.FirstOfName d name child ∧ ns.object child = .ok (.name v) ∧
      ∃ path part, (v.asRead contents).part? path = some part ∧ part.Denotes id := by
  simp only [identifiedBy, Option.any_eq_true, Option.bind_eq_some_iff, built.eldest_eq_some_iff,
    value?_eq_some_iff, Value.identifies_iff]
  constructor
  · rintro ⟨v, ⟨child, hfirst, hv⟩, h⟩
    exact ⟨child, v, hfirst, hv, h⟩
  · rintro ⟨child, v, hfirst, hv, h⟩
    exact ⟨v, ⟨child, hfirst, hv⟩, h⟩

/-- Whether one of the two objects of a device identifies it. -/
def goesBy (ns : Namespace) (contents : BufferField → UInt64) (id : EisaId) (d : NodeId) : Bool :=
  idNames.any (ns.identifiedBy contents id d)

theorem isDevice_iff : ns.isDevice d = true ↔ ns.object d = .ok .device := by
  cases h : ns.nodes[d.index]? <;> simp [isDevice, object, node, h, Functor.map, Except.map]

end Namespace

/-- Nothing has changed but the journal and, within its good states, the host; and as much
is out as before, however it is measured. -/
structure Machine.Unmoved (host : Host η) (good : η → Prop) (m m' : Machine η ν) : Prop where
  space : m'.space = m.space
  depth : m'.depth = m.depth
  out : ∀ M : Measure host ν, M.out m'.world = M.out m.world
  good : good m.world.host → good m'.world.host

namespace Machine.Unmoved

variable {host : Host η} {good : η → Prop} {m m₁ m' : Machine η ν}

theorem refl (m : Machine η ν) : m.Unmoved host good m := ⟨rfl, rfl, fun _ => rfl, id⟩

theorem trans (h : m.Unmoved host good m₁) (h' : m₁.Unmoved host good m') :
    m.Unmoved host good m' :=
  ⟨h'.space.trans h.space, h'.depth.trans h.depth, fun M => (h'.out M).trans (h.out M),
    fun hgood => h'.good (h.good hgood)⟩

theorem logged (m : Machine η ν) (record : LogRecord) : m.Unmoved host good (m.logged record) :=
  ⟨rfl, rfl, fun M => M.log m.world record, id⟩

/-- What is copied and then released again leaves nothing behind. -/
theorem of_copy_release {contents : BufferField → UInt64} (reads : host.Reads contents good)
    {v u left : Value} {w w' : World η ν} (hcopy : v.copy host m.world = .ok (u, w))
    (hrelease : u.release host w = .ok (left, w')) :
    m.Unmoved host good { m with world := w' } := by
  refine ⟨rfl, rfl, fun M => ?_, fun hgood => reads.release (reads.copy hgood hcopy).2 hrelease⟩
  have h₁ := M.copy hcopy
  have h₂ := M.release hrelease
  rw [Value.demand_of_copy hcopy] at h₂
  show M.out w' = M.out m.world
  omega

end Machine.Unmoved

namespace Caller

variable {p : Platform η ν} {call : Caller η ν} {m : Machine η ν} {ns : Namespace}
  {top node d : NodeId} {name : Segment} {text : String} {id : EisaId}
  {contents : BufferField → UInt64} {good : η → Prop}

/-- **An inert object** is compared without a trace: it identifies what its value does. -/
theorem objectMatches_inert (willing : p.host.Willing) (reads : p.host.Reads contents good)
    (built : ns.Built) (hm : m.space = ns.rootedAt top) (hgood : good m.world.host)
    (hd : d.index < ns.size) (hle : top.index ≤ d.index)
    (htext : (Path.ofText text).value = name.bytes)
    (hinert : ∀ child, ns.FirstOfName d name child →
      ∃ object, ns.object child = .ok object ∧ object.IsInert) :
    ∃ m', call.objectMatches p d text id m = .ok (ns.identifiedBy contents id d name, m') ∧
      m.Unmoved p.host good m' := by
  have hchild : m.space.resolveChild d text = .ok (ns.eldest d name) := by
    rw [hm]
    exact built.resolveChild_rootedAt hd hle htext
  have hname {node : NodeId} (h : node.index < ns.size) :
      ∃ called, m.space.name node = .ok called := by
    rw [hm]
    exact Namespace.name_eq_ok_of_lt h
  rw [Namespace.identifiedBy]
  cases heldest : ns.eldest d name with
  | none =>
    rw [heldest] at hchild
    exact ⟨m, objectMatches_of_none hchild, .refl m⟩
  | some child =>
    rw [heldest] at hchild
    obtain ⟨object, hobject, hinert⟩ := hinert child (built.eldest_eq_some_iff.1 heldest)
    have hobject' : m.space.object child = .ok object := by
      rw [hm]
      exact hobject
    have hchildValue := Namespace.value?_of_object hobject
    rw [Option.bind_some]
    cases hvalue : object.value? with
    | none =>
      obtain ⟨childName, hchildName⟩ := hname
        (Namespace.lt_size_of_mem_childList (Namespace.mem_childList_of_eldest heldest))
      obtain ⟨called, hcalled⟩ := hname hd
      rw [hchildValue, hvalue]
      exact ⟨_, objectMatches_of_failure hchild
        (evalNode_valueless hinert hvalue hobject' hchildName) hcalled,
        (Unmoved.logged m _).trans (.logged _ _)⟩
    | some v =>
      obtain ⟨u, w, hcopy⟩ := willing.copy v m.world
      obtain ⟨w', hrelease⟩ := willing.release u w
      have hnamed : m.space.object child = .ok (.name v) := by
        rw [hm]
        exact Namespace.value?_eq_some_iff.1 (hchildValue.trans hvalue)
      rw [hchildValue, hvalue, Option.any_some, ← (reads.copy hgood hcopy).1]
      exact ⟨_, objectMatches_of_ok hchild (evalNode_name hnamed hcopy) hrelease,
        .of_copy_release reads hcopy hrelease⟩

/-- **A device with inert objects** is compared without a trace. -/
theorem matchesId_inert (willing : p.host.Willing) (reads : p.host.Reads contents good)
    (built : ns.Built) (hm : m.space = ns.rootedAt top) (hgood : good m.world.host)
    (hd : d.index < ns.size) (hle : top.index ≤ d.index)
    (hinert : ∀ name ∈ idNames, ∀ child, ns.FirstOfName d name child →
      ∃ object, ns.object child = .ok object ∧ object.IsInert) :
    ∃ m', call.matchesId p d id m = .ok (ns.goesBy contents id d, m') ∧
      m.Unmoved p.host good m' := by
  have hgoes : ns.goesBy contents id d = (ns.identifiedBy contents id d hardwareName ||
      ns.identifiedBy contents id d compatibleName) := by
    simp [Namespace.goesBy, idNames]
  obtain ⟨m₁, hfirst, hunmoved₁⟩ : ∃ m₁, call.objectMatches p d hardwareId id m =
      .ok (ns.identifiedBy contents id d hardwareName, m₁) ∧ m.Unmoved p.host good m₁ :=
    objectMatches_inert willing reads built hm hgood hd hle value_hardwareId
      (hinert _ (by simp [idNames]))
  cases hhardware : ns.identifiedBy contents id d hardwareName with
  | true =>
    rw [hhardware] at hfirst
    rw [hgoes, hhardware, Bool.true_or]
    exact ⟨m₁, matchesId_eq_ok.2 (.inl ⟨rfl, hfirst⟩), hunmoved₁⟩
  | false =>
    rw [hhardware] at hfirst
    rw [hgoes, hhardware, Bool.false_or]
    obtain ⟨m', hsecond, hunmoved⟩ := objectMatches_inert willing reads built
      (hunmoved₁.space.trans hm) (hunmoved₁.good hgood) hd hle value_compatibleId
      (hinert _ (by simp [idNames]))
    exact ⟨m', matchesId_eq_ok.2 (.inr ⟨m₁, hfirst, hsecond⟩), hunmoved₁.trans hunmoved⟩

/-- **Devices with inert objects**: those are found that go by the identifier. -/
theorem keepMatching_inert (willing : p.host.Willing) (reads : p.host.Reads contents good)
    (built : ns.Built) (hm : m.space = ns.rootedAt top) (hgood : good m.world.host)
    {devices : List NodeId} (hdevices : ∀ d ∈ devices, d.index < ns.size ∧ top.index ≤ d.index)
    (hinert : ∀ d ∈ devices, ∀ name ∈ idNames, ∀ child, ns.FirstOfName d name child →
      ∃ object, ns.object child = .ok object ∧ object.IsInert) :
    ∃ m', call.keepMatching p id devices m = .ok (devices.filter (ns.goesBy contents id), m') ∧
      m.Unmoved p.host good m' := by
  induction devices generalizing m with
  | nil => exact ⟨m, keepMatching_nil_eq_ok.2 ⟨rfl, rfl⟩, .refl m⟩
  | cons d devices ih =>
    obtain ⟨⟨hd, hle⟩, hdevices⟩ := List.forall_mem_cons.1 hdevices
    obtain ⟨hfirst, hinert⟩ := List.forall_mem_cons.1 hinert
    obtain ⟨m₁, hmatches, hunmoved₁⟩ := matchesId_inert willing reads built hm hgood hd hle hfirst
    obtain ⟨m', hrest, hunmoved⟩ := ih (hunmoved₁.space.trans hm) (hunmoved₁.good hgood) hdevices
      hinert
    refine ⟨m', keepMatching_cons_eq_ok.2 ⟨_, m₁, _, hmatches, hrest, ?_⟩,
      hunmoved₁.trans hunmoved⟩
    rw [List.filter_cons]

end Caller

/-- **Finding devices.**  Let no `_HID` and no `_CID` of a device below the root be a method
or a field unit, on a host that refuses only what it may refuse and whose buffer fields
hold something that only writing changes.  Then a search ends; it finds, in preorder and
each of them once, the devices below the root of which the first `_HID` or the first `_CID`
has a value that, as it is read, contains the identifier: as a number that is the whole
word, or as a text of seven bytes that encodes to it, in packages to any depth.  The
namespace and the depth are the same afterwards, and as much is out as before, however it
is measured.

With methods and field units a search ends if something holds at the start as long as
which the namespace has been built and every call of a method without arguments ends; the
calls are to keep it, and it still holds in the end.

Whatever is in the namespace and whatever the methods do, a search that ends has found some
of the devices that were below the root when it began, in preorder.  Each of them has had
its turn after those before it and before those behind it, and if its `_HID` could not be
evaluated in its turn, it has been found if and only if its `_CID` said so then.  The depth
is the same afterwards, and the namespace is too if no body asks for a change of it. -/
theorem Platform.devices_found (p : Platform η ν) (id : EisaId) :
    (∀ {ns : Namespace} {top : NodeId} {contents : BufferField → UInt64} {good : η → Prop}
        (m : Machine η ν), p.host.Willing → p.host.Reads contents good → good m.world.host →
      ns.Built → top.index < ns.size → m.space = ns.rootedAt top →
      (∀ d ∈ ns.below top, ns.object d = .ok .device → ∀ name ∈ idNames, ∀ child,
        ns.FirstOfName d name child → ∃ object, ns.object child = .ok object ∧ object.IsInert) →
      ∃ found m', p.findDevices id m = .ok (found, m') ∧
        found.Sublist (ns.below top) ∧ found.Nodup ∧
        (∀ d, d ∈ found ↔ d ∈ ns.below top ∧ ns.object d = .ok .device ∧
          ∃ name ∈ idNames, ∃ child v, ns.FirstOfName d name child ∧
            ns.object child = .ok (.name v) ∧
            ∃ path part, (v.asRead contents).part? path = some part ∧ part.Denotes id) ∧
        m'.space = m.space ∧ m'.depth = m.depth ∧
        ∀ M : Measure p.host ν, M.out m'.world = M.out m.world) ∧
    (∀ {top : NodeId} {inv : Machine η ν → Prop}, p.host.Willing → Footing top inv →
      (∀ ⦃node m flags body⦄, inv m → m.space.object node = .ok (.method flags body) →
        flags.argCount = 0 → ∃ r m', p.evalMethod node [] m = .ok (r, m') ∧ inv m') →
      ∀ m, inv m → ∃ found m', p.findDevices id m = .ok (found, m') ∧ inv m') ∧
    ∀ {m m' : Machine η ν} {found : List NodeId}, p.findDevices id m = .ok (found, m') →
      ∃ nodes, m.space.walk = .ok nodes ∧
        (∀ {ns : Namespace} {top : NodeId}, ns.Built → top.index < ns.size →
          m.space = ns.rootedAt top → nodes = ns.below top) ∧
        found.Sublist (nodes.filter m.space.isDevice) ∧
        (∀ before d after, nodes.filter m.space.isDevice = before ++ d :: after →
          ∃ earlier m₁ kept m₂ later,
            p.caller.keepMatching p id before m = .ok (earlier, m₁) ∧
            p.matchesId d id m₁ = .ok (kept, m₂) ∧
            p.caller.keepMatching p id after m₂ = .ok (later, m') ∧
            found = earlier ++ (if kept then d :: later else later) ∧
            ∀ hid e m₃, m₁.space.resolveChild d hardwareId = .ok (some hid) →
              p.evalNode hid m₁ = .ok (.error e, m₃) →
              ∃ deviceName, p.caller.objectMatches p d compatibleId id
                (m₃.logged (.unidentified hardwareId deviceName e)) = .ok (kept, m₂)) ∧
        m'.depth = m.depth ∧
        ((∀ ctx, (p.executor ctx).Uses Request.LeavesSpace) → m'.space = m.space) := by
  refine ⟨fun {ns top contents good} m willing reads hgood built htop hm hinert => ?_,
    fun willing footing hcalls m hm => Platform.findDevices_ends willing footing hcalls hm id,
    fun {m m' found} h => ?_⟩
  · have hdevices : ∀ d ∈ (ns.below top).filter ns.isDevice,
        d.index < ns.size ∧ top.index ≤ d.index := fun d hd => by
      have hbelow := (List.mem_filter.1 hd).1
      exact ⟨built.lt_size_of_mem_below hbelow,
        Nat.le_of_lt (built.lt_of_mem_below hbelow)⟩
    have hobjects : ∀ d ∈ (ns.below top).filter ns.isDevice, ∀ name ∈ idNames, ∀ child,
        ns.FirstOfName d name child → ∃ object, ns.object child = .ok object ∧ object.IsInert :=
      fun d hd => by
        obtain ⟨hbelow, hdevice⟩ := List.mem_filter.1 hd
        exact hinert d hbelow (Namespace.isDevice_iff.1 hdevice)
    obtain ⟨m', hkeep, hunmoved⟩ : ∃ m', p.caller.keepMatching p id
        ((ns.below top).filter ns.isDevice) m =
          .ok (((ns.below top).filter ns.isDevice).filter (ns.goesBy contents id), m') ∧
        m.Unmoved p.host good m' :=
      Caller.keepMatching_inert willing reads built hm hgood hdevices hobjects
    refine ⟨((ns.below top).filter ns.isDevice).filter (ns.goesBy contents id), m',
      Caller.findDevices_eq_ok.2 ⟨ns.below top, ?_, ?_⟩,
      List.filter_sublist.trans List.filter_sublist,
      ((built.nodup_below top).filter _).filter _, fun d => ?_, hunmoved.space,
      hunmoved.depth, hunmoved.out⟩
    · rw [hm, built.walk_rootedAt htop]
    · rw [hm]
      exact hkeep
    · rw [List.mem_filter, List.mem_filter, Namespace.isDevice_iff, Namespace.goesBy,
        List.any_eq_true, and_assoc]
      simp only [built.identifiedBy_iff]
  · obtain ⟨nodes, hnodes, hkeep⟩ := Caller.findDevices_eq_ok.1 h
    refine ⟨nodes, hnodes, fun built htop hm => ?_, Caller.sublist_of_keepMatching hkeep,
      fun before d after hsplit => ?_, Platform.depth_of_findDevices h,
      fun hbodies => Platform.sameSpace_of_findDevices hbodies id h⟩
    · rw [hm, built.walk_rootedAt htop] at hnodes
      exact (Except.ok.inj hnodes).symm
    · rw [hsplit] at hkeep
      obtain ⟨earlier, m₁, _, hearlier, hrest, rfl⟩ := Caller.keepMatching_append_eq_ok.1 hkeep
      obtain ⟨kept, m₂, later, hmatches, hlater, rfl⟩ := Caller.keepMatching_cons_eq_ok.1 hrest
      exact ⟨earlier, m₁, kept, m₂, later, hearlier, hmatches, hlater, rfl,
        fun hid e m₃ hchild heval => Caller.matchesId_of_error hchild heval hmatches⟩

namespace Namespace

/-- Three devices, the first of which has an `_HID` in a buffer field, and the second a
`_CID` in a package. -/
def twoBridges : Namespace :=
  ⟨#[⟨Segment.root, .scope, none, some ⟨1⟩, some ⟨2⟩, none⟩,
    ⟨⟨0x50, 0x43, 0x49, 0x30⟩, .device, some ⟨0⟩, some ⟨3⟩, some ⟨4⟩, some ⟨2⟩⟩,
    ⟨⟨0x50, 0x43, 0x49, 0x31⟩, .device, some ⟨0⟩, some ⟨5⟩, some ⟨5⟩, none⟩,
    ⟨⟨0x4E, 0x49, 0x43, 0x30⟩, .device, some ⟨1⟩, none, none, some ⟨4⟩⟩,
    ⟨hardwareName, .name (.bufferField ⟨⟨0⟩, 0, 32⟩), some ⟨1⟩, none, none, none⟩,
    ⟨compatibleName, .name (.package [.integer 0, .string "PNP0A03"]), some ⟨2⟩, none, none, none⟩],
    NodeId.first⟩

theorem built_twoBridges : twoBridges.Built := by
  have h₁ := @Built.addChild _ _ ⟨1⟩ hardwareName (.name (.bufferField ⟨⟨0⟩, 0, 32⟩)) ⟨4⟩
    built_threeDevices (by decide) rfl
  exact @Built.addChild _ _ ⟨2⟩ compatibleName (.name (.package [.integer 0, .string "PNP0A03"]))
    ⟨5⟩ h₁ (by decide) rfl

/-- Nothing in it is called or read. -/
theorem isInert_twoBridges {child : NodeId} (h : child.index < twoBridges.size) :
    ∃ object, twoBridges.object child = .ok object ∧ object.IsInert := by
  obtain ⟨i⟩ := child
  match i, h with
  | 0, _ | 1, _ | 2, _ | 3, _ | 4, _ | 5, _ => exact ⟨_, rfl, trivial⟩

/-- The three devices with a method for the `_HID` of the first one. -/
def methodBridge : Namespace :=
  ⟨#[⟨Segment.root, .scope, none, some ⟨1⟩, some ⟨2⟩, none⟩,
    ⟨⟨0x50, 0x43, 0x49, 0x30⟩, .device, some ⟨0⟩, some ⟨3⟩, some ⟨4⟩, some ⟨2⟩⟩,
    ⟨⟨0x50, 0x43, 0x49, 0x31⟩, .device, some ⟨0⟩, none, none, none⟩,
    ⟨⟨0x4E, 0x49, 0x43, 0x30⟩, .device, some ⟨1⟩, none, none, some ⟨4⟩⟩,
    ⟨hardwareName, .plainMethod 0 ⟨0, 0⟩, some ⟨1⟩, none, none, none⟩], NodeId.first⟩

theorem built_methodBridge : methodBridge.Built :=
  @Built.addChild _ _ ⟨1⟩ hardwareName (.plainMethod 0 ⟨0, 0⟩) ⟨4⟩ built_threeDevices (by decide)
    rfl

end Namespace

/-- A body that counts on there being a second device: it tries to call that, and ends. -/
def callSecond (_ : Context) : Body Unit Unit :=
  .ask (.evalMethod ⟨2⟩ []) fun _ => .done ()

/-- A platform on which all methods have that body. -/
def secondCallers : Platform Counters Unit := ⟨countingHost, callSecond, 64⟩

/-- Where the second device is, a call ends and leaves it there. -/
theorem secondCallers_ends {node : NodeId} {m : Machine Counters Unit} {flags : MethodFlags}
    {body : CodeRange} (hm : m.space = Namespace.methodBridge)
    (hobject : m.space.object node = .ok (.method flags body)) :
    ∃ r m', secondCallers.evalMethod node [] m = .ok (r, m') ∧
      m'.space = Namespace.methodBridge := by
  rcases secondCallers.admits_or_refuses [] hobject with ⟨flags, body, hadmits⟩ | ⟨e, m', hrefuses⟩
  · obtain ⟨ctx, w, henter⟩ := willing_countingHost.enter (p := secondCallers) hadmits.count node
      body m.world
    obtain ⟨name, hname⟩ := Namespace.exists_name_of_object hobject
    have hdevice : m.space.object ⟨2⟩ = .ok .device := by
      rw [hm]
      rfl
    have hrefuses : secondCallers.Refuses ⟨2⟩ []
        ⟨m.space, w.add (.log (.enter name m.depth flags.argCount)), m.depth + 1⟩ .wrongType _ :=
      .wrongType hdevice id
    obtain ⟨r, w', hleave⟩ := willing_countingHost.leave_ends (p := secondCallers) (.ok ()) ctx
      (w.add (.log (.enter name m.depth flags.argCount)))
    have hinvoke := Platform.invoke_eq_ok.2 ⟨ctx, w, name, .ok (), ctx, _, w', name, henter, hname,
      Body.run_ask_eq_ok.2 ⟨_, ctx, _, Request.perform_eq_ok.2 ⟨hrefuses.evalMethod_eq, rfl⟩,
        Body.run_done_eq_ok.2 ⟨rfl, rfl, rfl⟩⟩, hleave, hname, rfl⟩
    exact ⟨r, _, hadmits.evalMethod_eq.trans hinvoke, hm⟩
  · exact ⟨_, m', hrefuses.evalMethod_eq, hrefuses.untouched.space.trans hm⟩

/-- Two root bridges, found by what they have; and where the first one has a method for
that, the search ends as long as there is the device that the method counts on. -/
theorem Platform.devices_found_twoBridges :
    countingHost.Willing ∧ countingHost.Reads (fun _ => 0x030AD041) (·.fieldValue = 0x030AD041) ∧
      Namespace.twoBridges.Built ∧ Namespace.methodBridge.Built ∧
      (∃ found m', secondCallers.findDevices ⟨0x030AD041⟩
            (.start Namespace.twoBridges { Counters.zero with fieldValue := 0x030AD041 }) =
          .ok (found, m') ∧
        ⟨1⟩ ∈ found ∧ ⟨2⟩ ∈ found ∧ ⟨3⟩ ∉ found ∧ m'.space = Namespace.twoBridges ∧ m'.depth = 0 ∧
          m'.world.host.live = 0) ∧
      ∃ found m', secondCallers.findDevices ⟨0x030AD041⟩
            (.start Namespace.methodBridge Counters.zero) = .ok (found, m') ∧
        m'.space = Namespace.methodBridge := by
  have hroot : (⟨0⟩ : NodeId).index < Namespace.twoBridges.size := by decide
  have built := Namespace.built_twoBridges
  obtain ⟨hinert, hends, hany⟩ := secondCallers.devices_found ⟨0x030AD041⟩
  -- in the one namespace nothing is called or read
  obtain ⟨found, m', h, -, -, hmem, -, hdepth, hout⟩ := hinert
    (.start Namespace.twoBridges { Counters.zero with fieldValue := 0x030AD041 })
    willing_countingHost (reads_countingHost 0x030AD041) rfl built hroot rfl
    fun d _ _ name _ child hfirst =>
      Namespace.isInert_twoBridges (Namespace.lt_size_of_mem_childList (built.up_iff.1 hfirst.up))
  -- in the other one the method is called
  have footing : Footing ⟨0⟩ fun m : Machine Counters Unit => m.space = Namespace.methodBridge :=
    .of_space (· = Namespace.methodBridge) fun hspace =>
      ⟨Namespace.methodBridge, Namespace.built_methodBridge, by decide, hspace⟩
  obtain ⟨found', m₂, h', hspace'⟩ := hends willing_countingHost footing
    (fun _ _ _ _ hm hobject _ => secondCallers_ends hm hobject)
    (.start Namespace.methodBridge Counters.zero) rfl
  -- and no body changes a namespace
  obtain ⟨-, -, -, -, -, -, hspace⟩ := hany h
  refine ⟨willing_countingHost, reads_countingHost _, built, Namespace.built_methodBridge,
    ⟨found, m', h, ?_, ?_, fun hthird => ?_, hspace fun _ => ⟨trivial, fun _ => trivial⟩, hdepth,
      hout .live⟩, found', m₂, h', hspace'⟩
  · refine (hmem ⟨1⟩).2 ⟨built.mem_below.2 (.single rfl), rfl, hardwareName, by simp [idNames],
      ⟨4⟩, _, built.eldest_eq_some_iff.1 (by decide +kernel), rfl, [], .integer 0x030AD041, ?_,
      .word _ rfl⟩
    rw [Value.asRead_bufferField]
    rfl
  · refine (hmem ⟨2⟩).2 ⟨built.mem_below.2 (.single rfl), rfl, compatibleName, by simp [idNames],
      ⟨5⟩, _, built.eldest_eq_some_iff.1 (by decide +kernel), rfl, [1], .string "PNP0A03", ?_,
      .text _ (by decide +kernel) (by decide +kernel)⟩
    rw [Value.asRead_package]
    exact congrArg some (Value.asRead_eq_self rfl)
  · obtain ⟨-, -, name, -, child, -, hfirst, -⟩ := (hmem ⟨3⟩).1 hthird
    have hnone : Namespace.twoBridges.childList ⟨3⟩ = [] := by decide +kernel
    have hchild := built.up_iff.1 hfirst.up
    rw [hnone] at hchild
    cases hchild

end Acpi
