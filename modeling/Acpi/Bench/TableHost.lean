/-
# A host that answers from tables

What this host reads is laid down in advance, and it keeps no state.  On
request the storage that it gives out is dirty, and its contexts come with
values in their slots.
-/

import Acpi.Host.Call
import Acpi.Text.Hex

namespace Acpi

/-- What a host of tables answers. -/
structure HostTables where
  /-- Whether new storage already holds something. -/
  dirty : Bool
  /-- What the slots of a new context hold. -/
  slots : List (Slot × Value)
  /-- What buffer fields hold; the others hold 0. -/
  fields : List (BufferField × UInt64)
  /-- What field units hold; the others hold the integer 0. -/
  operands : List (Operand × Value)

namespace HostTables

/-- A context with the given slots set. -/
def context (t : HostTables) : Except Fault Context :=
  t.slots.foldlM (fun ctx (slot, value) => ctx.set slot value) Context.fresh

/-- The host that answers from the tables. -/
def host (t : HostTables) : Host Unit
  | .allocBytes _, s => .ok (if t.dirty then [0xCC, 0xCC, 0xCC] else [], s)
  | .allocElements _, s => .ok (if t.dirty then [.integer 0xCC] else [], s)
  | .allocContext, s => return (← t.context, s)
  | .readBufferField field, s => .ok ((t.fields.lookup field).getD 0, s)
  | .readOperand operand, s => .ok ((t.operands.lookup operand).getD (.integer 0), s)
  | .freeBytes _, s | .freeElements _, s | .freeContext _, s | .writeBufferField _ _, s =>
    .ok ((), s)

end HostTables

namespace Operand

/-- A field unit as it stands in the record of a read. -/
def describe : Operand → String
  | field u => "read_field " ++ parts u
  | indexField u => "read_ifield " ++ parts u
where
  /-- The parts of a field unit. -/
  parts (u : FieldUnit) : String :=
    let data := match u.data with
      | some node => toString node
      | none => "-"
    s!"{u.source} {data} {u.bitOffset} {u.bitLen} {u.flags}"

end Operand

namespace HostCall

/-- A call as it stands in a record of calls. -/
def describe : HostCall → String
  | allocBytes length => s!"alloc_bytes {length}"
  | freeBytes bytes => "free_bytes " ++ Text.Hex.render bytes
  | allocElements count => s!"alloc_elems {count}"
  | freeElements elements =>
    let live := elements.countP fun v => !v.isNull
    s!"free_elems {elements.length} live={live}"
  | allocContext => "alloc_ctx"
  | freeContext ctx =>
    let body := s!"{ctx.body.start}..{ctx.body.stop}"
    s!"free_ctx args={ctx.argCount} scope={ctx.scope} body={body} live={ctx.live}"
  | readBufferField f => s!"read_bf {f.source} {f.bitOffset} {f.bitLen}"
  | writeBufferField f value => s!"write_bf {f.source} {f.bitOffset} {f.bitLen} {value}"
  | readOperand operand => operand.describe

end HostCall
end Acpi
