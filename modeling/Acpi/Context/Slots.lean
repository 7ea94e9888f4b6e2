/-
# Changing slots

A slot owns the value that it holds: putting another value into it releases the
old one through the host.
-/

import Acpi.Value.Storage

namespace Acpi
namespace Context

variable {η ν : Type}

/-- Puts a value into a slot, which owns it from then on. -/
def store (host : Host η) (ctx : Context) (slot : Slot) (value : Value) :
    WorldM η ν Context := do
  let _empty ← (← ctx.get slot).release host
  ctx.set slot value

/-- Puts a copy of a value into a slot. -/
def copyInto (host : Host η) (ctx : Context) (slot : Slot) (source : Value) :
    WorldM η ν Context := do
  ctx.set slot (← (← ctx.get slot).overwrite host source)

/-- Puts a copy of what is in slot `source` into slot `target`.  While it is
copied the value is out of its slot, and it is put back afterwards.  A slot that
is copied onto itself is not even looked at. -/
def copySlot (host : Host η) (ctx : Context) (target source : Slot) : WorldM η ν Context := do
  if target = source then return ctx
  let held ← ctx.get source
  let without ← ctx.set source .null
  let copied ← without.copyInto host target held
  copied.set source held

/-- Binds values to the argument slots from number `first` on, as copies. -/
def bindArgs (host : Host η) (ctx : Context) (first : Nat) :
    List Value → WorldM η ν Context
  | [] => return ctx
  | arg :: rest => do
    let ctx ← ctx.copyInto host (.arg (UInt8.ofNat first)) arg
    bindArgs host ctx (first + 1) rest

/-- Releases the values in all slots, from the first argument to the return
value. -/
def clean (host : Host η) (ctx : Context) : WorldM η ν Context := do
  return { ctx with cells := ← ctx.cells.mapM (Value.release host) }

end Context
end Acpi
