/-
# Storage of values

Buffers and packages are kept in storage of the host.  Releasing a value hands
all its storage back, the elements of a package before the package itself, and
leaves the empty value.  A copy is deep: it is in storage of its own, and a
reference to a buffer field has become the integer that the field held.
-/

import Acpi.Host.Journal

namespace Acpi
namespace Value

variable {η ν : Type}

mutual

/-- Hands the storage of a value back to the host; the answer is what is left
of the value. -/
def release (host : Host η) : Value → WorldM η ν Value
  | package elements => do
    host.ask (.freeElements (← releaseAll host elements))
    return null
  | buffer bytes => do
    host.ask (.freeBytes bytes)
    return null
  | null | integer _ | string _ | bufferField _ => return null

/-- Releases values from first to last; the answer is what is left of them. -/
def releaseAll (host : Host η) : List Value → WorldM η ν (List Value)
  | [] => return []
  | v :: vs => do
    let v ← release host v
    return v :: (← releaseAll host vs)

end

/-- Storage after it has been cleared: nothing is left in it, whatever it held. -/
def cleared {α : Type} (_storage : List α) : List α := []

mutual

/-- A copy of a value in storage of its own.  The storage is cleared before it is
filled. -/
def copy (host : Host η) : Value → WorldM η ν Value
  | null => return null
  | integer n => return integer n
  | string text => return string text
  | buffer bytes => do
    let storage ← host.ask (.allocBytes bytes.length)
    return buffer (cleared storage ++ bytes)
  | bufferField field => return integer (← host.ask (.readBufferField field))
  | package elements => do
    let storage ← host.ask (.allocElements elements.length)
    return package (cleared storage ++ (← copyAll host elements))

/-- Copies values from first to last. -/
def copyAll (host : Host η) : List Value → WorldM η ν (List Value)
  | [] => return []
  | v :: vs => do
    let v ← copy host v
    return v :: (← copyAll host vs)

end

/-- Releases the value `old` and puts a copy of `source` in its place. -/
def overwrite (host : Host η) (old source : Value) : WorldM η ν Value := do
  let _empty ← release host old
  copy host source

end Value
end Acpi
