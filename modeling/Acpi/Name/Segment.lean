/-
# Name segments

Every name in the namespace is a segment of exactly four bytes.  A longer
string of bytes gives the segment of its first four, a shorter one gives none.
Bytes that are not UTF-8 are legal in a segment; such a segment is shown as
the empty text.
-/

import Acpi.Failure
import Acpi.Text.Utf8

namespace Acpi

/-- A four-byte name. -/
structure Segment where
  first : UInt8
  second : UInt8
  third : UInt8
  fourth : UInt8
deriving DecidableEq

namespace Segment

/-- The segment that the first four bytes make. -/
def ofBytes? : List UInt8 → Option Segment
  | a :: b :: c :: d :: _ => some ⟨a, b, c, d⟩
  | _ => none

/-- The segment that the first four bytes make; too few of them are a fault. -/
def ofBytes (bytes : List UInt8) : Except Fault Segment :=
  match ofBytes? bytes with
  | some s => .ok s
  | none => .error .shortName

/-- The four bytes of a segment. -/
def bytes (s : Segment) : List UInt8 := [s.first, s.second, s.third, s.fourth]

/-- The segment as a text, empty when its bytes are not UTF-8. -/
def text (s : Segment) : String := (Text.ofUtf8? s.bytes).getD ""

instance : ToString Segment := ⟨text⟩

/-- The segment with its type named around the unescaped text. -/
def debug (s : Segment) : String := "NameSeg(\"" ++ s.text ++ "\")"

/-- The name of the root, a backslash padded with underscores. -/
def root : Segment := ⟨0x5C, 0x5F, 0x5F, 0x5F⟩

@[simp] theorem length_bytes (s : Segment) : s.bytes.length = 4 := rfl

end Segment
end Acpi
