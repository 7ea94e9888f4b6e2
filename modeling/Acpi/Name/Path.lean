/-
# Paths

A textual path such as `\_SB.PCI0` is a run of markers followed by names with
dots between them.  `Path.ofText` keeps the markers as they stand and spells
the names as one string of bytes, in which every name is filled up with
underscores to whole segments:

| text | markers | value |
| --- | --- | --- |
| `\_SB.PCI0` | `\` | `_SB_PCI0` |
| `^^FOO` | `^^` | `FOO_` |
| `ABCDE.F` | | `ABCDE___F___` |

A name that is too long is filled up, never cut, and an empty name adds
nothing.  Only the leading run of markers counts; a marker byte further on is
an ordinary byte of a name.
-/

import Acpi.Name.Segment

namespace Acpi

/-- The markers of a path and the names behind them, already filled up. -/
structure Path where
  markers : List UInt8
  value : List UInt8
deriving DecidableEq

namespace Path

/-- The backslash, which leads to the root. -/
def rootMarker : UInt8 := 0x5C

/-- The caret, which leads to the parent. -/
def parentMarker : UInt8 := 0x5E

/-- The marker `x`, which leads nowhere: a path that carries it is anchored
where it is looked up. -/
def relativeMarker : UInt8 := 0x78

/-- The dot between two names. -/
def separator : UInt8 := 0x2E

/-- The underscore that fills a name up. -/
def filler : UInt8 := 0x5F

/-- The bytes that complete a segment of which `used` bytes are there. -/
def padding (used : Nat) : List UInt8 := List.replicate ((4 - used) % 4) filler

/-- The names of a dotted text as whole segments, where `used` counts the bytes
of the last segment that are there already. -/
def spell (used : Nat) : List UInt8 → List UInt8
  | [] => padding used
  | b :: rest =>
    if b = separator then padding used ++ spell 0 rest
    else b :: spell ((used + 1) % 4) rest

/-- Whether a byte leads to the root or to a parent. -/
def isMarker (b : UInt8) : Bool := b == rootMarker || b == parentMarker

/-- The path that the bytes of a text spell. -/
def ofBytes (bytes : List UInt8) : Path where
  markers := bytes.takeWhile isMarker
  value := spell 0 (bytes.dropWhile isMarker)

/-- The path that a text spells. -/
def ofText (text : String) : Path := ofBytes (Text.utf8 text)

/-- The whole segments of a string of bytes, in order; a last piece of fewer
than four bytes is left out. -/
def segmentsOf : List UInt8 → List Segment
  | a :: b :: c :: d :: rest => ⟨a, b, c, d⟩ :: segmentsOf rest
  | _ => []

/-- The segments of a path. -/
def segments (p : Path) : List Segment := segmentsOf p.value

/-- A path without markers, which may be looked up in enclosing scopes. -/
def isUnanchored (p : Path) : Bool := p.markers.isEmpty

end Path
end Acpi
