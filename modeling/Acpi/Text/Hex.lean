/-
# Bytes in hexadecimal

Each byte is written as two lower-case digits, the high half first, with
nothing between bytes.
-/

namespace Acpi
namespace Text
namespace Hex

/-- The two digits of a byte. -/
def digits (b : UInt8) : List Char :=
  [Nat.digitChar (b.toNat / 16), Nat.digitChar (b.toNat % 16)]

/-- Bytes as hexadecimal digits. -/
def render (bytes : List UInt8) : String :=
  String.ofList (bytes.flatMap digits)

end Hex
end Text
end Acpi
