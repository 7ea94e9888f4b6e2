/-
# EISA identifiers

A device names its type by three letters and four hexadecimal digits, such as
`PNP0A03`, packed into a word of 32 bits:

| bits | content |
| --- | --- |
| 30-26, 25-21, 20-16 | the letters, `A` = 1 |
| 15-12, 11-8, 7-4, 3-0 | the digits |

Firmware stores the four bytes of that word in the opposite order; `EisaId.raw`
is the stored word.  Encoding is total: of a byte in a letter's place the low
five bits count, a byte in a digit's place that is no hexadecimal digit counts
as zero, a missing byte as the digit `0`, and bytes after the seventh are not
looked at.
-/

import Acpi.Text.Utf8

namespace Acpi

/-- An identifier as firmware stores it. -/
structure EisaId where
  raw : UInt32
deriving DecidableEq

namespace EisaId

/-- The number of bytes of an identifier's text. -/
def textLength : Nat := 7

/-- The five bits for a byte in a letter's place. -/
def letterCode (b : UInt8) : Nat := (b - 0x40).toNat % 32

/-- The four bits for a byte in a digit's place. -/
def digitCode (b : UInt8) : Nat :=
  let n := b.toNat
  if 0x30 ≤ n ∧ n ≤ 0x39 then n - 0x30
  else if 0x41 ≤ n ∧ n ≤ 0x46 then n - 0x41 + 10
  else if 0x61 ≤ n ∧ n ≤ 0x66 then n - 0x61 + 10
  else 0

/-- The letter for five bits. -/
def letter (code : Nat) : UInt8 := UInt8.ofNat (code % 32 + 0x40)

/-- The digit for four bits, in upper case. -/
def digit (code : Nat) : UInt8 :=
  let n := code % 16
  UInt8.ofNat (if n < 10 then n + 0x30 else n - 10 + 0x41)

/-- The bytes of a 32-bit word in the opposite order. -/
def swapBytes (word : Nat) : Nat :=
  word % 0x100 * 0x1000000 + word / 0x100 % 0x100 * 0x10000 + word / 0x10000 % 0x100 * 0x100
    + word / 0x1000000 % 0x100

/-- The packed word of a text's bytes. -/
def pack (bytes : List UInt8) : Nat :=
  let byte (i : Nat) := bytes.getD i 0x30
  letterCode (byte 0) * 0x4000000 + letterCode (byte 1) * 0x200000 + letterCode (byte 2) * 0x10000
    + digitCode (byte 3) * 0x1000 + digitCode (byte 4) * 0x100 + digitCode (byte 5) * 0x10
    + digitCode (byte 6)

/-- The identifier that the bytes of a text spell. -/
def ofBytes (bytes : List UInt8) : EisaId := ⟨UInt32.ofNat (swapBytes (pack bytes))⟩

/-- The identifier that a text spells. -/
def encode (text : String) : EisaId := ofBytes (Text.utf8 text)

/-- The seven bytes of an identifier's text. -/
def decode (id : EisaId) : List UInt8 :=
  let word := swapBytes id.raw.toNat
  [letter (word / 0x4000000), letter (word / 0x200000), letter (word / 0x10000),
    digit (word / 0x1000), digit (word / 0x100), digit (word / 0x10), digit word]

/-- The text of an identifier. -/
def text (id : EisaId) : String := String.ofList (id.decode.map fun b => Char.ofNat b.toNat)

instance : ToString EisaId := ⟨text⟩

@[simp] theorem length_decode (id : EisaId) : id.decode.length = textLength := rfl

end EisaId
end Acpi
