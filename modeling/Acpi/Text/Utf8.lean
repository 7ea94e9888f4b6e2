/-
# Texts as bytes

Names and identifiers are compared byte by byte, while messages and string
values are texts.  `Text.utf8` gives the bytes of a text in UTF-8, character
after character; `Text.ofUtf8?` reads bytes back and refuses what is not UTF-8.
-/

namespace Acpi
namespace Text

/-- The UTF-8 bytes of a text. -/
def utf8 (text : String) : List UInt8 :=
  text.toList.flatMap String.utf8EncodeChar

/-- The text that the bytes spell, or `none` when they are not UTF-8. -/
def ofUtf8? (bytes : List UInt8) : Option String :=
  String.fromUTF8? bytes.toByteArray

@[simp] theorem utf8_empty : utf8 "" = [] := rfl

/-- The bytes of a concatenation are the bytes of its parts. -/
theorem utf8_append (a b : String) : utf8 (a ++ b) = utf8 a ++ utf8 b := by
  simp [utf8]

end Text
end Acpi
