/-
# Encoding and decoding identifiers

The letters and digits of a text are fields of one word, below its highest bit
(`EisaId.pack_fields`), so they can be read back (`EisaId.decode_ofBytes`), and packing
what is read from any word gives that word without its highest bit
(`EisaId.pack_decode`).  Firmware stores the word with its bytes in the opposite order:
there that bit is bit 7, and it is all that an identifier can lose on its way to a text
and back.

What is read back from a text that was encoded is not always that text.  It is the text
in upper case if it has three letters and four hexadecimal digits (`EisaId.InForm`).
Every other byte in a letter's or a digit's place is taken for one of these, and the
identifier of any text is that of a text in the form whose codes are the same.
-/

import Acpi.Device.EisaId
import Acpi.Proofs.Names.Spelling

namespace Acpi
namespace EisaId

variable {bytes : List UInt8} {text text' : String} {n : Nat}

/-! ### The order of the bytes of a word -/

theorem swapBytes_eq {a b c d : Nat} (ha : a < 0x100) (hb : b < 0x100) (hc : c < 0x100)
    (hd : d < 0x100) : swapBytes (a * 0x1000000 + b * 0x10000 + c * 0x100 + d) =
      d * 0x1000000 + c * 0x10000 + b * 0x100 + a := by
  unfold swapBytes
  omega

theorem exists_bytes (h : n < 0x100000000) :
    ∃ a < 0x100, ∃ b < 0x100, ∃ c < 0x100, ∃ d < 0x100,
      n = a * 0x1000000 + b * 0x10000 + c * 0x100 + d :=
  ⟨n / 0x1000000, by omega, n / 0x10000 % 0x100, by omega, n / 0x100 % 0x100, by omega,
    n % 0x100, by omega, by omega⟩

theorem swapBytes_lt (n : Nat) : swapBytes n < 0x100000000 := by
  unfold swapBytes
  omega

/-- The highest byte of a word is the lowest in the opposite order. -/
theorem swapBytes_mod (n : Nat) : swapBytes n % 0x100 = n / 0x1000000 % 0x100 := by
  unfold swapBytes
  omega

theorem swapBytes_swapBytes (h : n < 0x100000000) : swapBytes (swapBytes n) = n := by
  obtain ⟨a, ha, b, hb, c, hc, d, hd, rfl⟩ := exists_bytes h
  rw [swapBytes_eq ha hb hc hd, swapBytes_eq hd hc hb ha]

/-- The highest bit of a word is bit 7 in the opposite order. -/
theorem swapBytes_swapBytes_mod (h : n < 0x100000000) :
    swapBytes (swapBytes n % 0x80000000) = n / 0x100 * 0x100 + n % 0x80 := by
  obtain ⟨a, ha, b, hb, c, hc, d, hd, rfl⟩ := exists_bytes h
  have hword : (d * 0x1000000 + c * 0x10000 + b * 0x100 + a) % 0x80000000 =
      d % 0x80 * 0x1000000 + c * 0x10000 + b * 0x100 + a := by omega
  have hhigh : (a * 0x1000000 + b * 0x10000 + c * 0x100 + d) / 0x100 =
      a * 0x10000 + b * 0x100 + c := by omega
  have hlow : (a * 0x1000000 + b * 0x10000 + c * 0x100 + d) % 0x80 = d % 0x80 := by
    have hsplit : a * 0x1000000 + b * 0x10000 + c * 0x100 + d =
        0x80 * (a * 0x20000 + b * 0x200 + c * 2) + d := by omega
    rw [hsplit, Nat.mul_add_mod]
  rw [swapBytes_eq ha hb hc hd, hword, swapBytes_eq (by omega) hc hb ha, hhigh, hlow]
  omega

/-! ### The unused bit -/

theorem toNat_and_not_unused (w : UInt32) :
    (w &&& ~~~0x80).toNat = w.toNat / 0x100 * 0x100 + w.toNat % 0x80 := by
  have hlt := w.toNat_lt
  have hhigh : (w.toNat &&& 0xFFFFFF7F) / 2 ^ 8 = w.toNat / 2 ^ 8 := by
    rw [Nat.and_div_two_pow]
    exact (Nat.and_two_pow_sub_one_eq_mod _ 24).trans (Nat.mod_eq_of_lt (by omega))
  have hlow : (w.toNat &&& 0xFFFFFF7F) % 2 ^ 8 = w.toNat % 0x80 := by
    rw [Nat.and_mod_two_pow]
    exact (Nat.and_two_pow_sub_one_eq_mod _ 7).trans (by omega)
  rw [UInt32.toNat_and, show (~~~0x80 : UInt32).toNat = 0xFFFFFF7F from rfl]
  omega

theorem toNat_and_unused (w : UInt32) : (w &&& 0x80).toNat = w.toNat / 0x80 % 2 * 0x80 := by
  have hhigh : (w.toNat &&& 0x80) / 2 ^ 7 = w.toNat / 0x80 % 2 := by
    rw [Nat.and_div_two_pow]
    exact Nat.and_two_pow_sub_one_eq_mod _ 1
  have hlow : (w.toNat &&& 0x80) % 2 ^ 7 = 0 := by
    rw [Nat.and_mod_two_pow]
    exact Nat.and_zero _
  rw [UInt32.toNat_and, show (0x80 : UInt32).toNat = 0x80 from rfl]
  omega

theorem and_unused_eq_zero_iff (w : UInt32) : w &&& 0x80 = 0 ↔ w.toNat / 0x80 % 2 = 0 := by
  rw [← UInt32.toNat_inj, toNat_and_unused, show (0 : UInt32).toNat = 0 from rfl]
  omega

/-! ### Letters and digits -/

theorem letterCode_lt (b : UInt8) : letterCode b < 32 := Nat.mod_lt _ (by decide)

theorem digitCode_lt (b : UInt8) : digitCode b < 16 := by
  unfold digitCode
  dsimp only
  split_ifs <;> omega

theorem letter_mod (n : Nat) : letter (n % 32) = letter n := by
  rw [letter, letter, Nat.mod_mod]

theorem digit_mod (n : Nat) : digit (n % 16) = digit n := by
  rw [digit, digit, Nat.mod_mod]

theorem toNat_letter (n : Nat) : (letter n).toNat = n % 32 + 0x40 := by
  rw [letter, UInt8.toNat_ofNat', Nat.mod_eq_of_lt (by omega)]

theorem toNat_digit (n : Nat) :
    (digit n).toNat = if n % 16 < 10 then n % 16 + 0x30 else n % 16 - 10 + 0x41 := by
  unfold digit
  rw [UInt8.toNat_ofNat', Nat.mod_eq_of_lt]
  split_ifs <;> omega

theorem letterCode_letter (n : Nat) : letterCode (letter n) = n % 32 := by
  rw [letterCode, UInt8.toNat_sub, toNat_letter, show (0x40 : UInt8).toNat = 0x40 from rfl]
  omega

theorem digitCode_digit (n : Nat) : digitCode (digit n) = n % 16 := by
  unfold digitCode
  rw [toNat_digit]
  dsimp only
  split_ifs <;> omega

theorem decode_lt (id : EisaId) : ∀ b ∈ id.decode, b < 0x80 := by
  have hletter (n : Nat) : letter n < 0x80 := by
    rw [UInt8.lt_iff_toNat_lt, toNat_letter, show (0x80 : UInt8).toNat = 0x80 from rfl]
    omega
  have hdigit (n : Nat) : digit n < 0x80 := by
    rw [UInt8.lt_iff_toNat_lt, toNat_digit, show (0x80 : UInt8).toNat = 0x80 from rfl]
    split_ifs <;> omega
  simp [decode, hletter, hdigit]

/-- An identifier's text has the bytes that are read from it. -/
theorem utf8_text (id : EisaId) : Text.utf8 id.text = id.decode :=
  Text.utf8_ofList (decode_lt id)

/-! ### The packed word -/

/-- The fields of a packed word are the codes of its letters and digits. -/
theorem pack_fields (bytes : List UInt8) :
    let byte (i : Nat) := bytes.getD i 0x30
    pack bytes < 0x80000000 ∧
      pack bytes / 0x4000000 % 32 = letterCode (byte 0) ∧
      pack bytes / 0x200000 % 32 = letterCode (byte 1) ∧
      pack bytes / 0x10000 % 32 = letterCode (byte 2) ∧
      pack bytes / 0x1000 % 16 = digitCode (byte 3) ∧
      pack bytes / 0x100 % 16 = digitCode (byte 4) ∧
      pack bytes / 0x10 % 16 = digitCode (byte 5) ∧
      pack bytes % 16 = digitCode (byte 6) := by
  intro byte
  have h₀ := letterCode_lt (byte 0)
  have h₁ := letterCode_lt (byte 1)
  have h₂ := letterCode_lt (byte 2)
  have h₃ := digitCode_lt (byte 3)
  have h₄ := digitCode_lt (byte 4)
  have h₅ := digitCode_lt (byte 5)
  have h₆ := digitCode_lt (byte 6)
  have hpack : pack bytes = letterCode (byte 0) * 0x4000000 + letterCode (byte 1) * 0x200000 +
      letterCode (byte 2) * 0x10000 + digitCode (byte 3) * 0x1000 + digitCode (byte 4) * 0x100 +
      digitCode (byte 5) * 0x10 + digitCode (byte 6) := rfl
  omega

theorem pack_lt (bytes : List UInt8) : pack bytes < 0x80000000 := (pack_fields bytes).1

/-- Packing what is read from a word loses its highest bit. -/
theorem pack_decode (id : EisaId) : pack id.decode = swapBytes id.raw.toNat % 0x80000000 := by
  have hlt := swapBytes_lt id.raw.toNat
  simp only [pack, decode, List.getD_cons_zero, List.getD_cons_succ, letterCode_letter,
    digitCode_digit]
  omega

theorem toNat_raw_ofBytes (bytes : List UInt8) :
    (ofBytes bytes).raw.toNat = swapBytes (pack bytes) := by
  rw [ofBytes, UInt32.toNat_ofNat', Nat.mod_eq_of_lt (swapBytes_lt _)]

/-- Each letter and each digit is read from the code of the byte in its place. -/
theorem decode_ofBytes (bytes : List UInt8) :
    let byte (i : Nat) := bytes.getD i 0x30
    (ofBytes bytes).decode = [letter (letterCode (byte 0)), letter (letterCode (byte 1)),
      letter (letterCode (byte 2)), digit (digitCode (byte 3)), digit (digitCode (byte 4)),
      digit (digitCode (byte 5)), digit (digitCode (byte 6))] := by
  obtain ⟨hlt, h₀, h₁, h₂, h₃, h₄, h₅, h₆⟩ := pack_fields bytes
  rw [decode, toNat_raw_ofBytes, swapBytes_swapBytes (by omega)]
  simp only [← h₀, ← h₁, ← h₂, ← h₃, ← h₄, ← h₅, ← h₆, letter_mod, digit_mod]

theorem decode_ofBytes_of_length (h : bytes.length = textLength) :
    (ofBytes bytes).decode = (bytes.take 3).map (fun b => letter (letterCode b)) ++
      (bytes.drop 3).map fun b => digit (digitCode b) := by
  match bytes, h with
  | [a, b, c, d, e, f, g], _ =>
    rw [decode_ofBytes]
    rfl

/-! ### From an identifier to a text and back -/

theorem toNat_raw_encode_text (id : EisaId) :
    (encode id.text).raw.toNat = id.raw.toNat / 0x100 * 0x100 + id.raw.toNat % 0x80 := by
  rw [encode, utf8_text, toNat_raw_ofBytes, pack_decode, swapBytes_swapBytes_mod id.raw.toNat_lt]

/-- An identifier loses the unused bit in its text, -/
theorem raw_encode_text (id : EisaId) : (encode id.text).raw = id.raw &&& ~~~0x80 := by
  rw [← UInt32.toNat_inj, toNat_raw_encode_text, toNat_and_not_unused]

/-- and nothing if that bit is not set. -/
theorem encode_text_eq_iff (id : EisaId) : encode id.text = id ↔ id.raw &&& 0x80 = 0 := by
  have hraw : encode id.text = id ↔ (encode id.text).raw.toNat = id.raw.toNat := by
    rw [UInt32.toNat_inj]
    exact ⟨congrArg raw, fun h => by cases id; exact congrArg mk h⟩
  rw [hraw, toNat_raw_encode_text, and_unused_eq_zero_iff]
  omega

/-! ### From a text to an identifier and back -/

/-- The bytes in the places of an identifier's text: the first seven of a text, and the
digit `0` for each that is missing. -/
def places (bytes : List UInt8) : List UInt8 :=
  (bytes ++ List.replicate textLength 0x30).take textLength

theorem getD_places (bytes : List UInt8) {i : Nat} (hi : i < 7) :
    (places bytes).getD i 0x30 = bytes.getD i 0x30 := by
  have htake : (places bytes)[i]? = (bytes ++ List.replicate textLength 0x30)[i]? :=
    List.getElem?_take_of_lt hi
  rw [List.getD_eq_getElem?_getD, List.getD_eq_getElem?_getD, htake]
  rcases Nat.lt_or_ge i bytes.length with hlt | hge
  · rw [List.getElem?_append_left hlt]
  · rw [List.getElem?_append_right hge, List.getElem?_replicate, List.getElem?_eq_none hge]
    split_ifs <;> rfl

theorem ofBytes_places (bytes : List UInt8) : ofBytes (places bytes) = ofBytes bytes := by
  have hpack : pack (places bytes) = pack bytes := by
    unfold pack
    simp only [getD_places, Nat.reduceLT]
  rw [ofBytes, ofBytes, hpack]

/-- A text never sets the unused bit. -/
theorem raw_encode_and_unused (text : String) : (encode text).raw &&& 0x80 = 0 := by
  have hlt := pack_lt (Text.utf8 text)
  have hlow := swapBytes_mod (pack (Text.utf8 text))
  rw [and_unused_eq_zero_iff, encode, toNat_raw_ofBytes]
  omega

theorem encode_text_encode (text : String) : encode (encode text).text = encode text :=
  (encode_text_eq_iff _).2 (raw_encode_and_unused text)

/-! ### Texts in the form of an identifier -/

/-- Three letters and four hexadecimal digits, in either case. -/
def InForm (text : String) : Prop :=
  text.length = textLength ∧ (∀ c ∈ text.toList.take 3, c.isAlpha) ∧
    ∀ c ∈ text.toList.drop 3, c.isHexDigit

-- by name, since characters are finitely many and could be gone through one by one
instance (text : String) : Decidable (InForm text) :=
  @instDecidableAnd _ _ inferInstance
    (@instDecidableAnd _ _ (List.decidableBAll _ _) (List.decidableBAll _ _))

theorem letter_of_isAlpha {c : Char} (h : c.isAlpha) :
    c.toNat < 0x80 ∧ Char.ofNat (letter (letterCode (UInt8.ofNat c.toNat))).toNat = c.toUpper := by
  have hascii : ∀ n < 0x80, (Char.ofNat n).isAlpha →
      Char.ofNat (letter (letterCode (UInt8.ofNat n))).toNat = (Char.ofNat n).toUpper := by
    decide
  have hlt : c.toNat < 0x80 := by
    have hcases : (decide ('A'.val ≤ c.val ∧ c.val ≤ 'Z'.val) ||
        (decide ('a'.val ≤ c.val) && decide (c.val ≤ 'z'.val))) = true := h
    simp [UInt32.le_iff_toNat_le] at hcases
    omega
  have hletter := hascii c.toNat hlt
  rw [Char.ofNat_toNat] at hletter
  exact ⟨hlt, hletter h⟩

theorem digit_of_isHexDigit {c : Char} (h : c.isHexDigit) :
    c.toNat < 0x80 ∧ Char.ofNat (digit (digitCode (UInt8.ofNat c.toNat))).toNat = c.toUpper := by
  have hascii : ∀ n < 0x80, (Char.ofNat n).isHexDigit →
      Char.ofNat (digit (digitCode (UInt8.ofNat n))).toNat = (Char.ofNat n).toUpper := by
    decide
  have hlt : c.toNat < 0x80 := by
    simp [Char.isHexDigit, Char.isDigit, UInt32.le_iff_toNat_le] at h
    omega
  have hdigit := hascii c.toNat hlt
  rw [Char.ofNat_toNat] at hdigit
  exact ⟨hlt, hdigit h⟩

theorem InForm.utf8_eq (h : InForm text) :
    Text.utf8 text = text.toList.map fun c => UInt8.ofNat c.toNat := by
  obtain ⟨-, hletters, hdigits⟩ := h
  refine Text.utf8_eq_map fun c hc => ?_
  rw [← List.take_append_drop 3 text.toList, List.mem_append] at hc
  rcases hc with hc | hc
  · exact (letter_of_isAlpha (hletters c hc)).1
  · exact (digit_of_isHexDigit (hdigits c hc)).1

theorem InForm.length_utf8 (h : InForm text) : (Text.utf8 text).length = textLength := by
  rw [h.utf8_eq, List.length_map, String.length_toList, h.1]

/-- A text in the form is read back in upper case. -/
theorem InForm.text_encode (h : InForm text) : (encode text).text = text.toUpper := by
  have hletters : ∀ c ∈ text.toList.take 3,
      Char.ofNat (letter (letterCode (UInt8.ofNat c.toNat))).toNat = c.toUpper :=
    fun c hc => (letter_of_isAlpha (h.2.1 c hc)).2
  have hdigits : ∀ c ∈ text.toList.drop 3,
      Char.ofNat (digit (digitCode (UInt8.ofNat c.toNat))).toNat = c.toUpper :=
    fun c hc => (digit_of_isHexDigit (h.2.2 c hc)).2
  have hdecode := decode_ofBytes_of_length h.length_utf8
  rw [h.utf8_eq, ← List.map_take, ← List.map_drop, List.map_map, List.map_map] at hdecode
  apply String.toList_injective
  rw [encode, EisaId.text, String.toList_ofList, h.utf8_eq, hdecode, List.map_append, List.map_map,
    List.map_map, String.toUpper, String.toList_map]
  conv_rhs => rw [← List.take_append_drop 3 text.toList, List.map_append]
  exact congrArg₂ (· ++ ·) (List.map_congr_left hletters) (List.map_congr_left hdigits)

theorem InForm.encode_toUpper (h : InForm text) : encode text.toUpper = encode text := by
  rw [← h.text_encode, encode_text_encode]

/-- Texts in the form are told apart up to the case of their letters. -/
theorem InForm.encode_eq_iff (h : InForm text) (h' : InForm text') :
    encode text = encode text' ↔ text.toUpper = text'.toUpper := by
  refine ⟨fun heq => ?_, fun heq => ?_⟩
  · rw [← h.text_encode, ← h'.text_encode, heq]
  · rw [← h.encode_toUpper, ← h'.encode_toUpper, heq]

/-- **Identifiers and their texts.**  An identifier loses bit 7 on the way to its text and
back, so it is kept if and only if that bit is 0.  A text, whatever it is, gives an
identifier with bit 7 clear, which its first seven bytes settle, filled up with the digit
`0`, and which is kept on the way to its text and back.  That text is the one it came from
in upper case, if this has three letters and four hexadecimal digits; so two of these have
the same identifier if and only if they differ in nothing but case. -/
theorem text_laws :
    (∀ id : EisaId, Text.utf8 id.text = id.decode ∧
      (encode id.text).raw = id.raw &&& ~~~0x80 ∧ (encode id.text = id ↔ id.raw &&& 0x80 = 0)) ∧
    (∀ text, (encode text).raw &&& 0x80 = 0 ∧
      encode text = ofBytes (places (Text.utf8 text)) ∧
      encode (encode text).text = encode text ∧
      (InForm text → (encode text).text = text.toUpper)) ∧
    ∀ text text', InForm text → InForm text' →
      (encode text = encode text' ↔ text.toUpper = text'.toUpper) := by
  refine ⟨fun id => ⟨utf8_text id, raw_encode_text id, encode_text_eq_iff id⟩,
    fun text => ⟨raw_encode_and_unused text, ?_, encode_text_encode text, InForm.text_encode⟩,
    fun text text' => InForm.encode_eq_iff⟩
  rw [ofBytes_places, encode]

/-- A root bridge in lower and in upper case. -/
theorem text_laws_rootBridge :
    InForm "pnp0a03" ∧ InForm "PNP0A03" ∧ "pnp0a03".toUpper = "PNP0A03" ∧
      (encode "pnp0a03").text = "PNP0A03" ∧ encode "pnp0a03" = encode "PNP0A03" := by
  have hlower : InForm "pnp0a03" := by decide +kernel
  have hupper : InForm "PNP0A03" := by decide +kernel
  have hcase : "pnp0a03".toUpper = "PNP0A03" := by decide +kernel
  have hsame : "PNP0A03".toUpper = "PNP0A03" := by decide +kernel
  obtain ⟨-, htext, hiff⟩ := text_laws
  refine ⟨hlower, hupper, hcase, ?_, ?_⟩
  · rw [(htext _).2.2.2 hlower, hcase]
  · exact (hiff _ _ hlower hupper).2 (hcase.trans hsame.symm)

end EisaId
end Acpi
