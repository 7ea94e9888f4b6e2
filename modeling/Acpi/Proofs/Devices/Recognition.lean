/-
# What identifies a device

A value identifies a device by its leaves: by a number that is the stored word, or by a
text of seven bytes that encodes to it (`Value.Denotes`).  Packages only lead to them, so
a value identifies what one of the parts in it denotes (`Value.identifies_iff`).

Seven bytes are less than the form of an identifier's text, three letters and four
hexadecimal digits.  In that form a text denotes what it encodes to and nothing else.  But
encoding is total, and every word that a text can encode to has a text of seven characters
that is not in the form (`EisaId.exists_encode_of_not_inForm`): in the place of the first
letter stands the character that is 32 places before it, whose low five bits are the same.
Such a text is taken for the identifier too.
-/

import Acpi.Device.Search
import Acpi.Proofs.Devices.Codec
import Acpi.Proofs.Storage.Parts

namespace Acpi

namespace EisaId

/-- Of a letter nothing but its code is packed. -/
theorem pack_cons_congr {b c : UInt8} (h : letterCode b = letterCode c) (bytes : List UInt8) :
    pack (b :: bytes) = pack (c :: bytes) := by
  simp only [pack, List.getD_cons_zero, List.getD_cons_succ, h]

/-- Every identifier of a text is that of a text that is not in the form. -/
theorem exists_encode_of_not_inForm {id : EisaId} (h : id.raw &&& 0x80 = 0) :
    ∃ text, (Text.utf8 text).length = textLength ∧ text.length = textLength ∧ ¬InForm text ∧
      encode text = id := by
  obtain ⟨first, rest, hdecode⟩ : ∃ first rest, id.decode = first :: rest := ⟨_, _, rfl⟩
  have hlength : rest.length + 1 = textLength := by
    rw [← List.length_cons, ← hdecode, length_decode]
  -- the character with the low five bits of the first letter, 32 places before the letters
  obtain ⟨b, hascii, halpha, hcode⟩ : ∃ b : UInt8, b < 0x80 ∧
      (Char.ofNat b.toNat).isAlpha = false ∧ letterCode b = letterCode first := by
    have hcodes : ∀ n < 32, UInt8.ofNat (n + 0x20) < 0x80 ∧
        (Char.ofNat (UInt8.ofNat (n + 0x20)).toNat).isAlpha = false ∧
        letterCode (UInt8.ofNat (n + 0x20)) = n := by
      decide
    exact ⟨_, hcodes _ (letterCode_lt first)⟩
  have hbytes : Text.utf8 (String.ofList ((b :: rest).map fun b => Char.ofNat b.toNat)) =
      b :: rest :=
    Text.utf8_ofList (List.forall_mem_cons.2
      ⟨hascii, fun c hc => decode_lt id c (hdecode ▸ List.mem_cons_of_mem _ hc)⟩)
  have hencode : ofBytes (b :: rest) = id := by
    rw [ofBytes, pack_cons_congr hcode, ← hdecode, ← ofBytes, ← utf8_text, ← encode]
    exact (encode_text_eq_iff id).2 h
  refine ⟨_, by rw [hbytes, List.length_cons, hlength], ?_, fun hform => ?_,
    by rw [encode, hbytes, hencode]⟩
  · rw [String.length_ofList, List.length_map, List.length_cons, hlength]
  · have hletter := hform.2.1 (Char.ofNat b.toNat) (by rw [String.toList_ofList]; simp)
    rw [halpha] at hletter
    cases hletter

end EisaId

namespace Value

variable {id : EisaId} {v : Value} {text : String}

/-- A value that is the word of an identifier, or a text of its length that encodes to it. -/
inductive Denotes (id : EisaId) : Value → Prop
  | word (n : UInt64) (h : n.toNat = id.raw.toNat) : Denotes id (integer n)
  | text (text : String) (hlength : (Text.utf8 text).length = EisaId.textLength)
      (h : EisaId.encode text = id) : Denotes id (string text)

theorem denotes_string_iff : (string text).Denotes id ↔
    (Text.utf8 text).length = EisaId.textLength ∧ EisaId.encode text = id :=
  ⟨fun h => by cases h with | text _ hlength h => exact ⟨hlength, h⟩, fun h => .text text h.1 h.2⟩

mutual

/-- **A value identifies what one of its parts denotes.** -/
theorem identifies_iff : (v : Value) → (v.identifies id = true ↔
    ∃ path part, v.part? path = some part ∧ part.Denotes id)
  | integer n => by
    rw [identifies, beq_iff_eq]
    refine ⟨fun h => ⟨[], _, rfl, .word n h⟩, ?_⟩
    rintro ⟨_ | ⟨i, path⟩, part, hpart, hdenotes⟩
    · obtain rfl := Option.some.inj hpart
      cases hdenotes with | word _ h => exact h
    · cases hpart
  | string text => by
    rw [identifies, Bool.and_eq_true, beq_iff_eq, beq_iff_eq, ← denotes_string_iff]
    refine ⟨fun h => ⟨[], _, rfl, h⟩, ?_⟩
    rintro ⟨_ | ⟨i, path⟩, part, hpart, hdenotes⟩
    · obtain rfl := Option.some.inj hpart
      exact hdenotes
    · cases hpart
  | package elements => by
    rw [identifies, identifiesAny_iff elements]
    constructor
    · rintro ⟨i, path, part, hpart, hdenotes⟩
      exact ⟨i :: path, part, hpart, hdenotes⟩
    · rintro ⟨_ | ⟨i, path⟩, part, hpart, hdenotes⟩
      · obtain rfl := Option.some.inj hpart
        cases hdenotes
      · exact ⟨i, path, part, hpart, hdenotes⟩
  | null | buffer _ | bufferField _ => by
    rw [identifies, Bool.false_eq_true, false_iff]
    rintro ⟨_ | ⟨i, path⟩, part, hpart, hdenotes⟩
    · obtain rfl := Option.some.inj hpart
      cases hdenotes
    · cases hpart

theorem identifiesAny_iff : (vs : List Value) → (identifiesAny id vs = true ↔
    ∃ (i : Nat) (path : List Nat) (part : Value),
      vs[i]?.bind (part? · path) = some part ∧ part.Denotes id)
  | [] => by simp [identifiesAny]
  | v :: vs => by
    rw [identifiesAny, Bool.or_eq_true, identifies_iff v, identifiesAny_iff vs]
    constructor
    · rintro (h | ⟨i, h⟩)
      · exact ⟨0, h⟩
      · exact ⟨i + 1, h⟩
    · rintro ⟨_ | i, h⟩
      · exact .inl h
      · exact .inr ⟨i, h⟩

end

/-- The value is a text, alone or somewhere inside packages, and there is no other text and
no number in it. -/
structure OnlyText (text : String) (v : Value) : Prop where
  exists_path : ∃ path, v.part? path = some (string text)
  text_eq : ∀ path other, v.part? path = some (string other) → other = text
  ne_integer : ∀ path n, v.part? path ≠ some (integer n)

theorem onlyText_string (text : String) : (string text).OnlyText text where
  exists_path := ⟨[], rfl⟩
  text_eq path other h := by
    cases path with
    | nil => exact (string.inj (Option.some.inj h)).symm
    | cons => cases h
  ne_integer path n h := by
    cases path with
    | nil => cases h
    | cons => cases h

/-- One more package around a value that has nothing but a text. -/
theorem OnlyText.inPackage (h : v.OnlyText text) : (package [v]).OnlyText text where
  exists_path := h.exists_path.imp' (0 :: ·) fun _ hpath => hpath
  text_eq path other hother := by
    match path, hother with
    | 0 :: path, hother => exact h.text_eq path other hother
  ne_integer path n hn := by
    match path, hn with
    | 0 :: path, hn => exact h.ne_integer path n hn

theorem OnlyText.identifies_iff (h : v.OnlyText text) : v.identifies id = true ↔
    (Text.utf8 text).length = EisaId.textLength ∧ EisaId.encode text = id := by
  rw [Value.identifies_iff, ← denotes_string_iff]
  constructor
  · rintro ⟨path, part, hpart, hdenotes⟩
    cases hdenotes with
    | word n _ => exact absurd hpart (h.ne_integer path n)
    | text other hlength hencode =>
      rw [← h.text_eq path other hpart]
      exact .text other hlength hencode
  · intro hdenotes
    obtain ⟨path, hpath⟩ := h.exists_path
    exact ⟨path, _, hpath, hdenotes⟩

/-- **Texts are recognised by their length.**  A text, alone or inside packages to any
depth, identifies the one identifier that it encodes to, if it has seven bytes, and none
otherwise.  The form of an identifier is not required.  To require it would make a
difference where a text of seven bytes that is not in the form encodes to the identifier,
and nowhere else; and every identifier that texts have is also that of seven characters
which are not in the form, and which are taken for it.  A package identifies what its parts
denote, each part by itself. -/
theorem text_identifies (id : EisaId) (h : OnlyText text v) :
    (v.identifies id = true ↔
      (Text.utf8 text).length = EisaId.textLength ∧ EisaId.encode text = id) ∧
    ((v.identifies id = true ↔ EisaId.InForm text ∧ EisaId.encode text = id) ↔
      (EisaId.InForm text ∨ (Text.utf8 text).length ≠ EisaId.textLength ∨
        EisaId.encode text ≠ id)) ∧
    (id.raw &&& 0x80 = 0 → ∃ other, other.length = EisaId.textLength ∧ ¬EisaId.InForm other ∧
      ∀ u, OnlyText other u → u.identifies id = true) ∧
    ∀ u : Value, u.identifies id = true ↔
      ∃ path part, u.part? path = some part ∧ part.Denotes id := by
  refine ⟨h.identifies_iff, ?_, fun hid => ?_, identifies_iff⟩
  · rw [h.identifies_iff]
    by_cases hform : EisaId.InForm text
    · have hlength := hform.length_utf8
      simp only [hform, hlength, true_and, true_or]
    · simp only [hform, false_and, false_or, iff_false, not_and_or]
  · obtain ⟨other, hbytes, hlength, hform, hencode⟩ := EisaId.exists_encode_of_not_inForm hid
    exact ⟨other, hlength, hform, fun u hu => hu.identifies_iff.2 ⟨hbytes, hencode⟩⟩

/-- The text of a root bridge in two packages. -/
theorem text_identifies_rootBridge :
    OnlyText "PNP0A03" (package [package [string "PNP0A03"]]) ∧ EisaId.InForm "PNP0A03" ∧
      (package [package [string "PNP0A03"]]).identifies ⟨0x030AD041⟩ = true := by
  have honly : OnlyText "PNP0A03" (package [package [string "PNP0A03"]]) :=
    (onlyText_string _).inPackage.inPackage
  have hform : EisaId.InForm "PNP0A03" := by decide +kernel
  have hspelled := (text_identifies ⟨0x030AD041⟩ honly).2.1.2 (.inl hform)
  exact ⟨honly, hform, hspelled.2 ⟨hform, by decide +kernel⟩⟩

/-- Four characters that are no digits are taken for zeros, and a text of six characters,
one of them of two bytes, is taken for an identifier. -/
theorem identifies_outside_form :
    ¬EisaId.InForm "PNPZZZZ" ∧ (string "PNPZZZZ").identifies ⟨0x0000D041⟩ = true ∧
      ¬EisaId.InForm "PNP05é" ∧ (string "PNP05é").identifies ⟨0x0005D041⟩ = true := by
  decide +kernel

end Value
end Acpi
