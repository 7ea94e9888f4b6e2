/-
# The text of a path

A node can be named by the names on the way to it, written behind a backslash with
dots between them.  A name may be written shorter than it is: underscores at its
end can be left out, as long as something of it remains (`Segment.WrittenAs`).
Reading a text fills up whatever stands between its dots (`Path.spell_eq`), so all
the texts for the same names are the same path, with the markers before them
(`Path.ofText_append`).  This is for names that a path can carry: they are of ASCII
bytes without a dot (`Segment.IsPlain`), and the first of them does not begin like a
marker.
-/

import Acpi.Name.Path
import Mathlib.Data.List.Forall2

namespace Acpi
namespace Text

variable {bytes : List UInt8}

theorem toByteArray_utf8 (text : String) : (utf8 text).toByteArray = text.toByteArray :=
  String.utf8Encode_toList

/-- A text is what its own bytes spell. -/
@[simp] theorem ofUtf8?_utf8 (text : String) : ofUtf8? (utf8 text) = some text := by
  rw [ofUtf8?, toByteArray_utf8, String.fromUTF8?, dif_pos text.isValidUTF8]
  rfl

/-- An ASCII byte is a character by itself. -/
theorem utf8EncodeChar_ofNat {b : UInt8} (h : b < 0x80) :
    String.utf8EncodeChar (Char.ofNat b.toNat) = [b] := by
  have hlt : b.toNat < 0x80 := h
  have hvalid : b.toNat.isValidChar := .inl (by omega)
  have hchar : (Char.ofNat b.toNat).val.toNat = b.toNat := by
    rw [Char.ofNat, dif_pos hvalid]
    rfl
  rw [String.utf8EncodeChar, hchar, if_pos (by omega), UInt8.ofNat_toNat]

/-- ASCII bytes are the bytes of the text of their characters. -/
theorem utf8_ofList (h : ∀ b ∈ bytes, b < 0x80) :
    utf8 (String.ofList (bytes.map fun b => Char.ofNat b.toNat)) = bytes := by
  rw [utf8, String.toList_ofList, List.flatMap_map]
  induction bytes with
  | nil => rfl
  | cons b bytes ih =>
    rw [List.forall_mem_cons] at h
    rw [List.flatMap_cons, ih h.2, utf8EncodeChar_ofNat h.1, List.singleton_append]

/-- ASCII bytes are the bytes of a text. -/
theorem exists_utf8_eq (h : ∀ b ∈ bytes, b < 0x80) : ∃ text, utf8 text = bytes :=
  ⟨_, utf8_ofList h⟩

/-- A text of ASCII characters has a byte for each of them. -/
theorem utf8_eq_map {text : String} (h : ∀ c ∈ text.toList, c.toNat < 0x80) :
    utf8 text = text.toList.map fun c => UInt8.ofNat c.toNat := by
  have hchars : text.toList.map String.utf8EncodeChar =
      (text.toList.map fun c => UInt8.ofNat c.toNat).map ([·]) := by
    rw [List.map_map]
    refine List.map_congr_left fun c hc => ?_
    have hlt : c.val.toNat < 0x80 := h c hc
    rw [String.utf8EncodeChar, if_pos (by omega)]
    rfl
  rw [utf8, List.flatMap_def, hchars, ← List.flatMap_def, List.flatMap_singleton']

theorem utf8_eq_nil_iff {text : String} : utf8 text = [] ↔ text = "" := by
  simp [utf8, List.flatMap_eq_nil_iff, ← List.eq_nil_iff_forall_not_mem]

/-- Texts are joined byte by byte. -/
theorem utf8_intercalate (sep : String) (texts : List String) :
    utf8 (sep.intercalate texts) = (utf8 sep).intercalate (texts.map utf8) := by
  induction texts with
  | nil => simp
  | cons text rest ih =>
    cases rest with
    | nil => simp
    | cons next rest =>
      simp only [String.intercalate_cons_cons, utf8_append, ih, List.map_cons,
        List.intercalate_cons_cons]

end Text

namespace Segment

variable {s : Segment} {text : String}

/-- A name that a path can carry. -/
def IsPlain (s : Segment) : Prop := ∀ b ∈ s.bytes, b < 0x80 ∧ b ≠ Path.separator

/-- A name that, at the beginning of a path, would be taken for a marker. -/
def IsMarked (s : Segment) : Prop := Path.isMarker s.first = true

instance (s : Segment) : Decidable s.IsPlain :=
  inferInstanceAs (Decidable (∀ b ∈ s.bytes, b < 0x80 ∧ b ≠ Path.separator))

instance (s : Segment) : Decidable s.IsMarked :=
  inferInstanceAs (Decidable (Path.isMarker s.first = true))

/-- A text that stands for a name: what remains of it when underscores at its end
are left out. -/
def WrittenAs (s : Segment) (text : String) : Prop :=
  text ≠ "" ∧ ∃ n, s.text = text ++ String.ofList (List.replicate n '_')

theorem IsPlain.utf8_text (h : s.IsPlain) : Text.utf8 s.text = s.bytes := by
  obtain ⟨text, htext⟩ := Text.exists_utf8_eq fun b hb => (h b hb).1
  rw [Segment.text, ← htext, Text.ofUtf8?_utf8, Option.getD_some]

/-- A name can be written in full. -/
theorem IsPlain.writtenAs_text (h : s.IsPlain) : s.WrittenAs s.text := by
  refine ⟨fun hempty => ?_, 0, String.append_empty.symm⟩
  have hbytes := h.utf8_text
  rw [Text.utf8_eq_nil_iff.2 hempty] at hbytes
  cases hbytes

/-- The bytes of a text that stands for a name: the first bytes of the name, of
which only underscores are missing. -/
theorem WrittenAs.bytes_eq (hplain : s.IsPlain) (h : s.WrittenAs text) :
    ∃ n < 4, s.bytes = Text.utf8 text ++ List.replicate n Path.filler := by
  obtain ⟨hne, n, hn⟩ := h
  have hfill : Text.utf8 (String.ofList (List.replicate n '_')) = List.replicate n Path.filler := by
    rw [Text.utf8, String.toList_ofList, List.flatMap_replicate]
    exact List.flatten_replicate_singleton
  have hbytes : s.bytes = Text.utf8 text ++ List.replicate n Path.filler := by
    rw [← hplain.utf8_text, hn, Text.utf8_append, hfill]
  refine ⟨n, ?_, hbytes⟩
  have hlength := congrArg List.length hbytes
  have hpos := List.length_pos_iff.2 (mt Text.utf8_eq_nil_iff.1 hne)
  simp only [length_bytes, List.length_append, List.length_replicate] at hlength
  omega

end Segment

namespace Path

variable {s : Segment} {u v : List UInt8} {names : List Segment} {texts : List String}

/-! ### Names one after another -/

/-- The bytes of names, one name after another. -/
def joined (names : List Segment) : List UInt8 := names.flatMap Segment.bytes

@[simp] theorem segmentsOf_bytes_append (s : Segment) (v : List UInt8) :
    segmentsOf (s.bytes ++ v) = s :: segmentsOf v :=
  rfl

@[simp] theorem joined_cons (s : Segment) (names : List Segment) :
    joined (s :: names) = s.bytes ++ joined names :=
  rfl

@[simp] theorem joined_concat (names : List Segment) (s : Segment) :
    joined (names ++ [s]) = joined names ++ s.bytes := by
  simp [joined]

theorem length_joined (names : List Segment) : (joined names).length = 4 * names.length := by
  induction names with
  | nil => rfl
  | cons s names ih =>
    rw [joined_cons, List.length_append, ih, Segment.length_bytes, List.length_cons]
    omega

@[simp] theorem segmentsOf_joined (names : List Segment) : segmentsOf (joined names) = names := by
  induction names with
  | nil => rfl
  | cons s names ih => rw [joined_cons, segmentsOf_bytes_append, ih]

/-- A string of whole segments is made of the names that it spells. -/
theorem joined_segmentsOf (h : 4 ∣ v.length) : joined (segmentsOf v) = v := by
  induction v using segmentsOf.induct with
  | case1 a b c d rest ih =>
    have hrest : 4 ∣ rest.length := by
      simp only [List.length_cons] at h
      omega
    rw [segmentsOf, joined_cons, ih hrest]
    rfl
  | case2 v hshort =>
    match v with
    | [] => rfl
    | [_] | [_, _] | [_, _, _] => simp at h
    | a :: b :: c :: d :: rest => exact absurd rfl (hshort a b c d rest)

/-! ### Reading a text -/

/-- The text that leads from the root through names, as they are written. -/
def absolute (texts : List String) : String := "\\" ++ ".".intercalate texts

/-- A piece of a text, filled up to whole segments. -/
def complete (piece : List UInt8) : List UInt8 := piece ++ padding (piece.length % 4)

/-- Reading on behind bytes without a dot, which begin the first piece.  The count of
the bytes used is that of this piece alone, and a dot sets it back. -/
theorem append_spell (h : separator ∉ u) (v : List UInt8) :
    u ++ spell (u.length % 4) v = ((u ++ v).splitOn separator).flatMap complete := by
  induction v generalizing u with
  | nil =>
    rw [List.append_nil, List.splitOn_eq_singleton h, List.flatMap_singleton]
    rfl
  | cons b v ih =>
    rw [spell]
    split
    · rename_i hb
      subst hb
      rw [List.splitOn_append_cons_self_of_not_mem h, List.flatMap_cons, complete,
        List.append_assoc]
      exact congrArg (fun w => u ++ (padding (u.length % 4) ++ w)) (ih List.not_mem_nil)
    · rename_i hb
      have hu : separator ∉ u ++ [b] := by simp [h, Ne.symm hb]
      have hlength : (u.length % 4 + 1) % 4 = (u ++ [b]).length % 4 := by
        rw [List.length_append, List.length_singleton, Nat.mod_add_mod]
      rw [hlength]
      simpa using ih hu

/-- **What a text spells**: the pieces between its dots, each filled up. -/
theorem spell_eq (v : List UInt8) : spell 0 v = (v.splitOn separator).flatMap complete :=
  append_spell List.not_mem_nil v

/-- What is missing of a name is filled in. -/
theorem complete_eq {n : Nat} (hn : n < 4) (h : s.bytes = u ++ List.replicate n filler) :
    complete u = s.bytes := by
  have hlength := congrArg List.length h
  simp only [Segment.length_bytes, List.length_append, List.length_replicate] at hlength
  rw [complete, h, padding, show (4 - u.length % 4) % 4 = n by omega]

/-- The texts for names hold no dot, and filled up they are the names. -/
theorem flatMap_complete (h : List.Forall₂ Segment.WrittenAs names texts)
    (hplain : ∀ s ∈ names, s.IsPlain) :
    (∀ piece ∈ texts.map Text.utf8, separator ∉ piece) ∧
      (texts.map Text.utf8).flatMap complete = joined names := by
  induction h with
  | nil => exact ⟨nofun, rfl⟩
  | @cons s text names texts hwritten _ ih =>
    rw [List.forall_mem_cons] at hplain
    obtain ⟨hdots, hjoined⟩ := ih hplain.2
    obtain ⟨n, hn, hbytes⟩ := hwritten.bytes_eq hplain.1
    have hdot : separator ∉ Text.utf8 text := fun hmem =>
      (hplain.1 separator (hbytes ▸ List.mem_append_left _ hmem)).2 rfl
    rw [List.map_cons, List.flatMap_cons, hjoined, complete_eq hn hbytes, joined_cons]
    exact ⟨List.forall_mem_cons.2 ⟨hdot, hdots⟩, rfl⟩

theorem spell_intercalate (h : List.Forall₂ Segment.WrittenAs names texts)
    (hplain : ∀ s ∈ names, s.IsPlain) :
    spell 0 ([separator].intercalate (texts.map Text.utf8)) = joined names := by
  obtain ⟨hdots, hjoined⟩ := flatMap_complete h hplain
  cases h with
  | nil => rfl
  | cons => rw [spell_eq, List.splitOn_intercalate _ hdots (List.cons_ne_nil _ _), hjoined]

/-- A text for names begins with the first byte of the first name. -/
theorem head?_intercalate (h : List.Forall₂ Segment.WrittenAs names texts)
    (hplain : ∀ s ∈ names, s.IsPlain) :
    ([separator].intercalate (texts.map Text.utf8)).head? = names.head?.map (·.first) := by
  cases h with
  | nil => rfl
  | @cons s text names texts hwritten hrest =>
    obtain ⟨n, -, hbytes⟩ := hwritten.bytes_eq (hplain s (List.mem_cons_self ..))
    cases htext : Text.utf8 text with
    | nil => exact absurd (Text.utf8_eq_nil_iff.1 htext) hwritten.1
    | cons b rest =>
      rw [htext] at hbytes
      have hfirst : s.first = b := (List.cons.inj hbytes).1
      rw [List.map_cons, htext, List.head?_cons, Option.map_some, hfirst]
      cases texts <;> rfl

/-- Backslashes and carets are markers. -/
theorem isMarker_of_mem_utf8 {lead : String} (hlead : ∀ c ∈ lead.toList, c = '\\' ∨ c = '^') :
    ∀ b ∈ Text.utf8 lead, isMarker b = true := by
  intro b hb
  obtain ⟨c, hc, hb⟩ := List.mem_flatMap.1 hb
  rcases hlead c hc with rfl | rfl
  · obtain rfl : b = rootMarker := List.mem_singleton.1 hb
    rfl
  · obtain rfl : b = parentMarker := List.mem_singleton.1 hb
    rfl

/-- **Reading the text for names gives the names**, filled up, and the markers that
stand before it. -/
theorem ofText_append {lead : String} (hlead : ∀ c ∈ lead.toList, c = '\\' ∨ c = '^')
    (h : List.Forall₂ Segment.WrittenAs names texts) (hplain : ∀ s ∈ names, s.IsPlain)
    (hmarked : ∀ s ∈ names.head?, ¬s.IsMarked) :
    ofText (lead ++ ".".intercalate texts) = ⟨Text.utf8 lead, joined names⟩ := by
  have hbytes : Text.utf8 (lead ++ ".".intercalate texts) =
      Text.utf8 lead ++ [separator].intercalate (texts.map Text.utf8) := by
    rw [Text.utf8_append, Text.utf8_intercalate]
    rfl
  have hvalue := spell_intercalate h hplain
  have hstart := head?_intercalate h hplain
  have hmarkers := isMarker_of_mem_utf8 hlead
  rw [ofText, ofBytes, hbytes, List.takeWhile_append_of_pos hmarkers,
    List.dropWhile_append_of_pos hmarkers]
  -- the names do not begin with a marker, so nothing more is taken off
  cases hrest : [separator].intercalate (texts.map Text.utf8) with
  | nil => rw [← hvalue, hrest, List.takeWhile_nil, List.dropWhile_nil, List.append_nil]
  | cons b rest =>
    rw [hrest, List.head?_cons] at hstart
    obtain ⟨s, hs, hfirst⟩ := Option.map_eq_some_iff.1 hstart.symm
    have hb : ¬isMarker b = true := hfirst ▸ hmarked s hs
    rw [List.takeWhile_cons_of_neg hb, List.dropWhile_cons_of_neg hb, ← hrest, hvalue,
      List.append_nil]

/-- Behind a backslash stands an address. -/
theorem ofText_absolute (h : List.Forall₂ Segment.WrittenAs names texts)
    (hplain : ∀ s ∈ names, s.IsPlain) (hmarked : ∀ s ∈ names.head?, ¬s.IsMarked) :
    ofText (absolute texts) = ⟨[rootMarker], joined names⟩ :=
  ofText_append (fun _ hc => .inl (List.mem_singleton.1 hc)) h hplain hmarked

end Path
end Acpi
