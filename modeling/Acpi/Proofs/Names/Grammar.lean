/-
# The grammar of paths

A text is a leading run of markers and, behind it, pieces with dots between them.
Reading it keeps the markers and puts the pieces one after another, each with the
fewest underscores behind it that make whole segments (`Path.FilledUp`).  The same
bytes come out of one pass that knows of no pieces: at a dot, and at the end, it fills
up everything it has so far, however it came about (`Path.put`).  So every path of
whole segments is a list of names, and a path that can be written is read from its
text again (`Path.ofText_grammar`).

A dot also divides a text.  What stands before it and what stands behind it can be
read apart, unless the latter begins with a marker (`Path.LedByMarker`), which is a
marker there and a byte of a name in the whole text (`Path.ofText_dot`).
-/

import Acpi.Proofs.Names.Spelling
import Mathlib.Data.List.TakeWhile

namespace Acpi

namespace Text

/-- An ASCII byte at the beginning of a character is the whole of it. -/
theorem toNat_eq_of_utf8EncodeChar {c : Char} {b : UInt8} {rest : List UInt8}
    (h : String.utf8EncodeChar c = b :: rest) (hb : b < 0x80) : c.toNat = b.toNat := by
  have hb : b.toNat < 0x80 := hb
  rw [String.utf8EncodeChar] at h
  split at h
  · rename_i hle
    rw [← (List.cons.inj h).1, UInt8.toNat_ofNat']
    exact (Nat.mod_eq_of_lt (Nat.lt_of_le_of_lt hle (by decide))).symm
  · -- the first of several bytes is not ASCII
    refine absurd hb ?_
    split at h
    · rw [← (List.cons.inj h).1, UInt8.toNat_ofNat']
      omega
    · split at h
      all_goals
        rw [← (List.cons.inj h).1, UInt8.toNat_ofNat']
        omega

end Text

namespace Path

variable {u v piece whole : List UInt8} {b : UInt8} {text : String}

/-! ### Filling up -/

/-- `whole` is `piece` with the fewest underscores behind it that make whole
segments. -/
def FilledUp (piece whole : List UInt8) : Prop :=
  ∃ n, whole = piece ++ List.replicate n filler ∧ 4 ∣ whole.length ∧
    ∀ m, 4 ∣ (piece ++ List.replicate m filler).length → n ≤ m

/-- Filling a piece up takes as few underscores as possible. -/
theorem filledUp_complete (piece : List UInt8) : FilledUp piece (complete piece) := by
  refine ⟨(4 - piece.length % 4) % 4, rfl, ?_, fun m hm => ?_⟩
  · rw [complete, padding, List.length_append, List.length_replicate]
    omega
  · rw [List.length_append, List.length_replicate] at hm
    omega

/-- There is one way to fill a piece up. -/
theorem FilledUp.eq_complete (h : FilledUp piece whole) : whole = complete piece := by
  obtain ⟨n, rfl, hwhole, hfewest⟩ := h
  obtain ⟨k, hk, hwhole', hfewest'⟩ := filledUp_complete piece
  rw [hk] at hwhole' ⊢
  rw [Nat.le_antisymm (hfewest k hwhole') (hfewest' n hwhole)]

theorem dvd_length_complete (piece : List UInt8) : 4 ∣ (complete piece).length := by
  obtain ⟨-, -, hwhole, -⟩ := filledUp_complete piece
  exact hwhole

/-- What a text spells consists of whole segments. -/
theorem dvd_length_spell (v : List UInt8) : 4 ∣ (spell 0 v).length := by
  rw [spell_eq]
  induction v.splitOn separator with
  | nil => exact Nat.dvd_zero 4
  | cons piece pieces ih =>
    rw [List.flatMap_cons, List.length_append]
    exact Nat.dvd_add (dvd_length_complete piece) ih

/-- The value of a path consists of whole segments. -/
theorem dvd_length_value (text : String) : 4 ∣ (ofText text).value.length :=
  dvd_length_spell _

/-! ### In one pass -/

/-- One byte more: a dot fills up what is done, any other byte is put behind it. -/
def put (done : List UInt8) (b : UInt8) : List UInt8 :=
  if b = separator then complete done else done ++ [b]

/-- What is done counts only by how far its last segment has come, which is all that
reading keeps of it. -/
theorem complete_foldl_put (done v : List UInt8) :
    complete (v.foldl put done) = done ++ spell (done.length % 4) v := by
  induction v generalizing done with
  | nil => rfl
  | cons b v ih =>
    rw [List.foldl_cons, ih, put, spell]
    split
    · have hwhole := Nat.mod_eq_zero_of_dvd (dvd_length_complete done)
      rw [hwhole, complete, List.append_assoc]
    · rw [List.length_append, List.length_singleton, Nat.mod_add_mod, List.append_assoc,
        List.singleton_append]

/-! ### Markers -/

/-- A text that begins with a marker. -/
def LedByMarker (text : String) : Prop := ∃ c ∈ text.toList.head?, c = '\\' ∨ c = '^'

/-- A run of markers at the beginning is at most what the path keeps of them. -/
theorem prefix_takeWhile_isMarker {run : List UInt8} (h : run <+: v)
    (hrun : ∀ b ∈ run, isMarker b = true) : run <+: v.takeWhile isMarker := by
  obtain ⟨rest, rfl⟩ := h
  rw [List.takeWhile_append_of_pos hrun]
  exact List.prefix_append ..

theorem takeWhile_append_cons (hb : isMarker b = false) :
    (u ++ b :: v).takeWhile isMarker = u.takeWhile isMarker := by
  induction u with
  | nil => exact List.takeWhile_cons_of_neg (by simp [hb])
  | cons c u ih => rw [List.cons_append, List.takeWhile_cons, List.takeWhile_cons, ih]

theorem dropWhile_append_cons (hb : isMarker b = false) :
    (u ++ b :: v).dropWhile isMarker = u.dropWhile isMarker ++ b :: v := by
  induction u with
  | nil => exact List.dropWhile_cons_of_neg (by simp [hb])
  | cons c u ih =>
    rw [List.cons_append, List.dropWhile_cons, List.dropWhile_cons, ih]
    split <;> rfl

/-- Whether a text begins with a marker can be seen from its first byte. -/
theorem ledByMarker_of_isMarker {rest : List UInt8} (h : Text.utf8 text = b :: rest)
    (hb : isMarker b = true) : LedByMarker text := by
  have hmarker : b = rootMarker ∨ b = parentMarker := by simpa [isMarker] using hb
  cases hchars : text.toList with
  | nil =>
    rw [Text.utf8, hchars] at h
    cases h
  | cons c chars =>
    refine ⟨c, by rw [hchars, List.head?_cons, Option.mem_def], ?_⟩
    rw [Text.utf8, hchars, List.flatMap_cons] at h
    cases hc : String.utf8EncodeChar c with
    | nil => exact absurd hc String.utf8EncodeChar_ne_nil
    | cons first others =>
      rw [hc] at h
      obtain rfl := (List.cons.inj h).1
      rcases hmarker with rfl | rfl
      · exact .inl (Char.toNat_inj.1 (Text.toNat_eq_of_utf8EncodeChar hc (by decide)))
      · exact .inr (Char.toNat_inj.1 (Text.toNat_eq_of_utf8EncodeChar hc (by decide)))

theorem ofText_of_not_ledByMarker (h : ¬LedByMarker text) :
    ofText text = ⟨[], spell 0 (Text.utf8 text)⟩ := by
  rw [ofText, ofBytes]
  cases htext : Text.utf8 text with
  | nil => rfl
  | cons b rest =>
    have hb : ¬isMarker b = true := fun hb => h (ledByMarker_of_isMarker htext hb)
    rw [List.takeWhile_cons_of_neg hb, List.dropWhile_cons_of_neg hb]

/-! ### Two texts with a dot between them -/

theorem spell_dot (u v : List UInt8) : spell 0 (u ++ separator :: v) = spell 0 u ++ spell 0 v := by
  rw [spell_eq, spell_eq, spell_eq, List.splitOn_append_cons_self, List.flatMap_append]

/-- **A dot divides a text**: the markers are those before it, and the names behind it
follow those before it. -/
theorem ofText_dot (before : String) {behind : String} (h : ¬LedByMarker behind) :
    ofText (before ++ "." ++ behind) =
      ⟨(ofText before).markers, (ofText before).value ++ (ofText behind).value⟩ := by
  have hbytes : Text.utf8 (before ++ "." ++ behind) =
      Text.utf8 before ++ separator :: Text.utf8 behind := by
    rw [Text.utf8_append, Text.utf8_append, List.append_assoc]
    rfl
  have hdot : isMarker separator = false := rfl
  rw [ofText, ofBytes, hbytes, takeWhile_append_cons hdot, dropWhile_append_cons hdot, spell_dot,
    ofText_of_not_ledByMarker h]
  rfl

/-! ### The grammar -/

/-- **Paths are read by their grammar.**  The markers of a text are its longest run of
backslashes and carets from the beginning.  What remains is divided at its dots; every
piece is filled up with the fewest underscores that make whole segments, an empty one
with none, and these are the names, one after another.  One pass that fills up whatever
it has at every dot does the same.  There are always whole segments, and the segments
of the path are all of them.  Whatever markers are put before names that a path can
carry, with dots between them, the path that is read has these markers and these
names. -/
theorem ofText_grammar :
    (∀ text, ∃ rest, Text.utf8 text = (ofText text).markers ++ rest ∧
      (∀ b ∈ (ofText text).markers, b = rootMarker ∨ b = parentMarker) ∧
      (∀ run, run <+: Text.utf8 text → (∀ b ∈ run, b = rootMarker ∨ b = parentMarker) →
        run <+: (ofText text).markers) ∧
      (∃ wholes, List.Forall₂ FilledUp (rest.splitOn separator) wholes ∧
        (ofText text).value = wholes.flatten) ∧
      (ofText text).value = complete (rest.foldl put []) ∧
      4 ∣ (ofText text).value.length ∧ joined (ofText text).segments = (ofText text).value) ∧
    (∀ piece, ∃! whole, FilledUp piece whole) ∧ (∀ whole, FilledUp [] whole → whole = []) ∧
    ∀ lead names, (∀ c ∈ lead.toList, c = '\\' ∨ c = '^') → (∀ s ∈ names, s.IsPlain) →
      (∀ s ∈ names.head?, ¬s.IsMarked) →
      (ofText (lead ++ ".".intercalate (names.map Segment.text))).markers = Text.utf8 lead ∧
      (ofText (lead ++ ".".intercalate (names.map Segment.text))).segments = names := by
  have hmarker (b : UInt8) : isMarker b = true ↔ b = rootMarker ∨ b = parentMarker := by
    simp [isMarker]
  refine ⟨fun text => ⟨(Text.utf8 text).dropWhile isMarker, List.takeWhile_append_dropWhile.symm,
    fun b hb => ?_, fun run hrun hall => ?_, ⟨_, ?_, spell_eq _⟩, ?_, dvd_length_value text,
    joined_segmentsOf (dvd_length_value text)⟩, fun piece => ?_, fun whole hwhole => ?_,
    fun lead names hlead hplain hmarked => ?_⟩
  · exact (hmarker b).1 (List.mem_takeWhile_imp hb)
  · exact prefix_takeWhile_isMarker hrun fun b hb => (hmarker b).2 (hall b hb)
  · exact List.forall₂_map_right_iff.2 (List.forall₂_same.2 fun piece _ => filledUp_complete piece)
  · exact (complete_foldl_put [] _).symm
  · exact ⟨complete piece, filledUp_complete piece, fun whole hwhole => hwhole.eq_complete⟩
  · exact hwhole.eq_complete
  · have hwritten : List.Forall₂ Segment.WrittenAs names (names.map Segment.text) :=
      List.forall₂_map_right_iff.2
        (List.forall₂_same.2 fun name hname => (hplain name hname).writtenAs_text)
    rw [ofText_append hlead hwritten hplain hmarked, segments]
    exact ⟨rfl, segmentsOf_joined names⟩

/-- A caret and a backslash before the names of a bridge. -/
theorem ofText_grammar_bridge :
    (∀ c ∈ "^\\".toList, c = '\\' ∨ c = '^') ∧
      (∀ s ∈ [(⟨0x5F, 0x53, 0x42, 0x5F⟩ : Segment), ⟨0x50, 0x43, 0x49, 0x30⟩], s.IsPlain) ∧
      ¬(⟨0x5F, 0x53, 0x42, 0x5F⟩ : Segment).IsMarked ∧
      (ofText "^\\_SB_.PCI0").markers = Text.utf8 "^\\" ∧
      (ofText "^\\_SB_.PCI0").segments = [⟨0x5F, 0x53, 0x42, 0x5F⟩, ⟨0x50, 0x43, 0x49, 0x30⟩] := by
  have hlead : ∀ c ∈ "^\\".toList, c = '\\' ∨ c = '^' := by simp
  have hplain : ∀ s ∈ [(⟨0x5F, 0x53, 0x42, 0x5F⟩ : Segment), ⟨0x50, 0x43, 0x49, 0x30⟩],
      s.IsPlain := by
    decide +kernel
  have hmarked : ¬(⟨0x5F, 0x53, 0x42, 0x5F⟩ : Segment).IsMarked := by decide +kernel
  have htext : "^\\_SB_.PCI0" = "^\\" ++ ".".intercalate
      ([(⟨0x5F, 0x53, 0x42, 0x5F⟩ : Segment), ⟨0x50, 0x43, 0x49, 0x30⟩].map Segment.text) := by
    decide +kernel
  obtain ⟨-, -, -, hread⟩ := ofText_grammar
  rw [htext]
  exact ⟨hlead, hplain, hmarked, hread _ _ hlead hplain fun s hs => Option.some.inj hs ▸ hmarked⟩

end Path
end Acpi
