import Yeast.Proofs.ByteRecords

set_option autoImplicit false

/-! # No decoding moves the end of a record

The records of a text are the records of its bytes, one for one, each decoded by itself
(`Charset.records_read`), and of each the characters of ASCII are its bytes below 0x80
(`Bytes.sameRecords`). The ends of records are line feeds in the bytes and in the text, and which
piece behind the last line feed is empty is the same question in both, since no decoding makes a
text without characters of bytes that are there (`Charset.read_eq_nil_iff`).
-/

namespace Yeast

/-- The pieces without the last one, if that is empty. -/
def withoutEmptyLast {α : Type} (pieces : List (List α)) : List (List α) :=
  match pieces.getLast? with
  | some [] => pieces.dropLast
  | _ => pieces

/-- The records of the bytes: the pieces between line feeds, an empty one at the end not counted. -/
def Bytes.records (raw : Bytes) : List Bytes := withoutEmptyLast (raw.splitOn lineFeed)

/-- The text of the bytes has the same records as they have. -/
structure Bytes.SameRecords (raw : Bytes) : Prop where
  /-- The characters of ASCII are the bytes below 0x80. -/
  ascii : (Text.ofBytes raw).filter isAscii = (raw.filter isPlain).map charOf
  length : (Text.ofBytes raw).records.length = raw.records.length
  /-- So they are in each record. -/
  record : ∀ (k : Nat) (record : Text) (piece : Bytes), (Text.ofBytes raw).records[k]? =
    some record → raw.records[k]? = some piece →
      record.filter isAscii = (piece.filter isPlain).map charOf

/-! ## Pieces -/

theorem withoutEmptyLast_cons {α : Type} (piece : List α) {pieces : List (List α)}
    (h : pieces ≠ []) : withoutEmptyLast (piece :: pieces) = piece :: withoutEmptyLast pieces := by
  obtain ⟨next, more, rfl⟩ := List.exists_cons_of_ne_nil h
  unfold withoutEmptyLast
  rw [List.getLast?_cons_cons]
  split <;> rfl

/-- Whether the last piece is empty can be asked of its image, if no other piece has an empty
one. -/
theorem withoutEmptyLast_map {α β : Type} {f : List α → List β} (hf : ∀ l, f l = [] ↔ l = [])
    (pieces : List (List α)) :
    withoutEmptyLast (pieces.map f) = (withoutEmptyLast pieces).map f := by
  unfold withoutEmptyLast
  rw [List.getLast?_map]
  cases pieces.getLast? with
  | none => rfl
  | some last =>
      cases last with
      | nil => rw [Option.map_some, (hf []).mpr rfl, List.map_dropLast]
      | cons a last =>
          obtain ⟨b, image, himage⟩ := List.exists_cons_of_ne_nil
            fun h => absurd ((hf (a :: last)).mp h) (List.cons_ne_nil a last)
          rw [Option.map_some, himage]

/-- The records of a text are its pieces between line feeds. -/
theorem Text.records_eq (text : Text) : text.records = withoutEmptyLast (text.splitOn '\n') := by
  induction text with
  | nil => rfl
  | cons c text ih =>
      rw [records, List.splitOn_cons_eq_if_modifyHead]
      by_cases hc : c = '\n'
      · rw [if_pos hc, if_pos (by simp [hc]), withoutEmptyLast_cons _ (List.splitOn_ne_nil _ _), ih]
      · rw [if_neg hc, if_neg (by simpa using hc), ih]
        obtain ⟨piece, pieces, hpieces⟩ :=
          List.exists_cons_of_ne_nil (List.splitOn_ne_nil '\n' text)
        rw [hpieces, List.modifyHead_cons]
        cases pieces with
        | nil => cases piece <;> rfl
        | cons next more =>
            rw [withoutEmptyLast_cons _ (List.cons_ne_nil _ _),
              withoutEmptyLast_cons _ (List.cons_ne_nil _ _)]

/-! ## Decoded pieces -/

namespace Utf8

/-- Reading a byte yields something, or leaves a character to be completed. -/
theorem step_ne (state : Option Pending) (b : UInt8) :
    (step state b).1 ≠ [] ∨ (step state b).2 ≠ none := by
  cases state with
  | none =>
      have hlength := length_first b
      by_contra h
      rw [not_or, not_not, not_not] at h
      rw [← show step none b = first b from rfl, h.1, h.2] at hlength
      simp at hlength
  | some p =>
      rw [step]
      split_ifs
      · unfold next
        split_ifs <;> simp
      · simp

theorem readFrom_eq_nil_iff (state : Option Pending) (bytes : Bytes) :
    readFrom state bytes = [] ↔ state = none ∧ bytes = [] := by
  induction bytes generalizing state with
  | nil => cases state <;> simp [readFrom]
  | cons b bytes ih =>
      rw [readFrom, List.append_eq_nil_iff, ih]
      have hstep := step_ne state b
      constructor
      · rintro ⟨hnil, hnone, -⟩
        exact (hstep.elim (fun h => h hnil) fun h => h hnone).elim
      · rintro ⟨-, h⟩
        simp at h

end Utf8

namespace Charset

theorem read_eq_nil_iff (charset : Charset) (bytes : Bytes) :
    charset.read bytes = [] ↔ bytes = [] := by
  cases charset with
  | utf8 =>
      rw [read, Utf8.decodeReplacing, Utf8.read, List.map_eq_nil_iff, Utf8.readFrom_eq_nil_iff]
      simp
  | windows1252 => rw [read, List.map_eq_nil_iff]

/-- Bytes and text are parted by the same line feeds. -/
theorem splitOn_read (charset : Charset) (raw : Bytes) :
    (charset.read raw).splitOn '\n' = (raw.splitOn Bytes.lineFeed).map charset.read := by
  induction hn : raw.length using Nat.strongRecOn generalizing raw with
  | ind n ih =>
      by_cases hmem : Bytes.lineFeed ∈ raw
      · obtain ⟨piece, rest, rfl, hpiece⟩ := List.eq_append_cons_of_mem hmem
        have hread : charset.read (piece ++ Bytes.lineFeed :: rest) =
            charset.read piece ++ '\n' :: charset.read rest :=
          charset.read_append_cons piece (by decide) rest
        have hrest : rest.length < n := by
          rw [List.length_append, List.length_cons] at hn
          omega
        have hfree : '\n' ∉ charset.read piece := by
          rw [← List.count_eq_zero, Bytes.count_read, List.count_eq_zero]
          exact hpiece
        rw [hread, List.splitOn_append_cons_self_of_not_mem hfree,
          List.splitOn_append_cons_self_of_not_mem hpiece, ih _ hrest rest rfl, List.map_cons]
      · have hfree : '\n' ∉ charset.read raw := by
          rw [← List.count_eq_zero, Bytes.count_read, List.count_eq_zero]
          exact hmem
        rw [List.splitOn_eq_singleton hfree, List.splitOn_eq_singleton hmem, List.map_singleton]

/-- **The records of the text are the records of the bytes**, each decoded by itself. -/
theorem records_read (charset : Charset) (raw : Bytes) :
    (charset.read raw).records = raw.records.map charset.read := by
  rw [Text.records_eq, charset.splitOn_read, withoutEmptyLast_map charset.read_eq_nil_iff,
    Bytes.records]

end Charset

/-- **No decoding moves the end of a record**, and none makes or loses a character of ASCII. -/
theorem Bytes.sameRecords (raw : Bytes) : raw.SameRecords := by
  have hrecords := (Charset.ofBytes raw).records_read raw
  rw [Charset.read_ofBytes] at hrecords
  refine ⟨?_, ?_, fun k record piece hrecord hpiece => ?_⟩
  · rw [← Charset.read_ofBytes, Charset.filter_read]
  · rw [hrecords, List.length_map]
  · rw [hrecords, List.getElem?_map, hpiece] at hrecord
    obtain rfl := Option.some.inj hrecord
    exact (Charset.ofBytes raw).filter_read piece

/-- A sequence that is broken off by a line feed, and a surrogate before one. -/
example : (Text.ofBytes [0x61, 0xE2, 0x82, 0x0A, 0x0A, 0x81, 0xED, 0xA0, 0x0A]).records =
    [['a', '\uFFFD'], [], ['\uFFFD', '\uFFFD', '\uFFFD']] := by decide

end Yeast
