import Mathlib.Data.List.Count
import Yeast.Proofs.Decoding
import Yeast.Proofs.Legal

set_option autoImplicit false

/-! # Records of bytes

The lines of a stream are the records of its bytes, each read on its own: no decoding moves the end
of a record (`Charset.read_append_cons`), and a byte order mark is deleted from the first record
alone. So the number of a line is told by the line feeds before its record in the bytes
(`length_lines`), and bytes that are no legal stream have a first record that is to blame
(`exists_firstIllegal`), which is the one that reading blames (`FirstIllegal.ofLines`).
-/

namespace Yeast

/-! ## Records of a text -/

namespace Text

theorem pieces_ne_nil (parts : Char → Bool) (text : Text) : text.pieces parts ≠ [] := by
  induction text with
  | nil => simp [pieces]
  | cons c text ih =>
      rw [pieces]
      split_ifs
      · simp
      · intro hnil
        exact ih (List.modifyHead_eq_nil_iff.mp hnil)

/-- Before a line feed each line feed parts two records. -/
theorem records_append (text rest : Text) :
    (text ++ '\n' :: rest).records = text.pieces (· == '\n') ++ rest.records := by
  induction text with
  | nil => simp [pieces]
  | cons c text ih =>
      rw [List.cons_append, records, pieces, ih]
      by_cases hc : c = '\n'
      · rw [if_pos hc, if_pos (by simp [hc]), List.cons_append]
      · rw [if_neg hc, if_neg (by simp [hc])]
        obtain ⟨piece, pieces, hpieces⟩ :=
          List.exists_cons_of_ne_nil (pieces_ne_nil (· == '\n') text)
        rw [hpieces]
        rfl

theorem length_pieces (text : Text) : (text.pieces (· == '\n')).length = text.count '\n' + 1 := by
  induction text with
  | nil => rfl
  | cons c text ih =>
      rw [pieces]
      by_cases hc : c = '\n'
      · rw [if_pos (by simp [hc]), hc, List.length_cons, ih, List.count_cons_self]
      · rw [if_neg (by simp [hc]), List.length_modifyHead, ih, List.count_cons_of_ne hc]

/-- The end of a stream ends a record, or nothing. -/
theorem length_records_le (text : Text) : text.records.length ≤ text.count '\n' + 1 := by
  induction text with
  | nil => simp
  | cons c text ih =>
      rw [records]
      by_cases hc : c = '\n'
      · rw [if_pos hc, hc, List.length_cons, List.count_cons_self]
        omega
      · rw [if_neg hc, List.count_cons_of_ne hc]
        cases hrecords : records text with
        | nil => simp
        | cons record others => simpa [hrecords] using ih

theorem length_records_le_length (text : Text) : text.records.length ≤ text.length := by
  induction text with
  | nil => simp
  | cons c text ih =>
      rw [records, List.length_cons]
      split_ifs
      · exact Nat.succ_le_succ ih
      · cases hrecords : records text with
        | nil => simp
        | cons record others =>
            rw [hrecords] at ih
            exact Nat.le_succ_of_le ih

theorem withoutByteOrderMark_append (text rest : Text) :
    withoutByteOrderMark (text ++ '\n' :: rest) = text.withoutByteOrderMark ++ '\n' :: rest := by
  cases text with
  | nil => rfl
  | cons c text =>
      rw [List.cons_append, withoutByteOrderMark, withoutByteOrderMark]
      split_ifs <;> rfl

theorem count_withoutByteOrderMark (text : Text) :
    text.withoutByteOrderMark.count '\n' = text.count '\n' := by
  cases text with
  | nil => rfl
  | cons c text =>
      rw [withoutByteOrderMark]
      split_ifs with hc
      · rw [hc, List.count_cons_of_ne (by decide)]
      · rfl

end Text

namespace Bytes

def lineFeed : UInt8 := 0x0A

theorem charOf_injective {b b' : UInt8} (h : charOf b = charOf b') : b = b' := by
  have hnat := congrArg Char.toNat h
  rw [toNat_charOf, toNat_charOf] at hnat
  exact UInt8.toNat_inj.mp hnat

/-- No decoding makes or loses a line feed. -/
theorem count_read (charset : Charset) (bytes : Bytes) :
    (charset.read bytes).count '\n' = bytes.count lineFeed := by
  have hascii : isAscii '\n' = true := by decide
  have hplain : isPlain lineFeed = true := by decide
  rw [← List.count_filter hascii, charset.filter_read, ← List.count_filter hplain]
  show List.count (charOf lineFeed) _ = _
  exact List.count_map_of_injective _ _ (fun _ _ => charOf_injective) lineFeed

def lines (charset : Charset) (bytes : Bytes) : List Text :=
  (charset.read bytes).withoutByteOrderMark.records

theorem lines_append (charset : Charset) (bytes rest : Bytes) :
    lines charset (bytes ++ lineFeed :: rest) =
      lines charset (bytes ++ [lineFeed]) ++ (charset.read rest).records := by
  have hread : ∀ rest, charset.read (bytes ++ lineFeed :: rest) =
      charset.read bytes ++ '\n' :: charset.read rest :=
    charset.read_append_cons bytes (by decide)
  rw [lines, lines, hread, hread, Text.withoutByteOrderMark_append,
    Text.withoutByteOrderMark_append, Text.records_append, Text.records_append]
  simp

/-- Whole records make as many lines as there are line feeds. -/
theorem length_lines (charset : Charset) (bytes : Bytes) :
    (lines charset (bytes ++ [lineFeed])).length = (bytes ++ [lineFeed]).count lineFeed := by
  have hread : charset.read (bytes ++ [lineFeed]) = charset.read bytes ++ ['\n'] :=
    (charset.read_append_cons bytes (by decide) []).trans (by simp [charOf, lineFeed])
  rw [lines, hread, Text.withoutByteOrderMark_append, Text.records_append, Text.records_nil,
    List.append_nil, Text.length_pieces, Text.count_withoutByteOrderMark, count_read,
    List.count_append]
  simp

/-- There are at most as many lines as bytes. -/
theorem length_lines_le (charset : Charset) (bytes : Bytes) :
    (lines charset bytes).length ≤ bytes.length := by
  have hread := charset.length_read_le bytes
  have hmark : (charset.read bytes).withoutByteOrderMark.length ≤ (charset.read bytes).length := by
    cases charset.read bytes with
    | nil => exact Nat.le_refl _
    | cons c text =>
        rw [Text.withoutByteOrderMark]
        split_ifs <;> simp
  exact (Text.length_records_le_length _).trans (hmark.trans hread)

/-- A record and its line feed, or a record behind which there is none, make at most one line. -/
theorem length_records_le_one {text : Text} (h : text.count '\n' = 0 ∨
    ∃ record : Text, text = record ++ ['\n'] ∧ record.count '\n' = 0) :
    text.records.length ≤ 1 := by
  rcases h with h | ⟨record, rfl, h⟩
  · have := text.length_records_le
    omega
  · rw [Text.records_append, Text.records_nil, List.append_nil, Text.length_pieces]
    omega

/-- The bytes are whole records, one more record with its line feed or up to the end, and what
follows. -/
structure Parted (raw before record after : Bytes) : Prop where
  whole : raw = before ++ record ++ after
  begins : before = [] ∨ ∃ outer, before = outer ++ [lineFeed]
  ends : (∃ piece, record = piece ++ [lineFeed] ∧ lineFeed ∉ piece) ∨
    lineFeed ∉ record ∧ after = []

/-- The first record that makes the bytes illegal, and the records before it. -/
structure FirstIllegal (raw before record : Bytes) : Prop where
  parted : ∃ after, Parted raw before record after
  legal : Stream.Legal (lines (.ofBytes raw) before)
  illegal : ¬ Stream.Legal (lines (.ofBytes raw) (before ++ record))

namespace Parted

variable {raw before record after : Bytes}

/-- The lines of whole records are as many as their line feeds. -/
theorem length_before (h : Parted raw before record after) (charset : Charset) :
    (lines charset before).length = before.count lineFeed := by
  rcases h.begins with rfl | ⟨outer, rfl⟩
  · simp [lines, Text.withoutByteOrderMark]
  · exact length_lines charset outer

/-- What follows a record makes more lines behind it. -/
theorem lines_after (h : Parted raw before record after) (charset : Charset) :
    ∃ more, lines charset raw = lines charset (before ++ record) ++ more := by
  rcases h.ends with ⟨piece, rfl, -⟩ | ⟨-, rfl⟩
  · refine ⟨(charset.read after).records, ?_⟩
    have hlines := lines_append charset (before ++ piece) after
    rw [List.append_assoc, List.append_assoc] at hlines
    rw [h.whole, List.append_assoc, List.append_assoc, List.singleton_append]
    exact hlines
  · exact ⟨[], by rw [h.whole, List.append_nil, List.append_nil]⟩

/-- A record makes one line behind those before it, or none. -/
theorem lines_record (h : Parted raw before record after) (charset : Charset) :
    ∃ more, lines charset (before ++ record) = lines charset before ++ more ∧
      more.length ≤ 1 := by
  have htext : (charset.read record).count '\n' = 0 ∨
      ∃ text : Text, charset.read record = text ++ ['\n'] ∧ text.count '\n' = 0 := by
    rcases h.ends with ⟨piece, rfl, hpiece⟩ | ⟨hrecord, -⟩
    · refine Or.inr ⟨charset.read piece, ?_, ?_⟩
      · exact (charset.read_append_cons piece (by decide) []).trans (by simp [charOf, lineFeed])
      · rw [count_read, List.count_eq_zero_of_not_mem hpiece]
    · exact Or.inl (by rw [count_read, List.count_eq_zero_of_not_mem hrecord])
  -- A byte order mark can be dropped only from the first record.
  rcases h.begins with rfl | ⟨outer, rfl⟩
  · refine ⟨lines charset record, by simp [lines, Text.withoutByteOrderMark], ?_⟩
    refine length_records_le_one ?_
    rcases htext with htext | ⟨text, htext, hcount⟩
    · exact Or.inl (by rw [Text.count_withoutByteOrderMark, htext])
    · refine Or.inr ⟨text.withoutByteOrderMark, ?_, ?_⟩
      · rw [htext, Text.withoutByteOrderMark_append]
      · rw [Text.count_withoutByteOrderMark, hcount]
  · refine ⟨(charset.read record).records, ?_, length_records_le_one htext⟩
    rw [List.append_assoc, List.singleton_append, lines_append]

end Parted

/-- Bytes that go on begin with a record. -/
theorem exists_record {rest : Bytes} (h : rest ≠ []) :
    ∃ record after, rest = record ++ after ∧ record ≠ [] ∧
      ((∃ piece, record = piece ++ [lineFeed] ∧ lineFeed ∉ piece) ∨
        lineFeed ∉ record ∧ after = []) := by
  by_cases hmem : lineFeed ∈ rest
  · obtain ⟨piece, after, rfl, hpiece⟩ := List.eq_append_cons_of_mem hmem
    exact ⟨piece ++ [lineFeed], after, by simp, by simp, Or.inl ⟨piece, rfl, hpiece⟩⟩
  · exact ⟨rest, [], by simp, h, Or.inr ⟨hmem, rfl⟩⟩

/-- Behind whole records that are legal, the first record that is not is found. -/
theorem exists_illegal_record (charset : Charset) {before rest : Bytes}
    (hbegins : before = [] ∨ ∃ outer, before = outer ++ [lineFeed])
    (hlegal : Stream.Legal (lines charset before))
    (hillegal : ¬ Stream.Legal (lines charset (before ++ rest))) :
    ∃ before' record after, Parted (before ++ rest) before' record after ∧
      Stream.Legal (lines charset before') ∧
        ¬ Stream.Legal (lines charset (before' ++ record)) := by
  -- The records are looked at from left to right.
  induction hlength : rest.length using Nat.strongRecOn generalizing before rest with
  | ind n ih =>
      have hrest : rest ≠ [] := by
        rintro rfl
        rw [List.append_nil] at hillegal
        exact hillegal hlegal
      obtain ⟨record, after, rfl, hne, hends⟩ := exists_record hrest
      by_cases hrecord : Stream.Legal (lines charset (before ++ record))
      · rcases hends with ⟨piece, rfl, -⟩ | ⟨-, rfl⟩
        · rw [← List.append_assoc] at hillegal ⊢
          refine ih after.length ?_ (Or.inr ⟨before ++ piece, ?_⟩) hrecord hillegal rfl
          · simp only [List.length_append, List.length_singleton] at hlength
            omega
          · rw [List.append_assoc]
        · rw [List.append_nil] at hillegal
          exact absurd hrecord hillegal
      · refine ⟨before, record, after, ⟨?_, hbegins, hends⟩, hlegal, hrecord⟩
        rw [List.append_assoc]

/-- **Bytes that are no legal stream have a first record that is to blame.** -/
theorem exists_firstIllegal {raw : Bytes} (h : ¬ Stream.Legal (lines (.ofBytes raw) raw)) :
    ∃ before record, FirstIllegal raw before record := by
  have hnil : Stream.Legal (lines (.ofBytes raw) []) := by
    simpa [lines, Text.withoutByteOrderMark] using Stream.Legal.nil
  obtain ⟨before, record, after, hparted, hlegal, hillegal⟩ :=
    exists_illegal_record (.ofBytes raw) (Or.inl rfl) hnil h
  exact ⟨before, record, ⟨after, hparted⟩, hlegal, hillegal⟩

/-- Reading blames the line of that number. -/
theorem FirstIllegal.ofLines {raw before record : Bytes} (h : FirstIllegal raw before record) :
    ∃ line fault, Model.ofLines (lines (.ofBytes raw) raw) = .error fault ∧
      Stream.Blames (lines (.ofBytes raw) before) line (before.count lineFeed + 1) fault := by
  obtain ⟨after, hparted⟩ := h.parted
  obtain ⟨last, hlast, hlength⟩ := hparted.lines_record (.ofBytes raw)
  obtain ⟨more, hmore⟩ := hparted.lines_after (.ofBytes raw)
  have hillegal := h.illegal
  cases last with
  | nil =>
      rw [hlast, List.append_nil] at hillegal
      exact absurd h.legal hillegal
  | cons line last =>
      obtain rfl : last = [] := List.eq_nil_of_length_eq_zero (by
        rw [List.length_cons] at hlength
        omega)
      rw [hlast] at hillegal hmore
      obtain ⟨fault, b, hrun, hblame⟩ := Stream.feedAll_run_of_illegal h.legal hillegal more
      refine ⟨line, fault, ?_, ?_⟩
      · rw [Model.ofLines, hmore, List.append_assoc, List.singleton_append, hrun]
      · rwa [hparted.length_before] at hblame

end Bytes

end Yeast
