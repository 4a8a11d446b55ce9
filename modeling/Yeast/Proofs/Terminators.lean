import Mathlib.Tactic.Common
import Yeast.Model.Builder

set_option autoImplicit false

/-! # What ends a line

Whatever ends the lines of a stream, the model is that of the bare records, and so is the fault
(`Stream.terminators_immaterial`). Two operations share the work. Cutting a text into records takes
away the line feeds (`Text.records_joined`), and reading a line takes away what else ends it
(`Line.withoutTerminator_text`); a carriage return before a line feed is left to the second by the
first. A reader looks at nothing of a line but what is left then (`Builder.feedAll_congr`).

No other character parts or ends anything: the records and their line feeds are the text
(`Text.ofRows_records`), and a line is what is left of it and one of four ends
(`Text.exists_lineEnd`).
-/

namespace Yeast

/-- What may stand at the end of a line. -/
inductive LineEnd where
  | nothing
  | lineFeed
  | carriageReturn
  | carriageReturnLineFeed
  deriving DecidableEq

namespace LineEnd

def text : LineEnd → Text
  | nothing => []
  | lineFeed => ['\n']
  | carriageReturn => ['\r']
  | carriageReturnLineFeed => ['\r', '\n']

/-- Another record may follow behind it in a stream. -/
def EndsRecord (e : LineEnd) : Prop := e = lineFeed ∨ e = carriageReturnLineFeed

end LineEnd

/-- A record and what ends its line. -/
structure Line where
  record : Text
  ending : LineEnd

namespace Line

def text (line : Line) : Text := line.record ++ line.ending.text

/-- The record cannot be mistaken for more than one, nor its last character for an end. -/
structure Plain (line : Line) : Prop where
  lineFeed : '\n' ∉ line.record
  carriageReturn : line.record.getLast? ≠ some '\r'

/-- The last character of the record cannot be mistaken for an end. -/
structure Unended (line : Line) : Prop where
  lineFeed : line.record.getLast? ≠ some '\n'
  carriageReturn : line.record.getLast? ≠ some '\r'

def joined (lines : List Line) : Text := lines.flatMap text

theorem Plain.unended {line : Line} (h : line.Plain) : line.Unended :=
  ⟨fun hlast => h.lineFeed (List.mem_of_getLast? hlast), h.carriageReturn⟩

end Line

/-- Lines that make a stream: each but the last is ended, and so is the last if its record is
empty. -/
inductive Stream.Joinable : List Line → Prop
  | nil : Joinable []
  | last {line : Line} : line.Plain → line.ending = .nothing → line.record ≠ [] → Joinable [line]
  | cons {line : Line} {lines : List Line} : line.Plain → line.ending.EndsRecord →
      Joinable lines → Joinable (line :: lines)

/-! ## Ends of lines -/

namespace Text

/-- The first of several characters is no end, unless they are CR LF. -/
theorem withoutTerminator_cons {c : Char} {rest : Text} (hrest : rest ≠ [])
    (hboth : c = '\r' → rest ≠ ['\n']) :
    withoutTerminator (c :: rest) = c :: withoutTerminator rest := by
  rw [withoutTerminator]
  · exact fun hc h => hboth hc h
  · exact fun _ h => hrest h
  · exact fun _ h => hrest h

theorem withoutTerminator_append_lineEnd {record : Text} (hlf : record.getLast? ≠ some '\n')
    (hcr : record.getLast? ≠ some '\r') (e : LineEnd) :
    withoutTerminator (record ++ e.text) = record := by
  induction record with
  | nil => cases e <;> rfl
  | cons c record ih =>
      cases record with
      | nil =>
          have hlf : c ≠ '\n' := fun hc => hlf (by rw [hc]; rfl)
          have hcr : c ≠ '\r' := fun hc => hcr (by rw [hc]; rfl)
          cases e <;> simp [LineEnd.text, withoutTerminator, hlf, hcr]
      | cons d record =>
          rw [List.getLast?_cons_cons] at hlf hcr
          rw [List.cons_append, withoutTerminator_cons (by simp), ih hlf hcr]
          -- What follows is the line feed of CR LF only if the record ends in one.
          intro _ hrest
          rw [List.cons_append, List.cons_eq_cons, List.append_eq_nil_iff] at hrest
          obtain ⟨rfl, rfl, -⟩ := hrest
          exact hlf rfl

/-- **A line is what is left of it and one of four ends.** -/
theorem exists_lineEnd (line : Text) : ∃ e : LineEnd, line = line.withoutTerminator ++ e.text := by
  fun_induction withoutTerminator line with
  | case1 => exact ⟨.nothing, rfl⟩
  | case2 => exact ⟨.carriageReturnLineFeed, rfl⟩
  | case3 => exact ⟨.lineFeed, rfl⟩
  | case4 => exact ⟨.carriageReturn, rfl⟩
  | case5 c rest _ _ _ ih =>
      obtain ⟨e, he⟩ := ih
      exact ⟨e, congrArg (c :: ·) he⟩

end Text

namespace Line

theorem withoutTerminator_text {line : Line} (h : line.Unended) :
    line.text.withoutTerminator = line.record :=
  Text.withoutTerminator_append_lineEnd h.lineFeed h.carriageReturn line.ending

end Line

/-! ## Records -/

namespace Text

theorem records_of_not_mem {record : Text} (h : '\n' ∉ record) (hne : record ≠ []) :
    record.records = [record] := by
  induction record with
  | nil => exact absurd rfl hne
  | cons c record ih =>
      rw [List.mem_cons, not_or] at h
      rw [records, if_neg (Ne.symm h.1)]
      cases record with
      | nil => rfl
      | cons d record => rw [ih h.2 (by simp)]

/-- No record holds a line feed. -/
theorem not_mem_of_mem_records {text record : Text} (h : record ∈ text.records) :
    '\n' ∉ record := by
  induction text generalizing record with
  | nil => simp at h
  | cons c text ih =>
      rw [records] at h
      split_ifs at h with hc
      · rcases List.mem_cons.mp h with rfl | h
        · simp
        · exact ih h
      · split at h
        · rw [List.mem_singleton.mp h]
          simpa using Ne.symm hc
        · rename_i first others hrecords
          rw [hrecords] at ih
          rcases List.mem_cons.mp h with rfl | h
          · rw [List.mem_cons, not_or]
            exact ⟨Ne.symm hc, ih (by simp)⟩
          · exact ih (List.mem_cons_of_mem _ h)

/-- **The records and their line feeds are the text**, but that the last one may lack its line
feed. -/
theorem ofRows_records (text : Text) :
    ofRows text.records = text ∨ ofRows text.records = text ++ ['\n'] := by
  induction text with
  | nil => exact Or.inl rfl
  | cons c text ih =>
      rw [records]
      split_ifs with hc
      · rw [hc, ofRows_cons, List.nil_append]
        exact ih.imp (congrArg ('\n' :: ·)) (congrArg ('\n' :: ·))
      · split
        · rename_i hrecords
          -- Only the empty text has no records.
          rw [hrecords, ofRows_nil] at ih
          have htext : text = [] := by
            rcases ih with ih | ih
            · exact ih.symm
            · simp at ih
          exact Or.inr (by rw [htext]; rfl)
        · rename_i first others hrecords
          rw [hrecords, ofRows_cons] at ih
          rw [ofRows_cons, List.cons_append]
          exact ih.imp (congrArg (c :: ·)) (congrArg (c :: ·))

/-- **Lines put one behind the other are cut apart again**, each but for its line feed. -/
theorem records_joined {lines : List Line} (h : Stream.Joinable lines) :
    (Line.joined lines).records.map withoutTerminator = lines.map Line.record := by
  induction h with
  | nil => rfl
  | @last line hplain hending hne =>
      have htext : Line.joined [line] = line.record := by
        simp [Line.joined, Line.text, hending, LineEnd.text]
      have hrecord : line.record.withoutTerminator = line.record := by
        have hleft := Line.withoutTerminator_text hplain.unended
        rwa [Line.text, hending, LineEnd.text, List.append_nil] at hleft
      rw [htext, records_of_not_mem hplain.lineFeed hne, List.map_singleton, hrecord]
      rfl
  | @cons line lines hplain hending _ ih =>
      -- A carriage return before the line feed is a character of the record for now.
      obtain ⟨e, hline⟩ : ∃ e : LineEnd, line.text = line.record ++ e.text ++ ['\n'] ∧
          '\n' ∉ e.text := by
        rcases hending with hending | hending
        · exact ⟨.nothing, by simp [Line.text, hending, LineEnd.text], by decide⟩
        · exact ⟨.carriageReturn, by simp [Line.text, hending, LineEnd.text], by decide⟩
      have hfree : '\n' ∉ line.record ++ e.text := by
        rw [List.mem_append, not_or]
        exact ⟨hplain.lineFeed, hline.2⟩
      have hleft : (line.record ++ e.text).withoutTerminator = line.record :=
        withoutTerminator_append_lineEnd hplain.unended.lineFeed hplain.carriageReturn e
      rw [Line.joined, List.flatMap_cons, hline.1, List.append_assoc, List.singleton_append,
        records_append_lineFeed hfree, List.map_cons, hleft, List.map_cons]
      exact congrArg (line.record :: ·) ih

end Text

/-! ## Reading -/

namespace Builder

theorem feed_congr {line line' : Text} (h : line.withoutTerminator = line'.withoutTerminator)
    (number : Int) : feed line number = feed line' number := by
  rw [feed, feed, h]

/-- What is read is what is left of the lines without their ends. -/
theorem feedAll_congr {lines lines' : List Text}
    (h : lines.map Text.withoutTerminator = lines'.map Text.withoutTerminator) (number : Int) :
    feedAll lines number = feedAll lines' number := by
  induction lines generalizing lines' number with
  | nil =>
      obtain rfl := List.map_eq_nil_iff.mp h.symm
      rfl
  | cons line lines ih =>
      cases lines' with
      | nil => simp at h
      | cons line' lines' =>
          rw [List.map_cons, List.map_cons, List.cons_eq_cons] at h
          rw [feedAll, feedAll, feed_congr h.1, ih h.2]

end Builder

theorem Model.ofLines_congr {lines lines' : List Text}
    (h : lines.map Text.withoutTerminator = lines'.map Text.withoutTerminator) :
    ofLines lines = ofLines lines' := by
  rw [ofLines, ofLines, Builder.feedAll_congr h]

namespace Stream

/-- What is left of bare records are the records. -/
theorem map_withoutTerminator_record {lines : List Line} (h : ∀ line ∈ lines, line.Unended) :
    (lines.map Line.record).map Text.withoutTerminator = lines.map Line.record := by
  rw [List.map_map]
  refine List.map_congr_left fun line hline => ?_
  have hleft := Text.withoutTerminator_append_lineEnd (h line hline).lineFeed
    (h line hline).carriageReturn .nothing
  rwa [LineEnd.text, List.append_nil] at hleft

theorem Joinable.plain {lines : List Line} (h : Joinable lines) :
    ∀ line ∈ lines, line.Plain := by
  induction h with
  | nil => simp
  | last hplain _ _ => simpa using hplain
  | cons hplain _ _ ih => exact List.forall_mem_cons.mpr ⟨hplain, ih⟩

/-- **What ends the lines has no effect.** Whether a stream is given as one text or line by line, it
comes to what its bare records come to, and these are found in it unchanged. Nothing but a line feed
parts records, and nothing but the four ends is taken from a line. -/
theorem terminators_immaterial :
    (∀ lines, Joinable lines →
      Model.ofText (Line.joined lines) = Model.ofLines (lines.map Line.record) ∧
      (Line.joined lines).records.map Text.withoutTerminator = lines.map Line.record) ∧
    (∀ lines : List Line, (∀ line ∈ lines, line.Unended) →
      Model.ofLines (lines.map Line.text) = Model.ofLines (lines.map Line.record) ∧
      (lines.map Line.text).map Text.withoutTerminator = lines.map Line.record) ∧
    (∀ text : Text, (∀ record ∈ text.records, '\n' ∉ record) ∧
      (Text.ofRows text.records = text ∨ Text.ofRows text.records = text ++ ['\n'])) ∧
    ∀ line : Text, ∃ e : LineEnd, line = line.withoutTerminator ++ e.text := by
  refine ⟨fun lines h => ?_, fun lines h => ?_, fun text => ?_, Text.exists_lineEnd⟩
  · have hrecords := Text.records_joined h
    have hbare := map_withoutTerminator_record fun line hline => (h.plain line hline).unended
    exact ⟨Model.ofLines_congr (hrecords.trans hbare.symm), hrecords⟩
  · have hlines : (lines.map Line.text).map Text.withoutTerminator = lines.map Line.record := by
      rw [List.map_map]
      exact List.map_congr_left fun line hline => Line.withoutTerminator_text (h line hline)
    exact ⟨Model.ofLines_congr (hlines.trans (map_withoutTerminator_record h).symm), hlines⟩
  · exact ⟨fun _ => Text.not_mem_of_mem_records, text.ofRows_records⟩

/-- Records that hold a form feed, U+2028 and a carriage return, an empty record that is to blame,
and an open last line; then a record that holds a line feed, with each end. -/
theorem terminators_immaterial_mixed :
    let lines : List Line :=
      [⟨"Ta\x0Cb".toList, .carriageReturnLineFeed⟩, ⟨"T\u2028\rc".toList, .lineFeed⟩,
        ⟨[], .carriageReturnLineFeed⟩, ⟨"Td".toList, .nothing⟩]
    let again : List Line :=
      [.nothing, .lineFeed, .carriageReturn, .carriageReturnLineFeed].map fun e =>
        ⟨"Ta\nb".toList, e⟩
    Joinable lines ∧
      Model.ofText "Ta\x0Cb\r\nT\u2028\rc\n\r\nTd".toList = .error (.emptyRecord 3) ∧
      Model.ofLines (lines.map Line.record) = .error (.emptyRecord 3) ∧
      (∀ line ∈ again, line.Unended) ∧
      Model.ofLines (again.map Line.text) = Model.ofLines (again.map Line.record) := by
  intro lines again
  obtain ⟨hjoined, hgiven, -⟩ := terminators_immaterial
  have hjoinable : Joinable lines := by
    refine .cons ⟨by decide, by decide⟩ (Or.inr rfl) ?_
    refine .cons ⟨by decide, by decide⟩ (Or.inl rfl) ?_
    refine .cons ⟨by decide, by decide⟩ (Or.inr rfl) ?_
    exact .last ⟨by decide, by decide⟩ rfl (by decide)
  have hblamed : Model.ofLines (lines.map Line.record) = .error (.emptyRecord 3) := by rfl
  have hunended : ∀ line ∈ again, line.Unended := by
    intro line hline
    obtain ⟨e, -, rfl⟩ := List.mem_map.mp hline
    exact ⟨by simp, by simp⟩
  exact ⟨hjoinable, (hjoined lines hjoinable).1.trans hblamed, hblamed, hunended,
    (hgiven again hunended).1⟩

end Stream

end Yeast
