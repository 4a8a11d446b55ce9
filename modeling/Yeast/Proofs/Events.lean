import Yeast.Proofs.Legal
import Yeast.Proofs.Upkeep

set_option autoImplicit false

/-! # The events of a stream

What a record comes to is a list of events: its token and, where an opening or closing code is
followed by text, that text as a leaf of its own inside the scope. An event can be entered at any
builder, except that an end must meet a scope of its title (`Builder.enter?`). A stream is read to
its end iff every line has a code and all its events can be entered, and what it leads to depends
on its events and their lines alone (`Stream.ofLines_eq_ok_iff`). The entries that are not synthetic
are the events again (`Stream.events_of_ofLines`).
-/

namespace Yeast

/-- What becomes an entry: a leaf with its text, or the beginning or the end of a scope. -/
structure Event where
  descriptor : Descriptor
  text : Text
  deriving DecidableEq

/-- The event that the entry came from, if it is not synthetic. -/
def Entry.event (e : Entry) : Event := ⟨e.descriptor, e.text⟩

/-- A text that shares its record is a leaf, if it is not empty. -/
def Text.sharedEvents (text : Text) : List Event :=
  if text.isEmpty then [] else [⟨CodeTable.text, text⟩]

/-- The events of a token. The text that shares a record with a code lies in the scope that the
code opens or closes. -/
def Descriptor.events (d : Descriptor) (text : Text) : List Event :=
  match d.kind with
  | .opening => ⟨d, []⟩ :: text.sharedEvents
  | .closing => text.sharedEvents ++ [⟨d, []⟩]
  | _ => [⟨d, text⟩]

def Text.events (line : Text) : List Event :=
  match line.reading with
  | .token d text => d.events text
  | _ => []

/-- The events of lines, of which the first has the given number, each with its line. -/
def Stream.eventsFrom : Int → List Text → List (Event × Int)
  | _, [] => []
  | number, line :: lines => line.events.map (·, number) ++ eventsFrom (number + 1) lines

/-- The codes of the table find their descriptors, and none is that of a comment. -/
theorem CodeTable.find?_code : ∀ d ∈ descriptors, find? d.code = some d ∧ d.code ≠ comment := by
  decide +kernel

theorem Descriptor.events_opening {d : Descriptor} (h : d.kind = .opening) (text : Text) :
    d.events text = ⟨d, []⟩ :: text.sharedEvents := by
  rw [Descriptor.events, h]

theorem Descriptor.events_closing {d : Descriptor} (h : d.kind = .closing) (text : Text) :
    d.events text = text.sharedEvents ++ [⟨d, []⟩] := by
  rw [Descriptor.events, h]

theorem Descriptor.events_leaf {d : Descriptor} (ho : d.kind ≠ .opening) (hc : d.kind ≠ .closing)
    (text : Text) : d.events text = [⟨d, text⟩] := by
  unfold Descriptor.events
  split
  · exact absurd ‹_› ho
  · exact absurd ‹_› hc
  · rfl

theorem Text.reading_eq_token {line text : Text} {d : Descriptor}
    (h : line.reading = .token d text) :
    d ∈ CodeTable.descriptors ∧ ∃ rest, line.withoutTerminator = d.code :: rest ∧
      text = d.shownText rest := by
  have hmem := Builder.mem_descriptors_of_reading h
  refine ⟨hmem, ?_⟩
  unfold Text.reading at h
  split at h
  · simp at h
  · rename_i code rest hline
    split at h
    · simp at h
    · split at h
      · rename_i d' hfind
        have heq := Reading.token.inj h
        have hcode := CodeTable.code_eq_of_find? hfind
        exact ⟨rest, by rw [hline, ← heq.1, hcode], by rw [← heq.2, heq.1]⟩
      · simp at h

theorem Text.events_of_reading {line text : Text} {d : Descriptor}
    (h : line.reading = .token d text) : line.events = d.events text := by
  rw [Text.events, h]

namespace Builder

/-- Behind an event, unless it is the end of a scope that is not there or has another title. -/
def enter? (b : Builder) (e : Event) (line : Int) : Option Builder :=
  match e.descriptor.kind with
  | .opening => some (b.opened e.descriptor line)
  | .closing =>
    match b.nesting with
    | [] => none
    | s :: _ =>
      if s.descriptor.title = e.descriptor.title then some (b.closed e.descriptor line) else none
  | _ => some (b.withLeaf e.descriptor e.text line)

def enterAll? : Builder → List (Event × Int) → Option Builder
  | b, [] => some b
  | b, (e, line) :: events => (b.enter? e line).bind fun b => enterAll? b events

theorem enter?_opening (b : Builder) {e : Event} (h : e.descriptor.kind = .opening) (line : Int) :
    b.enter? e line = some (b.opened e.descriptor line) := by
  rw [enter?, h]

theorem enter?_leaf (b : Builder) {e : Event} (ho : e.descriptor.kind ≠ .opening)
    (hc : e.descriptor.kind ≠ .closing) (line : Int) :
    b.enter? e line = some (b.withLeaf e.descriptor e.text line) := by
  unfold enter?
  split
  · exact absurd ‹_› ho
  · exact absurd ‹_› hc
  · rfl

theorem enter?_closing_eq_some_iff {b b' : Builder} {e : Event}
    (h : e.descriptor.kind = .closing) {line : Int} :
    b.enter? e line = some b' ↔
      (∃ s outer, b.nesting = s :: outer ∧ s.descriptor.title = e.descriptor.title) ∧
        b' = b.closed e.descriptor line := by
  rw [enter?, h]
  cases b.nesting with
  | nil => simp
  | cons s outer =>
      dsimp only
      split
      · rename_i htitle
        rw [Option.some.injEq, eq_comm]
        exact (and_iff_right ⟨s, outer, rfl, htitle⟩).symm
      · rename_i htitle
        refine ⟨fun h => by simp at h, ?_⟩
        rintro ⟨⟨s', outer', hnesting, htitle'⟩, -⟩
        rw [(List.cons_eq_cons.mp hnesting).1] at htitle
        exact absurd htitle' htitle

@[simp]
theorem enterAll?_nil (b : Builder) : b.enterAll? [] = some b := rfl

theorem enterAll?_cons (b : Builder) (e : Event) (line : Int) (events : List (Event × Int)) :
    b.enterAll? ((e, line) :: events) =
      (b.enter? e line).bind fun b => b.enterAll? events := rfl

theorem enterAll?_append (b : Builder) (events more : List (Event × Int)) :
    b.enterAll? (events ++ more) = (b.enterAll? events).bind fun b => b.enterAll? more := by
  induction events generalizing b with
  | nil => rfl
  | cons x events ih =>
      rw [List.cons_append, enterAll?_cons, enterAll?_cons]
      cases b.enter? x.1 x.2 with
      | none => rfl
      | some b' => exact ih b'

@[simp]
theorem enterAll?_sharedEvents (b : Builder) (text : Text) (line : Int) :
    b.enterAll? (text.sharedEvents.map (·, line)) = some (b.withShared text line) := by
  unfold Text.sharedEvents withShared
  split
  · rfl
  · have hleaf : b.enter? ⟨CodeTable.text, text⟩ line =
        some (b.withLeaf CodeTable.text text line) :=
      enter?_leaf b (by simp [CodeTable.text]) (by simp [CodeTable.text]) line
    rw [List.map_singleton, enterAll?_cons, hleaf]
    rfl

end Builder

namespace Stream

open Builder

/-! ## Reading is entering -/

/-- A line is accepted iff it has a code and its events can be entered. -/
theorem feed_run_eq_ok_iff {b b' : Builder} (hb : b.Sound) {line : Text} {number : Int}
    (hnumber : 1 ≤ number) :
    (feed line number).run b = .ok () b' ↔
      Coded line ∧ b.enterAll? (line.events.map (·, number)) = some b' := by
  rw [feed_eq, Text.events]
  cases hreading : line.reading with
  | blank =>
      have hnot := not_coded_of_nil (reading_eq_blank hreading)
      exact ⟨fun h => by simp at h, fun h => absurd h.1 hnot⟩
  | unknown code =>
      obtain ⟨rest, hline, hcomment, hunknown⟩ := reading_eq_unknown hreading
      have hnot := not_coded_of_unknown hline hcomment hunknown
      exact ⟨fun h => by simp at h, fun h => absurd h.1 hnot⟩
  | comment =>
      have hcoded : Coded line := coded_of_reading (Or.inl hreading)
      simp [hcoded]
  | token d text =>
      have hcoded : Coded line := coded_of_reading (Or.inr ⟨d, text, hreading⟩)
      rw [and_iff_right hcoded]
      dsimp only
      by_cases hopen : d.kind = .opening
      · rw [feedToken_run_opening hb hopen text hnumber, Descriptor.events_opening hopen,
          List.map_cons, enterAll?_cons, enter?_opening b hopen, Option.bind_some,
          enterAll?_sharedEvents]
        simp
      by_cases hclose : d.kind = .closing
      · rw [feedToken_run_closing hb hclose text hnumber,
          closeScope_run (hb.withShared text number) hclose hnumber,
          Descriptor.events_closing hclose, List.map_append, enterAll?_append,
          enterAll?_sharedEvents, Option.bind_some, List.map_singleton, enterAll?_cons, enter?,
          hclose]
        -- Both sides look at the innermost scope and at its title.
        cases (b.withShared text number).nesting with
        | nil => simp
        | cons s outer =>
            dsimp only
            split <;> simp
      · rw [feedToken_run_leaf hb hopen hclose text hnumber, Descriptor.events_leaf hopen hclose,
          List.map_singleton, enterAll?_cons, enter?_leaf b hopen hclose, Option.bind_some]
        simp

theorem feedAll_run_eq_ok_iff {b b' : Builder} (hb : b.Orderly) {lines : List Text} {number : Int}
    (hnumber : 1 ≤ number) :
    (feedAll lines number).run b = .ok () b' ↔
      (∀ line ∈ lines, Coded line) ∧ b.enterAll? (eventsFrom number lines) = some b' := by
  induction lines generalizing b number with
  | nil => simp [feedAll, eventsFrom]
  | cons line lines ih =>
      rw [feedAll, EStateM.run_bind, eventsFrom, enterAll?_append, List.forall_mem_cons]
      cases hrun : (feed line number).run b with
      | ok u b₁ =>
          -- The line is accepted, and the rest is read from an orderly state again.
          obtain ⟨hcoded, henter⟩ := (feed_run_eq_ok_iff hb.sound hnumber).mp hrun
          have hafter : b.after line number = b₁ := by rw [after, hrun]
          have hb₁ : b₁.Orderly := hafter ▸ hb.changes (feed_changes hb.sound line hnumber).1
          rw [henter, Option.bind_some, and_iff_right hcoded]
          exact ih hb₁ (by omega)
      | error fault b₁ =>
          refine ⟨fun h => by simp at h, ?_⟩
          rintro ⟨⟨hcoded, -⟩, henter⟩
          obtain ⟨b₂, hline, -⟩ := Option.bind_eq_some_iff.mp henter
          rw [(feed_run_eq_ok_iff hb.sound hnumber).mpr ⟨hcoded, hline⟩] at hrun
          simp at hrun

/-- **A stream is read iff its lines have codes and its events can be entered.** -/
theorem ofLines_eq_ok_iff {lines : List Text} {m : Model} :
    Model.ofLines lines = .ok m ↔ (∀ line ∈ lines, Coded line) ∧
      ∃ b, Builder.enterAll? {} (eventsFrom 1 lines) = some b ∧ m = b.finish := by
  unfold Model.ofLines
  constructor
  · intro h
    split at h
    · rename_i b hrun
      obtain ⟨hcoded, henter⟩ := (feedAll_run_eq_ok_iff .empty (by omega)).mp hrun
      exact ⟨hcoded, b, henter, (Except.ok.inj h).symm⟩
    · simp at h
  · rintro ⟨hcoded, b, henter, rfl⟩
    rw [(feedAll_run_eq_ok_iff .empty (by omega)).mpr ⟨hcoded, henter⟩]

/-- Faults cannot be compared, but models can. -/
theorem ofLines_eq_ok_of_toOption {lines : List Text} {m : Model}
    (h : (Model.ofLines lines).toOption = some m) : Model.ofLines lines = .ok m := by
  cases hread : Model.ofLines lines with
  | ok m' =>
      rw [hread] at h
      exact congrArg Except.ok (Option.some.inj h)
  | error fault =>
      rw [hread] at h
      exact absurd h (by simp [Except.toOption])

theorem eventsFrom_append (number : Int) (lines more : List Text) :
    eventsFrom number (lines ++ more) =
      eventsFrom number lines ++ eventsFrom (number + lines.length) more := by
  induction lines generalizing number with
  | nil => simp [eventsFrom]
  | cons line lines ih =>
      have hnumber : number + 1 + lines.length = number + (lines.length + 1 : Nat) := by omega
      rw [List.cons_append, eventsFrom, ih, eventsFrom, List.append_assoc, hnumber,
        List.length_cons]

/-! ## Events are moves -/

/-- The events of streams: their codes are in the table, and only leaves have texts. -/
structure Proper (e : Event) : Prop where
  mem : e.descriptor ∈ CodeTable.descriptors
  text_nil : e.descriptor.kind = .opening ∨ e.descriptor.kind = .closing → e.text = []

theorem proper_sharedEvents (text : Text) : ∀ e ∈ text.sharedEvents, Proper e := by
  have htext : CodeTable.text ∈ CodeTable.descriptors :=
    CodeTable.mem_descriptors_of_find? CodeTable.find?_text
  intro e he
  unfold Text.sharedEvents at he
  split at he
  · simp at he
  · rw [List.mem_singleton.mp he]
    exact ⟨htext, fun h => by simp [CodeTable.text] at h⟩

theorem proper_events (line : Text) : ∀ e ∈ line.events, Proper e := by
  intro e he
  unfold Text.events at he
  split at he
  · rename_i d text hreading
    have hmem := mem_descriptors_of_reading hreading
    by_cases hopen : d.kind = .opening
    · rw [Descriptor.events_opening hopen] at he
      rcases List.mem_cons.mp he with rfl | he
      · exact ⟨hmem, fun _ => rfl⟩
      · exact proper_sharedEvents text e he
    by_cases hclose : d.kind = .closing
    · rw [Descriptor.events_closing hclose] at he
      rcases List.mem_append.mp he with he | he
      · exact proper_sharedEvents text e he
      · rw [List.mem_singleton.mp he]
        exact ⟨hmem, fun _ => rfl⟩
    · rw [Descriptor.events_leaf hopen hclose] at he
      rw [List.mem_singleton.mp he]
      exact ⟨hmem, fun h => absurd h (by simp [hopen, hclose])⟩
  · simp at he

theorem proper_eventsFrom {number : Int} {lines : List Text} :
    ∀ x ∈ eventsFrom number lines, Proper x.1 := by
  induction lines generalizing number with
  | nil => simp [eventsFrom]
  | cons line lines ih =>
      intro x hx
      rcases List.mem_append.mp hx with hx | hx
      · obtain ⟨e, he, rfl⟩ := List.mem_map.mp hx
        exact proper_events line e he
      · exact ih x hx

end Stream

namespace Builder

/-- The events that the entries which are not synthetic came from, with their lines. -/
def entered (b : Builder) : List (Event × Int) :=
  (b.entries.toList.filter fun e => !e.synthetic).map fun e => (e.event, e.line)

theorem entered_enter? {b b' : Builder} {e : Event} (he : Stream.Proper e) {line : Int}
    (h : b.enter? e line = some b') : b'.entered = b.entered ++ [(e, line)] := by
  unfold entered
  by_cases hopen : e.descriptor.kind = .opening
  · rw [enter?_opening b hopen, Option.some.injEq] at h
    rw [← h, opened_entries, List.filter_append, List.map_append]
    simp [Entry.event, ← he.text_nil (Or.inl hopen)]
  by_cases hclose : e.descriptor.kind = .closing
  · obtain ⟨-, rfl⟩ := (enter?_closing_eq_some_iff hclose).mp h
    -- A marker before the end is synthetic.
    rw [closed_entries, List.filter_append, List.filter_append, List.map_append, List.map_append]
    split <;> simp [Entry.event, marker, ← he.text_nil (Or.inr hclose)]
  · rw [enter?_leaf b hopen hclose, Option.some.injEq] at h
    rw [← h, withLeaf_entries, List.filter_append, List.map_append]
    simp [Entry.event]

theorem entered_enterAll? {b b' : Builder} {events : List (Event × Int)}
    (hproper : ∀ x ∈ events, Stream.Proper x.1) (h : b.enterAll? events = some b') :
    b'.entered = b.entered ++ events := by
  induction events generalizing b with
  | nil =>
      rw [enterAll?_nil, Option.some.injEq] at h
      rw [h, List.append_nil]
  | cons x events ih =>
      obtain ⟨hx, hevents⟩ := List.forall_mem_cons.mp hproper
      obtain ⟨b₁, henter, hrest⟩ := Option.bind_eq_some_iff.mp h
      rw [ih hevents hrest, entered_enter? hx henter, List.append_assoc]
      rfl

end Builder

/-- **The entries of a stream that are not synthetic are its events, in order.** -/
theorem Stream.events_of_ofLines {lines : List Text} {m : Model}
    (h : Model.ofLines lines = .ok m) :
    (m.entries.filter fun e => !e.synthetic).map (fun e => (e.event, e.line)) =
      eventsFrom 1 lines := by
  obtain ⟨-, b, henter, rfl⟩ := ofLines_eq_ok_iff.mp h
  exact (Builder.entered_enterAll? proper_eventsFrom henter).trans (List.nil_append _)

end Yeast
