import Yeast.Model.Json
import Yeast.Proofs.Events
import Yeast.Proofs.Spelling

set_option autoImplicit false

/-! # A stream rebuilt from its data

Every entry of a model that is not synthetic can be written as a record of its own, and its value
as data has what this takes (`Json.records?`). These records are a stream again, with the same
events as the first one, since a record of one entry has the event of that entry
(`Entry.events_record`). The two streams distribute their events over different lines; but lines
are only written down, so that what is built from the same events is alike in all but the numbers
of lines (`Builder.Alike`).

What a record spells out has to be shown as the text of its entry. This is where a text can fail to
be rebuilt, and an entangled line is the only way to (`Text.Rebuildable`).
-/

namespace Yeast

/-! ## The records of data -/

namespace Json

def field? (name : Text) : Json → Option Json
  | object fields => (fields.find? fun f => f.1 = name).map Prod.snd
  | _ => none

def textField? (name : Text) (v : Json) : Option Text :=
  match v.field? name with
  | some (string text) => some text
  | _ => none

def boolField? (name : Text) (v : Json) : Option Bool :=
  match v.field? name with
  | some (bool value) => some value
  | _ => none

def itemsField? (name : Text) (v : Json) : Option (List Json) :=
  match v.field? name with
  | some (array items) => some items
  | _ => none

/-- The record of an entry: its code and its text as records spell it, which for a byte order mark
begins with the code. -/
def record? (entry : Json) : Option Text := do
  let kind ← entry.textField? "kind".toList
  let code ← entry.textField? "code".toList
  let text ← entry.textField? "source_text".toList
  return (if kind = "bom".toList then text else code ++ text) ++ ['\r', '\n']

/-- The records of the entries that are not synthetic. -/
def recordsOf? : List Json → Option (List Text)
  | [] => some []
  | entry :: entries => do
    let synthetic ← entry.boolField? "synthetic".toList
    if synthetic then recordsOf? entries
    else
      let record ← entry.record?
      let records ← recordsOf? entries
      return record :: records

def records? (model : Json) : Option (List Text) := do
  let entries ← model.itemsField? "entries".toList
  recordsOf? entries

end Json

def Entry.record (e : Entry) : Text :=
  (if e.kind = .byteOrderMark then e.sourceText else e.descriptor.code :: e.sourceText) ++
    ['\r', '\n']

def Model.records (m : Model) : List Text :=
  (m.entries.filter fun e => !e.synthetic).map Entry.record

theorem Entry.record?_toJson (e : Entry) : e.toJson.record? = some e.record := by
  have hkind : e.toJson.textField? "kind".toList = some e.kind.name := rfl
  have hcode : e.toJson.textField? "code".toList = some [e.descriptor.code] := rfl
  have htext : e.toJson.textField? "source_text".toList = some e.sourceText := rfl
  have hbom : e.kind.name = "bom".toList ↔ e.kind = .byteOrderMark := by
    cases e.kind <;> decide
  rw [Json.record?, hkind, hcode, htext, Entry.record]
  simp only [hbom, Option.bind_eq_bind, Option.bind_some, List.singleton_append]
  rfl

/-- The value of a model tells its records. -/
theorem Model.records?_toJson (m : Model) : m.toJson.records? = some m.records := by
  have hitems : m.toJson.itemsField? "entries".toList = some (m.entries.map Entry.toJson) := rfl
  have hsynthetic : ∀ e : Entry, e.toJson.boolField? "synthetic".toList = some e.synthetic :=
    fun _ => rfl
  rw [Json.records?, hitems, Model.records]
  show Json.recordsOf? (m.entries.map Entry.toJson) = _
  induction m.entries with
  | nil => rfl
  | cons e entries ih =>
      rw [List.map_cons, Json.recordsOf?, hsynthetic, Entry.record?_toJson, ih]
      cases hs : e.synthetic with
      | true => rw [List.filter_cons_of_neg (by simp [hs])]; rfl
      | false => rw [List.filter_cons_of_pos (by simp [hs])]; rfl

/-! ## The events of records -/

/-- What stands behind the code of a line that is neither a comment nor a byte order mark. -/
def Text.spelledPart? (line : Text) : Option Text :=
  match line.withoutTerminator with
  | [] => none
  | code :: rest =>
    if code = CodeTable.comment ∨ (CodeTable.find? code).any (·.kind = .byteOrderMark) then none
    else some rest

/-- No backslash of the line can join an escape that is written behind it. -/
def Text.Rebuildable (line : Text) : Prop := ∀ text ∈ line.spelledPart?, ¬ text.Entangled

instance (line : Text) : Decidable line.Rebuildable :=
  inferInstanceAs (Decidable (∀ text ∈ line.spelledPart?, ¬ text.Entangled))

/-- The text of the event is shown where it is spelled out. -/
def Event.Stable (x : Event) : Prop :=
  x.descriptor.shownText
    (if x.descriptor.kind = .byteOrderMark then x.text.tail else x.text.spelledOut) = x.text

theorem Text.withoutTerminator_append (text : Text) :
    (text ++ ['\r', '\n']).withoutTerminator = text := by
  induction text with
  | nil => rfl
  | cons c text ih =>
      -- Two more characters follow, so this one does not end the line.
      have hmore : ∀ d : Char, text ++ ['\r', '\n'] ≠ [d] := by
        intro d h
        have hlength := congrArg List.length h
        simp at hlength
      have hne : text ++ ['\r', '\n'] ≠ [] := by simp
      rw [List.cons_append, Text.withoutTerminator, ih]
      · exact fun _ h => hmore _ h
      · exact fun _ h => hne h
      · exact fun _ h => hne h

theorem Event.stable_of_not_entangled {d : Descriptor} (hd : d.kind ≠ .byteOrderMark)
    {text : Text} (h : ¬ text.Entangled) : Stable ⟨d, text.withPlaceholders⟩ := by
  have hshown : text.withPlaceholders.spelledOut.withPlaceholders = text.withPlaceholders :=
    Text.withPlaceholders_respelled h
  unfold Stable Descriptor.shownText
  rw [if_neg hd, if_neg hd]
  exact hshown

/-- An event has the code and the text of its token, the code alone, or the text alone. -/
theorem Descriptor.eq_of_mem_events {d : Descriptor} {text : Text} {x : Event}
    (h : x ∈ d.events text) : x = ⟨d, text⟩ ∨ x = ⟨d, []⟩ ∨ x = ⟨CodeTable.text, text⟩ := by
  have hshared : x ∈ text.sharedEvents → x = ⟨CodeTable.text, text⟩ := by
    intro hx
    unfold Text.sharedEvents at hx
    split at hx
    · simp at hx
    · exact List.mem_singleton.mp hx
  by_cases hopen : d.kind = .opening
  · rw [Descriptor.events_opening hopen, List.mem_cons] at h
    exact Or.inr (h.imp_right hshared)
  by_cases hclose : d.kind = .closing
  · rw [Descriptor.events_closing hclose, List.mem_append, List.mem_singleton] at h
    exact Or.inr (h.symm.imp_right hshared)
  · rw [Descriptor.events_leaf hopen hclose, List.mem_singleton] at h
    exact Or.inl h

/-- The events of a line can be written again. -/
theorem Text.Rebuildable.stable {line : Text} (h : line.Rebuildable) :
    ∀ x ∈ line.events, x.Stable := by
  intro x hx
  unfold Text.events at hx
  split at hx
  · rename_i d text hreading
    obtain ⟨hmem, rest, hline, rfl⟩ := Text.reading_eq_token hreading
    by_cases hbom : d.kind = .byteOrderMark
    -- a byte order mark keeps its text as it stands
    · have hopen : d.kind ≠ .opening := by simp [hbom]
      have hclose : d.kind ≠ .closing := by simp [hbom]
      rw [Descriptor.events_leaf hopen hclose, List.mem_singleton] at hx
      rw [hx]
      unfold Event.Stable Descriptor.shownText
      simp [hbom]
    -- any other text is shown, and comes back unless it is entangled
    · have hpart : line.spelledPart? = some rest := by
        have hfind := CodeTable.find?_code d hmem
        rw [Text.spelledPart?, hline]
        simp [hfind, hbom]
      have hrest : ¬ Text.Entangled rest := h rest hpart
      have hshown : d.shownText rest = Text.withPlaceholders rest := if_neg hbom
      have hnil : ¬ Text.Entangled [] := by decide
      have htext : CodeTable.text.kind ≠ .byteOrderMark := by decide
      rw [hshown] at hx
      rcases Descriptor.eq_of_mem_events hx with rfl | rfl | rfl
      · exact Event.stable_of_not_entangled hbom hrest
      · exact Event.stable_of_not_entangled hbom hnil
      · exact Event.stable_of_not_entangled htext hrest
  · simp at hx

/-- A record of an entry is read as the entry. -/
theorem Entry.reading_record {e : Entry} (hmem : e.descriptor ∈ CodeTable.descriptors)
    (hstable : e.event.Stable) : e.record.reading = .token e.descriptor e.text := by
  have hfind := CodeTable.find?_code e.descriptor hmem
  have hstable : e.descriptor.shownText
      (if e.kind = .byteOrderMark then e.text.tail else e.text.spelledOut) = e.text := hstable
  have hrecord : e.record = e.descriptor.code ::
      (if e.kind = .byteOrderMark then e.text.tail else e.text.spelledOut) ++ ['\r', '\n'] := by
    unfold Entry.record Entry.sourceText
    by_cases hbom : e.kind = .byteOrderMark
    · -- The text of a byte order mark begins with the code.
      rw [if_pos hbom, Descriptor.shownText, if_pos hbom] at hstable
      rw [if_pos hbom, if_pos hbom, if_pos hbom, hstable]
    · rw [if_neg hbom, if_neg hbom, if_neg hbom]
  rw [hrecord, Text.reading, Text.withoutTerminator_append]
  simp only [hfind, if_false, hstable]

/-- **The record of an entry has the event of the entry.** -/
theorem Entry.events_record {e : Entry} (hproper : Stream.Proper e.event)
    (hstable : e.event.Stable) : e.record.events = [e.event] := by
  rw [Text.events_of_reading (Entry.reading_record hproper.mem hstable)]
  by_cases hopen : e.kind = .opening
  · have htext : e.text = [] := hproper.text_nil (Or.inl hopen)
    rw [Descriptor.events_opening hopen, Entry.event, htext]
    rfl
  by_cases hclose : e.kind = .closing
  · have htext : e.text = [] := hproper.text_nil (Or.inr hclose)
    rw [Descriptor.events_closing hclose, Entry.event, htext]
    rfl
  · rw [Descriptor.events_leaf hopen hclose]
    rfl

/-! ## Alike but for lines -/

/-- All of the entry but its line. -/
def Entry.placeless (e : Entry) : Descriptor × Text × Option Int × Bool :=
  (e.descriptor, e.text, e.id, e.synthetic)

/-- The models are the same but for the numbers of lines. -/
structure Model.Alike (m m' : Model) : Prop where
  entries : m.entries.map Entry.placeless = m'.entries.map Entry.placeless
  openScopes : m.openScopes.map OpenScope.descriptor = m'.openScopes.map OpenScope.descriptor

namespace Builder

/-- The builders are the same but for the numbers of lines. -/
structure Alike (b b' : Builder) : Prop where
  nesting : b.nesting.map OpenScope.descriptor = b'.nesting.map OpenScope.descriptor
  content : b.content = b'.content
  entries : b.entries.toList.map Entry.placeless = b'.entries.toList.map Entry.placeless
  nextId : b.nextId = b'.nextId

variable {b b' : Builder}

theorem Alike.withLeaf (h : b.Alike b') (d : Descriptor) (text : Text) (line line' : Int) :
    (b.withLeaf d text line).Alike (b'.withLeaf d text line') where
  nesting := by rw [withLeaf_nesting, withLeaf_nesting, h.nesting]
  content := by rw [withLeaf_content, withLeaf_content, h.content]
  entries := by
    rw [withLeaf_entries, withLeaf_entries, List.map_append, List.map_append, h.entries, h.nextId]
    rfl
  nextId := by rw [withLeaf_nextId, withLeaf_nextId, h.nextId]

theorem Alike.opened (h : b.Alike b') (d : Descriptor) (line line' : Int) :
    (b.opened d line).Alike (b'.opened d line') where
  nesting := by rw [opened_nesting, opened_nesting, List.map_cons, List.map_cons, h.nesting]
  content := by rw [opened_content, opened_content, h.content]
  entries := by
    rw [opened_entries, opened_entries, List.map_append, List.map_append, h.entries, h.nextId]
    rfl
  nextId := by rw [opened_nextId, opened_nextId, h.nextId]

theorem Alike.closed (h : b.Alike b') (d : Descriptor) (line line' : Int) :
    (b.closed d line).Alike (b'.closed d line') where
  nesting := by rw [closed_nesting, closed_nesting, List.map_tail, List.map_tail, h.nesting]
  content := by rw [closed_content, closed_content, h.content]
  entries := by
    rw [closed_entries, closed_entries, List.map_append, List.map_append, List.map_append,
      List.map_append, h.entries, h.content]
    split
    · rfl
    · rw [List.map_singleton, List.map_singleton, marker, marker, h.nextId]
      rfl
  nextId := by rw [closed_nextId, closed_nextId, left_nextId, left_nextId, h.content, h.nextId]

/-- An event that can be entered at a builder can be entered at one that is alike. -/
theorem Alike.enter? (h : b.Alike b') {c : Builder} {x : Event} {line : Int} (line' : Int)
    (hc : b.enter? x line = some c) : ∃ c', b'.enter? x line' = some c' ∧ c.Alike c' := by
  by_cases hopen : x.descriptor.kind = .opening
  · rw [enter?_opening b hopen, Option.some.injEq] at hc
    rw [← hc]
    exact ⟨_, enter?_opening b' hopen line', h.opened _ _ _⟩
  by_cases hclose : x.descriptor.kind = .closing
  · obtain ⟨⟨s, outer, hscopes, htitle⟩, rfl⟩ := (enter?_closing_eq_some_iff hclose).mp hc
    have hnesting := h.nesting
    rw [hscopes, List.map_cons] at hnesting
    obtain ⟨s', outer', hscopes', hs, -⟩ := List.map_eq_cons_iff.mp hnesting.symm
    have htitle' : s'.descriptor.title = x.descriptor.title := by rw [hs, htitle]
    exact ⟨_, (enter?_closing_eq_some_iff hclose).mpr ⟨⟨s', outer', hscopes', htitle'⟩, rfl⟩,
      h.closed _ _ _⟩
  · rw [enter?_leaf b hopen hclose, Option.some.injEq] at hc
    rw [← hc]
    exact ⟨_, enter?_leaf b' hopen hclose line', h.withLeaf _ _ _ _⟩

/-- What is built from the same events is alike, whatever their lines. -/
theorem Alike.enterAll? (h : b.Alike b') {c : Builder} {events events' : List (Event × Int)}
    (hevents : events.map Prod.fst = events'.map Prod.fst) (hc : b.enterAll? events = some c) :
    ∃ c', b'.enterAll? events' = some c' ∧ c.Alike c' := by
  induction events generalizing b b' events' with
  | nil =>
      rw [List.map_nil] at hevents
      rw [List.map_eq_nil_iff.mp hevents.symm]
      rw [enterAll?_nil, Option.some.injEq] at hc
      exact ⟨b', rfl, hc ▸ h⟩
  | cons x events ih =>
      obtain ⟨⟨y, line'⟩, events', rfl, hx, htail⟩ := List.map_eq_cons_iff.mp hevents.symm
      have hx : y = x.1 := hx
      obtain ⟨c₁, henter, hrest⟩ := Option.bind_eq_some_iff.mp hc
      obtain ⟨c₁', henter', h₁⟩ := h.enter? line' henter
      obtain ⟨c', hrest', hc'⟩ := ih h₁ htail.symm hrest
      refine ⟨c', ?_, hc'⟩
      rw [enterAll?_cons, hx, henter', Option.bind_some, hrest']

theorem Alike.finish (h : b.Alike b') : b.finish.Alike b'.finish where
  entries := h.entries
  openScopes := by
    show b.nesting.reverse.map _ = b'.nesting.reverse.map _
    rw [List.map_reverse, List.map_reverse, h.nesting]

end Builder

/-! ## The stream of the records -/

theorem Stream.map_fst_eventsFrom (number : Int) (lines : List Text) :
    (eventsFrom number lines).map Prod.fst = lines.flatMap Text.events := by
  induction lines generalizing number with
  | nil => rfl
  | cons line lines ih =>
      have hline : (line.events.map fun x => (x, number)).map Prod.fst = line.events := by
        rw [List.map_map]
        exact List.map_id _
      rw [eventsFrom, List.map_append, ih, hline, List.flatMap_cons]

/-- The records of a model are a stream with the events of the stream that it was read from. -/
theorem Model.records_of_ofLines {lines : List Text} {m : Model} (h : ofLines lines = .ok m)
    (hlines : ∀ line ∈ lines, line.Rebuildable) :
    (∀ record ∈ m.records, Stream.Coded record) ∧
      m.records.flatMap Text.events = lines.flatMap Text.events := by
  have hevents : (m.entries.filter fun e => !e.synthetic).map Entry.event =
      lines.flatMap Text.events := by
    have hpairs := congrArg (List.map Prod.fst) (Stream.events_of_ofLines h)
    rw [List.map_map, Stream.map_fst_eventsFrom] at hpairs
    exact hpairs
  -- Every entry to be written comes from a line.
  have hentry : ∀ e ∈ m.entries.filter fun e => !e.synthetic,
      Stream.Proper e.event ∧ e.event.Stable := by
    intro e he
    have hmem := List.mem_map_of_mem (f := Entry.event) he
    rw [hevents] at hmem
    obtain ⟨line, hline, hx⟩ := List.mem_flatMap.mp hmem
    exact ⟨Stream.proper_events line _ hx, (hlines line hline).stable _ hx⟩
  constructor
  · intro record hrecord
    obtain ⟨e, he, rfl⟩ := List.mem_map.mp hrecord
    have hreading := Entry.reading_record (hentry e he).1.mem (hentry e he).2
    exact Stream.coded_of_reading (Or.inr ⟨_, _, hreading⟩)
  · have hrecords : (m.entries.filter fun e => !e.synthetic).flatMap
        (fun e => e.record.events) = (m.entries.filter fun e => !e.synthetic).map Entry.event := by
      rw [List.map_eq_flatMap]
      exact List.flatMap_congr fun e he => Entry.events_record (hentry e he).1 (hentry e he).2
    rw [Model.records, List.flatMap_map, hrecords, hevents]

/-- **The records told by the data of a model are a stream, and its model is the same but for the
numbers of lines.** -/
theorem rebuilt_of_ofLines {lines : List Text} {m : Model} (h : Model.ofLines lines = .ok m)
    (hlines : ∀ line ∈ lines, line.Rebuildable) :
    ∃ records m', m.toJson.records? = some records ∧ Model.ofLines records = .ok m' ∧
      m.Alike m' := by
  obtain ⟨hcoded, hevents⟩ := Model.records_of_ofLines h hlines
  obtain ⟨-, b, henter, rfl⟩ := Stream.ofLines_eq_ok_iff.mp h
  have hsame : (Stream.eventsFrom 1 lines).map Prod.fst =
      (Stream.eventsFrom 1 b.finish.records).map Prod.fst := by
    rw [Stream.map_fst_eventsFrom, Stream.map_fst_eventsFrom, hevents]
  have hempty : Builder.Alike {} {} := ⟨rfl, rfl, rfl, rfl⟩
  obtain ⟨b', henter', halike⟩ := hempty.enterAll? hsame henter
  exact ⟨_, b'.finish, Model.records?_toJson _,
    Stream.ofLines_eq_ok_iff.mpr ⟨hcoded, b', henter', rfl⟩, halike.finish⟩

/-- A text that shares its record with a code, two backslashes before a symbol, and a marker. -/
theorem rebuilt_escapes :
    let lines : List Text := ["UTF-8\r\n".toList, "#\\→".toList, "Sa\\n b".toList, "s".toList,
      "T\\\\→\t".toList, "N".toList, "n".toList]
    let entries : List Entry :=
      [ ⟨⟨'U', .byteOrderMark, "BOM".toList⟩, "UTF-8".toList, some 1, 1, false⟩,
        ⟨⟨'S', .opening, "Scalar".toList⟩, [], some 2, 3, false⟩,
        ⟨CodeTable.text, "a↓·b".toList, some 3, 3, false⟩,
        ⟨⟨'s', .closing, "Scalar".toList⟩, [], none, 4, false⟩,
        ⟨CodeTable.text, "\\\\→→".toList, some 4, 5, false⟩,
        ⟨⟨'N', .opening, "Node".toList⟩, [], some 5, 6, false⟩,
        ⟨CodeTable.empty, ['°'], some 6, 7, true⟩,
        ⟨⟨'n', .closing, "Node".toList⟩, [], none, 7, false⟩ ]
    Model.ofLines lines = .ok { entries } ∧ (∀ line ∈ lines, line.Rebuildable) ∧
      Model.records { entries } =
        ["UTF-8\r\n".toList, "S\r\n".toList, "Ta\\n b\r\n".toList, "s\r\n".toList,
          "T\\\\\\t\\t\r\n".toList, "N\r\n".toList, "n\r\n".toList] ∧
      ∃ records m', (Model.toJson { entries }).records? = some records ∧
        Model.ofLines records = .ok m' ∧ Model.Alike { entries } m' := by
  intro lines entries
  have h : Model.ofLines lines = .ok { entries } :=
    Stream.ofLines_eq_ok_of_toOption (by decide +kernel)
  have hlines : ∀ line ∈ lines, line.Rebuildable := by decide
  exact ⟨h, hlines, rfl, rebuilt_of_ofLines h hlines⟩

end Yeast
