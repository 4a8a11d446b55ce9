import Yeast.Proofs.Events
import Yeast.Proofs.Ids
import Yeast.Proofs.Spelling

set_option autoImplicit false

/-! # The model transcribes the stream

Nothing of a stream is lost in its model, nothing is invented and nothing changes places. Each line
yields certain entries, in a way that its code decides (`Text.Yields`); the entries of the model
that are not synthetic are those of the first line, then those of the second, and so on. Every
entry has the number of its line, and all but the closing ones are numbered from one on. The scopes
left open are those whose opening entries have no end (`Model.Transcribes`).

The entries of a line are its events (`Stream.events_of_ofLines`), which are defined by the text
that is shown; a line yields by the text that it spells. The two agree because no text is shown as
nothing (`Text.withPlaceholders_eq_nil_iff`).
-/

namespace Yeast

/-- The text behind a code that opens or closes a scope is an entry of its own, if there is any. -/
def Text.sharedEntry (rest : Text) : List Event :=
  if rest = [] then [] else [⟨CodeTable.text, rest.withPlaceholders⟩]

/-- What the entries of a line are: a comment yields none, and a token one with its text. Where the
token opens or closes a scope its text is not its own, but lies in the scope. -/
inductive Text.Yields (line : Text) : List Event → Prop
  | comment {rest : Text} : line.withoutTerminator = CodeTable.comment :: rest → Yields line []
  | leaf {d : Descriptor} {rest : Text} : line.withoutTerminator = d.code :: rest →
      d ∈ CodeTable.descriptors → d.kind ≠ .opening → d.kind ≠ .closing →
      Yields line [⟨d, d.shownText rest⟩]
  | opening {d : Descriptor} {rest : Text} : line.withoutTerminator = d.code :: rest →
      d ∈ CodeTable.descriptors → d.kind = .opening →
      Yields line (⟨d, []⟩ :: rest.sharedEntry)
  | closing {d : Descriptor} {rest : Text} : line.withoutTerminator = d.code :: rest →
      d ∈ CodeTable.descriptors → d.kind = .closing →
      Yields line (rest.sharedEntry ++ [⟨d, []⟩])

namespace Model

/-- The entry at `i` begins a scope that does not end. -/
def Unended (m : Model) (i : Nat) : Prop :=
  (∃ o, m.entries[i]? = some o ∧ o.kind = .opening) ∧ ∀ j, ¬ m.Matches i j

/-- The model holds what the lines hold, in their order. -/
structure Transcribes (m : Model) (lines : List Text) : Prop where
  /-- The entries that are not synthetic come in as many parts as there are lines, and each part is
  what its line yields, under the number of the line. -/
  parts : ∃ parts : List (List Entry), m.entries.filter (fun e => !e.synthetic) = parts.flatten ∧
    parts.length = lines.length ∧ ∀ (k : Nat) line part, lines[k]? = some line →
      parts[k]? = some part → line.Yields (part.map Entry.event) ∧
        ∀ e ∈ part, e.line = (k : Int) + 1
  /-- A synthetic entry has the number of the line that ends its scope. -/
  synthetic : ∀ p e, m.entries[p]? = some e → e.synthetic = true →
    ∃ c, m.entries[p + 1]? = some c ∧ c.kind = .closing ∧ c.synthetic = false ∧ e.line = c.line
  unnumbered : ∀ e ∈ m.entries, e.kind = .closing → e.id = none
  /-- All other entries have the ids from one on. -/
  numbered : m.shown.map Entry.id =
    (List.range m.shown.length).map fun k : Nat => some (k + 1 : Int)
  /-- The scopes left open are begun by the entries that have no end, each of them in the scopes
  of those before it. -/
  openScopes : ∃ positions : List Nat, positions.Pairwise m.Encloses ∧
    (∀ i, i ∈ positions ↔ m.Unended i) ∧
    m.openScopes.map some = positions.map fun i => m.entries[i]?.map Builder.scopeOf

end Model

/-! ## The entries of a line -/

theorem Text.sharedEvents_withPlaceholders (rest : Text) :
    rest.withPlaceholders.sharedEvents = rest.sharedEntry := by
  unfold Text.sharedEvents Text.sharedEntry
  simp only [List.isEmpty_iff, Text.withPlaceholders_eq_nil_iff]

/-- A line with a code yields its events. -/
theorem Text.yields_events {line : Text} (h : Stream.Coded line) : line.Yields line.events := by
  cases hreading : line.reading with
  | blank => exact absurd h (Stream.not_coded_of_nil (Stream.reading_eq_blank hreading))
  | unknown code =>
      obtain ⟨rest, hline, hcomment, hunknown⟩ := Stream.reading_eq_unknown hreading
      exact absurd h (Stream.not_coded_of_unknown hline hcomment hunknown)
  | comment =>
      obtain ⟨rest, hline⟩ := Stream.reading_eq_comment hreading
      have hevents : line.events = [] := by rw [Text.events, hreading]
      rw [hevents]
      exact .comment hline
  | token d text =>
      obtain ⟨hmem, rest, hline, rfl⟩ := Text.reading_eq_token hreading
      rw [Text.events_of_reading hreading]
      by_cases hopen : d.kind = .opening
      · have hshown : d.shownText rest = Text.withPlaceholders rest :=
          if_neg (by rw [hopen]; decide)
        rw [Descriptor.events_opening hopen, hshown, Text.sharedEvents_withPlaceholders]
        exact .opening hline hmem hopen
      by_cases hclose : d.kind = .closing
      · have hshown : d.shownText rest = Text.withPlaceholders rest :=
          if_neg (by rw [hclose]; decide)
        rw [Descriptor.events_closing hclose, hshown, Text.sharedEvents_withPlaceholders]
        exact .closing hline hmem hclose
      · rw [Descriptor.events_leaf hopen hclose]
        exact .leaf hline hmem hopen hclose

/-- Entries with the events of lines come in parts, one for each line. -/
theorem Stream.exists_parts {lines : List Text} {number : Int} {entries : List Entry}
    (h : entries.map (fun e => (e.event, e.line)) = eventsFrom number lines) :
    ∃ parts : List (List Entry), entries = parts.flatten ∧ parts.length = lines.length ∧
      ∀ (k : Nat) line part, lines[k]? = some line → parts[k]? = some part →
        part.map Entry.event = line.events ∧ ∀ e ∈ part, e.line = number + (k : Int) := by
  induction lines generalizing number entries with
  | nil =>
      refine ⟨[], ?_, rfl, by simp⟩
      simpa [eventsFrom] using h
  | cons line lines ih =>
      rw [eventsFrom] at h
      obtain ⟨part, rest, rfl, hpart, hrest⟩ := List.map_eq_append_iff.mp h
      obtain ⟨parts, rfl, hlength, hparts⟩ := ih hrest
      refine ⟨part :: parts, by simp, by simp [hlength], ?_⟩
      intro k line' part' hline' hpart'
      cases k with
      | zero =>
          obtain rfl : line = line' := by simpa using hline'
          obtain rfl : part = part' := by simpa using hpart'
          constructor
          · have hevents := congrArg (List.map Prod.fst) hpart
            simpa [List.map_map, Function.comp_def] using hevents
          · intro e he
            have hmem := List.mem_map_of_mem (f := fun e : Entry => (e.event, e.line)) he
            rw [hpart] at hmem
            obtain ⟨x, -, hx⟩ := List.mem_map.mp hmem
            simpa using (congrArg Prod.snd hx).symm
      | succ k =>
          obtain ⟨hevents, hnumbers⟩ := hparts k line' part' (by simpa using hline')
            (by simpa using hpart')
          refine ⟨hevents, fun e he => ?_⟩
          rw [hnumbers e he]
          push_cast
          omega

namespace Model

variable {lines : List Text} {m : Model}

theorem exists_parts_of_ofLines (h : ofLines lines = .ok m) :
    ∃ parts : List (List Entry), m.entries.filter (fun e => !e.synthetic) = parts.flatten ∧
      parts.length = lines.length ∧ ∀ (k : Nat) line part, lines[k]? = some line →
        parts[k]? = some part → line.Yields (part.map Entry.event) ∧
          ∀ e ∈ part, e.line = (k : Int) + 1 := by
  obtain ⟨hcoded, -⟩ := Stream.ofLines_eq_ok_iff.mp h
  obtain ⟨parts, hflatten, hlength, hparts⟩ := Stream.exists_parts (Stream.events_of_ofLines h)
  refine ⟨parts, hflatten, hlength, fun k line part hline hpart => ?_⟩
  obtain ⟨hevents, hnumbers⟩ := hparts k line part hline hpart
  constructor
  · rw [hevents]
    exact Text.yields_events (hcoded line (List.mem_of_getElem? hline))
  · intro e he
    rw [hnumbers e he]
    omega

/-! ## Ids and open scopes -/

theorem map_id_shown (h : ofLines lines = .ok m) :
    m.shown.map Entry.id = (List.range m.shown.length).map fun k : Nat => some (k + 1 : Int) := by
  obtain ⟨b, hb, rfl⟩ := Builder.reached_of_ofLines h
  obtain ⟨n, -, hids⟩ := hb.orderly.numbered
  have hids : b.finish.shown.map Entry.id =
      (List.range n).map fun k : Nat => some (k + 1 : Int) := hids
  have hlength := congrArg List.length hids
  rw [List.length_map, List.length_map, List.length_range] at hlength
  rw [hids, hlength]

theorem unended_iff (m : Model) (i : Nat) :
    Bracket.Unended Entry.EndedBy m.brackets i ↔ m.Unended i := by
  unfold Bracket.Unended Unended
  refine and_congr_left fun _ => ?_
  rw [brackets_getElem?]
  constructor
  · rintro ⟨a, ha⟩
    obtain ⟨o, ho, hbracket⟩ := Option.map_eq_some_iff.mp ha
    obtain ⟨rfl, hkind⟩ := Entry.eq_of_bracket_opening hbracket
    exact ⟨o, ho, hkind⟩
  · rintro ⟨o, ho, hkind⟩
    exact ⟨o, by rw [ho, Option.map_some, Entry.bracket_of_opening hkind]⟩

/-- Where positions hold opening entries, they hold the entries that begin their scopes. -/
theorem map_scopeOf_of_bracket {entries openers : List Entry} {positions : List Nat}
    (h : positions.map (fun i => entries[i]?.map Entry.bracket) =
      openers.map fun o => some (Bracket.opening o)) :
    positions.map (fun i => entries[i]?.map Builder.scopeOf) =
      openers.map fun o => some (Builder.scopeOf o) := by
  induction positions generalizing openers with
  | nil =>
      obtain rfl := List.map_eq_nil_iff.mp h.symm
      rfl
  | cons i positions ih =>
      obtain ⟨o, rest, rfl, ho, hrest⟩ := List.map_eq_cons_iff.mp h.symm
      obtain ⟨e, he, hbracket⟩ := Option.map_eq_some_iff.mp ho.symm
      obtain ⟨rfl, -⟩ := Entry.eq_of_bracket_opening hbracket
      rw [List.map_cons, List.map_cons, he, ih hrest.symm]
      rfl

/-- The scopes left open are those of the entries without an end, in order. -/
theorem exists_positions (h : ofLines lines = .ok m) :
    ∃ positions : List Nat, positions.Pairwise m.Encloses ∧
      (∀ i, i ∈ positions ↔ m.Unended i) ∧
      m.openScopes.map some = positions.map fun i => m.entries[i]?.map Builder.scopeOf := by
  obtain ⟨b, hb, rfl⟩ := Builder.reached_of_ofLines h
  obtain ⟨openers, hword, hnesting⟩ := hb.nesting_eq
  have hword : Bracket.remaining Entry.EndedBy [] b.finish.brackets = some openers := hword
  obtain ⟨positions, hsorted, hmem, hletters⟩ := Bracket.exists_unended hword
  refine ⟨positions, ?_, fun i => (hmem i).trans (unended_iff _ i), ?_⟩
  · -- What follows an opening entry without an end lies in its scope.
    refine hsorted.imp_of_mem fun {i j} hi _ hij => ?_
    obtain ⟨hopening, hunended⟩ := (hmem i).mp hi
    exact ⟨hopening, hij, fun k hk => absurd hk (hunended k)⟩
  · have hscopes : b.finish.openScopes.map some =
        openers.reverse.map fun o => some (Builder.scopeOf o) := by
      show b.nesting.reverse.map some = _
      rw [hnesting, ← List.map_reverse, List.map_map]
      rfl
    have hentries : positions.map (fun i => b.finish.entries[i]?.map Entry.bracket) =
        openers.reverse.map fun o => some (Bracket.opening o) := by
      simpa only [brackets_getElem?] using hletters
    rw [hscopes]
    exact (map_scopeOf_of_bracket hentries).symm

/-! ## Synthetic entries -/

/-- A synthetic entry has the line of the entry behind it, which ends its scope. -/
theorem line_of_synthetic (h : ofLines lines = .ok m) {p : Nat} {e : Entry}
    (hp : m.entries[p]? = some e) (hs : e.synthetic = true) :
    ∃ c, m.entries[p + 1]? = some c ∧ c.kind = .closing ∧ c.synthetic = false ∧
      e.line = c.line := by
  obtain ⟨c, hc, hkind, hmarks⟩ := (tidy_of_ofLines h).followed p e hp hs
  refine ⟨c, hc, hkind, ?_, hmarks.2.2.2⟩
  cases hsynthetic : c.synthetic with
  | false => rfl
  | true => exact absurd hkind (leaf_of_synthetic h hc hsynthetic).2

/-! ## Lines -/

/-- The entries of a stream have the numbers of its lines. -/
theorem line_le_of_ofLines (h : ofLines lines = .ok m) :
    ∀ e ∈ m.entries, e.line ≤ lines.length := by
  obtain ⟨parts, hflatten, hlength, hparts⟩ := exists_parts_of_ofLines h
  have hread : ∀ e ∈ m.entries, e.synthetic = false → e.line ≤ lines.length := by
    intro e he hs
    have hmem : e ∈ m.entries.filter fun e => !e.synthetic := by simp [he, hs]
    rw [hflatten] at hmem
    obtain ⟨part, hpart, he⟩ := List.mem_flatten.mp hmem
    obtain ⟨k, hk, rfl⟩ := List.mem_iff_getElem.mp hpart
    have hline := List.getElem?_eq_getElem (l := lines) (i := k) (by omega)
    rw [(hparts k _ _ hline (List.getElem?_eq_getElem hk)).2 e he]
    omega
  intro e he
  cases hs : e.synthetic with
  | false => exact hread e he hs
  | true =>
      -- A marker has the line of the entry behind it.
      obtain ⟨p, hp⟩ := List.mem_iff_getElem?.mp he
      obtain ⟨c, hc, -, hread', hline⟩ := line_of_synthetic h hp hs
      rw [hline]
      exact hread c (List.mem_of_getElem? hc) hread'

/-- Every scope left open is that of an entry. -/
theorem exists_entry_of_mem_openScopes (h : ofLines lines = .ok m) {s : OpenScope}
    (hs : s ∈ m.openScopes) : ∃ e ∈ m.entries, Builder.scopeOf e = s := by
  obtain ⟨positions, -, -, hscopes⟩ := exists_positions h
  have hmem := List.mem_map_of_mem (f := some) hs
  rw [hscopes] at hmem
  obtain ⟨i, -, hi⟩ := List.mem_map.mp hmem
  obtain ⟨e, he, hscope⟩ := Option.map_eq_some_iff.mp hi
  exact ⟨e, List.mem_of_getElem? he, hscope⟩

/-- The scopes left open have the lines of entries. -/
theorem line_le_of_mem_openScopes (h : ofLines lines = .ok m) :
    ∀ s ∈ m.openScopes, s.line ≤ lines.length := by
  intro s hs
  obtain ⟨e, he, rfl⟩ := exists_entry_of_mem_openScopes h hs
  exact line_le_of_ofLines h e he

end Model

/-- **The model of a stream transcribes it.** -/
theorem transcribes_of_ofLines {lines : List Text} {m : Model}
    (h : Model.ofLines lines = .ok m) : m.Transcribes lines where
  parts := Model.exists_parts_of_ofLines h
  synthetic := fun _ _ hp hs => Model.line_of_synthetic h hp hs
  unnumbered := fun e he hkind => (Model.regular_of_ofLines h e he).id_closing hkind
  numbered := Model.map_id_shown h
  openScopes := Model.exists_positions h

/-- A comment, a byte order mark, a mapping that is left open with a text in its own record, and
in it a scalar without content. -/
theorem transcribes_unclosed :
    let lines : List Text :=
      ["#by hand".toList, "UTF-8".toList, "Ma b".toList, "S".toList, "s".toList]
    let m : Model :=
      { entries :=
          [ ⟨⟨'U', .byteOrderMark, "BOM".toList⟩, "UTF-8".toList, some 1, 2, false⟩,
            ⟨⟨'M', .opening, "Mapping".toList⟩, [], some 2, 3, false⟩,
            ⟨CodeTable.text, "a·b".toList, some 3, 3, false⟩,
            ⟨⟨'S', .opening, "Scalar".toList⟩, [], some 4, 4, false⟩,
            ⟨CodeTable.empty, ['°'], some 5, 5, true⟩,
            ⟨⟨'s', .closing, "Scalar".toList⟩, [], none, 5, false⟩ ]
        openScopes := [⟨3, ⟨'M', .opening, "Mapping".toList⟩⟩] }
    Model.ofLines lines = .ok m ∧ m.Transcribes lines := by
  intro lines m
  have h : Model.ofLines lines = .ok m :=
    Stream.ofLines_eq_ok_of_toOption (by decide +kernel)
  exact ⟨h, transcribes_of_ofLines h⟩

end Yeast
