import Yeast.Proofs.Ending

set_option autoImplicit false

/-! # Balanced blocks

A builder that has read some lines reads on as a builder that has read none (`Stacked`): the scopes
it has open lie below those of the other, the ids and lines go on from its own, and all that can
happen to the scopes below is that they get content. If the other leaves no scope open, nothing is
left above them. So lines that are a stream by themselves add their own entries to those of any
stream before them, with ids and lines raised (`Stream.exists_stacked`).
-/

namespace Yeast

/-- The entry with its id and its line raised. -/
def Entry.raised (ids lines : Nat) (e : Entry) : Entry :=
  { e with id := e.id.map (· + (ids : Int)), line := e.line + lines }

def OpenScope.raised (lines : Nat) (s : OpenScope) : OpenScope := { s with line := s.line + lines }

def Model.idCount (m : Model) : Nat := (m.entries.filterMap Entry.id).length

namespace Builder

/-- The builder `b'` has gone on from `base` as `b` has from nothing. -/
structure Stacked (base : Builder) (ids lines : Nat) (b b' : Builder) : Prop where
  nesting : b'.nesting = b.nesting.map (OpenScope.raised lines) ++ base.nesting
  content : b'.content =
    b.content ++ base.content.map (· || b.entries.toList.any Entry.isContent)
  entries : b'.entries.toList =
    base.entries.toList ++ b.entries.toList.map (Entry.raised ids lines)
  nextId : b'.nextId = b.nextId + ids

namespace Stacked

variable {base b b' : Builder} {ids lines : Nat}

theorem withLeaf (h : Stacked base ids lines b b') {d : Descriptor} (hd : d.kind ≠ .closing)
    (text : Text) (line : Int) :
    Stacked base ids lines (b.withLeaf d text line) (b'.withLeaf d text (line + lines)) where
  nesting := by rw [withLeaf_nesting, withLeaf_nesting, h.nesting]
  content := by
    have hleaf : Entry.isContent ⟨d, text, some b.nextId, line, false⟩ = !text.isEmpty := by
      simp [Entry.isContent, Entry.kind, hd]
    rw [withLeaf_content, withLeaf_content, withLeaf_entries, List.any_append, List.any_cons,
      List.any_nil, hleaf, h.content]
    cases text.isEmpty <;> simp
  entries := by
    rw [withLeaf_entries, withLeaf_entries, h.entries, h.nextId]
    simp [Entry.raised]
  nextId := by
    rw [withLeaf_nextId, withLeaf_nextId, h.nextId]
    omega

theorem opened (h : Stacked base ids lines b b') {d : Descriptor} (hd : d.kind = .opening)
    (line : Int) :
    Stacked base ids lines (b.opened d line) (b'.opened d (line + lines)) where
  nesting := by
    rw [opened_nesting, opened_nesting, h.nesting]
    rfl
  content := by
    have hopening : Entry.isContent ⟨d, [], some b.nextId, line, false⟩ = false := by
      simp [Entry.isContent, Entry.kind, hd]
    rw [opened_content, opened_content, opened_entries, List.any_append, List.any_cons,
      List.any_nil, hopening, h.content]
    simp
  entries := by
    rw [opened_entries, opened_entries, h.entries, h.nextId]
    simp [Entry.raised]
  nextId := by
    rw [opened_nextId, opened_nextId, h.nextId]
    omega

/-- A scope is left with the mark that it has in either builder. -/
theorem closed (h : Stacked base ids lines b b') {d : Descriptor} (hd : d.kind = .closing)
    (line : Int) {s : OpenScope} {outer : List OpenScope} (hnesting : b.nesting = s :: outer)
    {mark : Bool} {marks : List Bool} (hcontent : b.content = mark :: marks) :
    Stacked base ids lines (b.closed d line) (b'.closed d (line + lines)) where
  nesting := by
    rw [closed_nesting, closed_nesting, h.nesting, hnesting]
    rfl
  content := by
    have hclosing : Entry.isContent ⟨d, [], none, line, false⟩ = true := by
      simp [Entry.isContent, Entry.kind, hd]
    rw [closed_content, closed_content, closed_entries, List.any_append, List.any_cons, hclosing,
      h.content, hcontent]
    simp
  entries := by
    rw [closed_entries, closed_entries, h.entries, h.content, hcontent]
    cases mark <;> simp [Entry.raised, marker, h.nextId]
  nextId := by
    rw [closed_nextId, closed_nextId, left_nextId, left_nextId, h.content, hcontent, h.nextId]
    cases mark <;> simp
    omega

/-- What can be entered at the one builder can be entered at the other. -/
theorem enter? (h : Stacked base ids lines b b') (hb : b.Sound) {e : Event} {line : Int}
    {c : Builder} (henter : b.enter? e line = some c) :
    ∃ c', b'.enter? e (line + lines) = some c' ∧ Stacked base ids lines c c' := by
  by_cases hopen : e.descriptor.kind = .opening
  · rw [enter?_opening b hopen, Option.some.injEq] at henter
    exact ⟨_, enter?_opening b' hopen _, henter ▸ h.opened hopen line⟩
  by_cases hclose : e.descriptor.kind = .closing
  · obtain ⟨⟨s, outer, hnesting, htitle⟩, rfl⟩ := (enter?_closing_eq_some_iff hclose).mp henter
    have hlength := hb.length_content
    rw [hnesting, List.length_cons] at hlength
    obtain ⟨mark, marks, hcontent⟩ := List.exists_cons_of_length_eq_add_one hlength
    have hnesting' : b'.nesting =
        s.raised lines :: (outer.map (OpenScope.raised lines) ++ base.nesting) := by
      rw [h.nesting, hnesting]
      rfl
    refine ⟨_, (enter?_closing_eq_some_iff hclose).mpr ⟨⟨_, _, hnesting', htitle⟩, rfl⟩, ?_⟩
    exact h.closed hclose line hnesting hcontent
  · rw [enter?_leaf b hopen hclose, Option.some.injEq] at henter
    exact ⟨_, enter?_leaf b' hopen hclose _, henter ▸ h.withLeaf hclose _ line⟩

/-- Before anything is entered. -/
theorem start (hbase : base.nextId = 1 + ids) : Stacked base ids lines {} base where
  nesting := rfl
  content := by simp
  entries := by simp
  nextId := hbase

end Stacked

theorem Sound.enter? {b c : Builder} (hb : b.Sound) {e : Event} {line : Int}
    (h : b.enter? e line = some c) : c.Sound := by
  by_cases hopen : e.descriptor.kind = .opening
  · rw [enter?_opening b hopen, Option.some.injEq] at h
    exact h ▸ hb.opened _ _
  by_cases hclose : e.descriptor.kind = .closing
  · obtain ⟨-, rfl⟩ := (enter?_closing_eq_some_iff hclose).mp h
    exact hb.closed _ _
  · rw [enter?_leaf b hopen hclose, Option.some.injEq] at h
    exact h ▸ hb.withLeaf _ _ _

theorem Stacked.enterAll? {base b b' c : Builder} {ids lines : Nat}
    (h : Stacked base ids lines b b') (hb : b.Sound) {events : List (Event × Int)}
    (henter : b.enterAll? events = some c) :
    ∃ c', b'.enterAll? (events.map fun x => (x.1, x.2 + (lines : Int))) = some c' ∧
      Stacked base ids lines c c' := by
  induction events generalizing b b' with
  | nil =>
      rw [enterAll?_nil, Option.some.injEq] at henter
      exact ⟨b', rfl, henter ▸ h⟩
  | cons x events ih =>
      obtain ⟨c₁, hx, hrest⟩ := Option.bind_eq_some_iff.mp henter
      obtain ⟨c₁', hx', h₁⟩ := h.enter? hb hx
      obtain ⟨c', hrest', hc⟩ := ih h₁ (hb.enter? hx) hrest
      refine ⟨c', ?_, hc⟩
      rw [List.map_cons, enterAll?_cons, hx', Option.bind_some, hrest']

/-- The next id is the one behind those that are given. -/
theorem Reached.nextId_eq {b : Builder} (h : b.Reached) : b.nextId = 1 + b.finish.idCount := by
  show b.nextId = 1 + ((b.entries.toList.filterMap Entry.id).length : Int)
  induction h with
  | empty => rfl
  | @move b b' _ hmove ih =>
      cases hmove with
      | leaf =>
          rw [withLeaf_nextId, withLeaf_entries, List.filterMap_append, List.length_append, ih]
          simp
          omega
      | opening =>
          rw [opened_nextId, opened_entries, List.filterMap_append, List.length_append, ih]
          simp
          omega
      | closing =>
          rw [closed_nextId, left_nextId, closed_entries, List.filterMap_append,
            List.filterMap_append, List.length_append, List.length_append, ih]
          split
          · simp
          · simp [marker]
            omega

end Builder

namespace Stream

open Builder

/-- Lines under higher numbers have the same events. -/
theorem eventsFrom_add (number shift : Int) (lines : List Text) :
    eventsFrom (number + shift) lines =
      (eventsFrom number lines).map fun x => (x.1, x.2 + shift) := by
  induction lines generalizing number with
  | nil => rfl
  | cons line lines ih =>
      have hnumber : number + shift + 1 = number + 1 + shift := by omega
      rw [eventsFrom, eventsFrom, List.map_append, hnumber, ih, List.map_map]
      rfl

/-- The state that a stream leads to. -/
theorem exists_run_of_ofLines {lines : List Text} {m : Model} (h : Model.ofLines lines = .ok m) :
    ∃ b, (feedAll lines 1).run {} = .ok () b ∧ b.Reached ∧ m = b.finish := by
  obtain ⟨b, hb, hcoded, henter, rfl⟩ := exists_reached_of_ofLines h
  exact ⟨b, (feedAll_run_eq_ok_iff .empty (by omega)).mpr ⟨hcoded, henter⟩, hb, rfl⟩

/-- What reading has come to, as a model. -/
def outcome : EStateM.Result StreamFault Builder Unit → Except StreamFault Model
  | .ok _ b => .ok b.finish
  | .error fault _ => .error fault

theorem outcome_eq_ok_iff {result : EStateM.Result StreamFault Builder Unit} {m : Model} :
    outcome result = .ok m ↔ ∃ b, result = .ok () b ∧ m = b.finish := by
  cases result with
  | ok _ b => simp [outcome, eq_comm]
  | error fault b => simp [outcome]

theorem outcome_eq_error_iff {result : EStateM.Result StreamFault Builder Unit}
    {fault : StreamFault} : outcome result = .error fault ↔ ∃ b, result = .error fault b := by
  cases result with
  | ok _ b => simp [outcome]
  | error fault b => simp [outcome]

theorem ofLines_eq_outcome (lines : List Text) :
    Model.ofLines lines = outcome ((feedAll lines 1).run {}) := rfl

/-- Lines behind a stream are read from the state that it leads to. -/
theorem ofLines_append {lines : List Text} {b : Builder}
    (h : (feedAll lines 1).run {} = .ok () b) (more : List Text) :
    Model.ofLines (lines ++ more) = outcome ((feedAll more (1 + lines.length)).run b) := by
  simp only [ofLines_eq_outcome, feedAll_append, h]

/-- Lines that are a stream by themselves can be read behind another stream. -/
theorem exists_stacked (lines : List Text) {block : List Text} {a b : Builder} (ha : a.Reached)
    (hb : (feedAll block 1).run {} = .ok () b) :
    ∃ c, (feedAll block (1 + lines.length)).run a = .ok () c ∧
      Stacked a a.finish.idCount lines.length b c := by
  obtain ⟨hcoded, henter⟩ := (feedAll_run_eq_ok_iff .empty (by omega)).mp hb
  have hstart : Stacked a a.finish.idCount lines.length {} a := .start ha.nextId_eq
  obtain ⟨c, hc, hstacked⟩ := hstart.enterAll? .empty henter
  rw [← eventsFrom_add] at hc
  exact ⟨c, (feedAll_run_eq_ok_iff ha.orderly (by omega)).mpr ⟨hcoded, hc⟩, hstacked⟩

end Stream

end Yeast
