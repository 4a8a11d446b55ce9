import Yeast.Proofs.Forest
import Yeast.Proofs.Moves

set_option autoImplicit false

/-! # The trace of a builder

The entries that a builder has written determine the rest of its state. They form a bracket word,
whose stack is the nesting (`Reached.nesting_eq`), and what they say about the content of the open
scopes is what the marks say (`Reached.content_eq`). The innermost mark is set iff something that
counts as content, a text that is not empty or the end of a scope, stands behind the innermost
opening entry (`headD_marksFrom`).

Each entry that moves lead to is regular: it has an id iff it does not close, it has no text if it
opens or closes, and its descriptor is of the table unless it is a marker.
-/

namespace Yeast

namespace Entry

def bracket (e : Entry) : Bracket Entry Entry :=
  match e.kind with
  | .opening => .opening e
  | .closing => .closing e
  | _ => .single e

/-- A closing entry ends a scope of its own title. -/
def EndedBy (o c : Entry) : Prop := o.title = c.title

instance : DecidableRel EndedBy := fun o c => inferInstanceAs (Decidable (o.title = c.title))

theorem bracket_of_opening {e : Entry} (h : e.kind = .opening) : e.bracket = .opening e := by
  rw [bracket, h]

theorem bracket_of_closing {e : Entry} (h : e.kind = .closing) : e.bracket = .closing e := by
  rw [bracket, h]

theorem bracket_of_leaf {e : Entry} (ho : e.kind ≠ .opening) (hc : e.kind ≠ .closing) :
    e.bracket = .single e := by
  unfold bracket
  split
  · exact absurd ‹_› ho
  · exact absurd ‹_› hc
  · rfl

theorem eq_of_bracket_opening {e o : Entry} (h : e.bracket = .opening o) :
    e = o ∧ o.kind = .opening := by
  by_cases ho : e.kind = .opening
  · rw [bracket_of_opening ho, Bracket.opening.injEq] at h
    exact ⟨h, h ▸ ho⟩
  by_cases hc : e.kind = .closing
  · simp [bracket_of_closing hc] at h
  · simp [bracket_of_leaf ho hc] at h

theorem eq_of_bracket_closing {e c : Entry} (h : e.bracket = .closing c) :
    e = c ∧ c.kind = .closing := by
  by_cases ho : e.kind = .opening
  · simp [bracket_of_opening ho] at h
  by_cases hc : e.kind = .closing
  · rw [bracket_of_closing hc, Bracket.closing.injEq] at h
    exact ⟨h, h ▸ hc⟩
  · simp [bracket_of_leaf ho hc] at h

theorem eq_of_bracket_single {e a : Entry} (h : e.bracket = .single a) :
    e = a ∧ a.kind ≠ .opening ∧ a.kind ≠ .closing := by
  by_cases ho : e.kind = .opening
  · simp [bracket_of_opening ho] at h
  by_cases hc : e.kind = .closing
  · simp [bracket_of_closing hc] at h
  · rw [bracket_of_leaf ho hc, Bracket.single.injEq] at h
    exact ⟨h, h ▸ ho, h ▸ hc⟩

/-- Entries that form a balanced word. -/
abbrev Balanced (entries : List Entry) : Prop :=
  Bracket.Balanced EndedBy (entries.map bracket)

namespace Balanced

theorem nil : Balanced [] := Bracket.Balanced.nil

theorem leaf {e : Entry} {entries : List Entry} (ho : e.kind ≠ .opening) (hc : e.kind ≠ .closing)
    (h : Balanced entries) : Balanced (e :: entries) := by
  rw [Balanced, List.map_cons, bracket_of_leaf ho hc]
  exact .single h

theorem scope {o c : Entry} {inner rest : List Entry} (ho : o.kind = .opening)
    (hc : c.kind = .closing) (hends : EndedBy o c) (hinner : Balanced inner)
    (hrest : Balanced rest) : Balanced (o :: (inner ++ c :: rest)) := by
  rw [Balanced, List.map_cons, List.map_append, List.map_cons, bracket_of_opening ho,
    bracket_of_closing hc]
  exact .scope hends hinner hrest

/-- Entries that form a balanced word are leaves and scopes, each in turn. -/
@[elab_as_elim]
theorem rec_entries {motive : ∀ entries, Balanced entries → Prop} (nil : motive [] nil)
    (leaf : ∀ e entries (ho : e.kind ≠ .opening) (hc : e.kind ≠ .closing) (h : Balanced entries),
      motive entries h → motive (e :: entries) (h.leaf ho hc))
    (scope : ∀ o inner c rest (ho : o.kind = .opening) (hc : c.kind = .closing)
      (hends : EndedBy o c) (hinner : Balanced inner) (hrest : Balanced rest),
      motive inner hinner → motive rest hrest →
        motive (o :: (inner ++ c :: rest)) (scope ho hc hends hinner hrest))
    {entries : List Entry} (h : Balanced entries) : motive entries h := by
  -- the induction is on the word, whose letters the entries have to be found for
  have key : ∀ w, Bracket.Balanced EndedBy w → ∀ entries (h : Balanced entries),
      entries.map bracket = w → motive entries h := by
    intro w hw
    induction hw with
    | nil =>
        intro entries h hmap
        obtain rfl := List.map_eq_nil_iff.mp hmap
        exact nil
    | single hbalanced ih =>
        intro entries h hmap
        obtain ⟨e, rest, rfl, he, rfl⟩ := List.map_eq_cons_iff.mp hmap
        obtain ⟨rfl, ho, hc⟩ := eq_of_bracket_single he
        exact leaf _ _ ho hc hbalanced (ih _ hbalanced rfl)
    | scope hends hinner hrest ihinner ihrest =>
        intro entries h hmap
        obtain ⟨o, tail, rfl, ho, htail⟩ := List.map_eq_cons_iff.mp hmap
        obtain ⟨inner, tail', rfl, rfl, hend⟩ := List.map_eq_append_iff.mp htail
        obtain ⟨c, rest, rfl, hc, rfl⟩ := List.map_eq_cons_iff.mp hend
        obtain ⟨rfl, ho⟩ := eq_of_bracket_opening ho
        obtain ⟨rfl, hc⟩ := eq_of_bracket_closing hc
        exact scope _ _ _ _ ho hc hends hinner hrest (ihinner _ hinner rfl) (ihrest _ hrest rfl)
  exact key _ h _ h rfl

end Balanced

/-! ## Content -/

/-- The entry is content of the scopes around it. -/
def isContent (e : Entry) : Bool := e.kind == .closing || !e.text.isEmpty

/-- The marks of the open scopes behind entries, where those before them are `marks`. -/
def marksFrom : List Bool → List Entry → List Bool
  | marks, [] => marks
  | marks, e :: entries =>
    match e.kind with
    | .opening => marksFrom (false :: marks) entries
    | .closing => marksFrom (marks.tail.map fun _ => true) entries
    | _ => marksFrom (if e.text.isEmpty then marks else marks.map fun _ => true) entries

theorem marksFrom_opening {e : Entry} (h : e.kind = .opening) (marks : List Bool)
    (entries : List Entry) :
    marksFrom marks (e :: entries) = marksFrom (false :: marks) entries := by
  rw [marksFrom, h]

theorem marksFrom_closing {e : Entry} (h : e.kind = .closing) (marks : List Bool)
    (entries : List Entry) :
    marksFrom marks (e :: entries) = marksFrom (marks.tail.map fun _ => true) entries := by
  rw [marksFrom, h]

theorem marksFrom_leaf {e : Entry} (ho : e.kind ≠ .opening) (hc : e.kind ≠ .closing)
    (marks : List Bool) (entries : List Entry) :
    marksFrom marks (e :: entries) =
      marksFrom (if e.text.isEmpty then marks else marks.map fun _ => true) entries := by
  rw [marksFrom]
  split
  · exact absurd ‹_› ho
  · exact absurd ‹_› hc
  · rfl

theorem marksFrom_append (marks : List Bool) (entries more : List Entry) :
    marksFrom marks (entries ++ more) = marksFrom (marksFrom marks entries) more := by
  induction entries generalizing marks with
  | nil => rfl
  | cons e entries ih =>
      by_cases ho : e.kind = .opening
      · rw [List.cons_append, marksFrom_opening ho, marksFrom_opening ho, ih]
      by_cases hc : e.kind = .closing
      · rw [List.cons_append, marksFrom_closing hc, marksFrom_closing hc, ih]
      · rw [List.cons_append, marksFrom_leaf ho hc, marksFrom_leaf ho hc, ih]

/-- A balanced part marks every scope around it if it holds content, and none otherwise. -/
theorem marksFrom_of_balanced {entries : List Entry} (h : Balanced entries) (marks : List Bool) :
    marksFrom marks entries =
      if entries.any isContent then marks.map fun _ => true else marks := by
  induction h using Balanced.rec_entries generalizing marks with
  | nil => rfl
  | leaf e entries ho hc _ ih =>
      have hcontent : e.isContent = !e.text.isEmpty := by simp [isContent, hc]
      rw [marksFrom_leaf ho hc, ih, List.any_cons, hcontent]
      cases e.text.isEmpty <;> cases entries.any isContent <;> simp
  | scope o inner c rest ho hc _ _ _ ihinner ihrest =>
      -- The end of the scope drops its mark and marks those around it.
      have hcontent : c.isContent = true := by simp [isContent, hc]
      rw [marksFrom_opening ho, marksFrom_append, ihinner, marksFrom_closing hc, ihrest]
      simp only [List.any_cons, List.any_append, hcontent, Bool.true_or, Bool.or_true, if_true]
      split <;> split <;> simp

/-- The innermost mark tells whether there is content behind the innermost opening entry. -/
theorem headD_marksFrom {before inner : List Entry} {o : Entry} (ho : o.kind = .opening)
    (h : Balanced inner) :
    (marksFrom [] (before ++ o :: inner)).headD true = inner.any isContent := by
  rw [marksFrom_append, marksFrom_opening ho, marksFrom_of_balanced h]
  cases inner.any isContent <;> rfl

/-! ## Regular entries -/

/-- What every entry of a stream that is accepted keeps to. -/
structure Regular (e : Entry) : Prop where
  line_pos : 1 ≤ e.line
  id_closing : e.kind = .closing → e.id = none
  id_shown : e.kind ≠ .closing → ∃ n, e.id = some n ∧ 1 ≤ n
  text_nil : e.kind = .opening ∨ e.kind = .closing → e.text = []
  of_table : e.synthetic = false → e.descriptor ∈ CodeTable.descriptors
  of_marker : e.synthetic = true → e.descriptor = CodeTable.empty ∧ e.text = [Placeholder.empty]

end Entry

namespace Builder

theorem marker_kind (b : Builder) (line : Int) : (b.marker line).kind = .text := rfl

theorem marker_regular {b : Builder} (h : 1 ≤ b.nextId) {line : Int} (hline : 1 ≤ line) :
    (b.marker line).Regular where
  line_pos := hline
  id_closing := fun h => by simp [marker_kind] at h
  id_shown := fun _ => ⟨b.nextId, rfl, h⟩
  text_nil := fun h => by simp [marker_kind] at h
  of_table := fun h => by simp [marker] at h
  of_marker := fun _ => ⟨rfl, rfl⟩

theorem Reached.regular {b : Builder} (h : b.Reached) : ∀ e ∈ b.entries.toList, e.Regular := by
  induction h with
  | empty => simp
  | move hb hmove ih =>
      have hpos := hb.sound.nextId_pos
      cases hmove with
      | leaf hmem ho hc hline =>
          rw [withLeaf_entries]
          intro e he
          rcases List.mem_append.mp he with he | he
          · exact ih e he
          · rw [List.mem_singleton.mp he]
            exact ⟨hline, fun h => absurd h hc, fun _ => ⟨_, rfl, hpos⟩,
              fun h => absurd h (by simp [Entry.kind, ho, hc]), fun _ => hmem, by simp⟩
      | opening hmem ho hline =>
          rw [opened_entries]
          intro e he
          rcases List.mem_append.mp he with he | he
          · exact ih e he
          · rw [List.mem_singleton.mp he]
            exact ⟨hline, fun h => absurd h (by simp [Entry.kind, ho]), fun _ => ⟨_, rfl, hpos⟩,
              fun _ => rfl, fun _ => hmem, by simp⟩
      | closing hmem hc hline hnesting htitle =>
          rw [closed_entries]
          intro e he
          rcases List.mem_append.mp he with he | he
          · rcases List.mem_append.mp he with he | he
            · exact ih e he
            -- the marker, if the scope had no content
            · split at he
              · simp at he
              · rw [List.mem_singleton.mp he]
                exact marker_regular hpos hline
          · rw [List.mem_singleton.mp he]
            exact ⟨hline, fun _ => rfl, fun h => absurd hc h, fun _ => rfl, fun _ => hmem, by simp⟩

/-! ## The state is that of the entries -/

theorem Reached.content_eq {b : Builder} (h : b.Reached) :
    b.content = Entry.marksFrom [] b.entries.toList := by
  induction h with
  | empty => rfl
  | @move b b' hb hmove ih =>
      cases hmove with
      | leaf hmem ho hc hline =>
          rw [withLeaf_entries, withLeaf_content, Entry.marksFrom_append, ← ih,
            Entry.marksFrom_leaf ho hc]
          rfl
      | opening hmem ho hline =>
          rw [opened_entries, opened_content, Entry.marksFrom_append, ← ih,
            Entry.marksFrom_opening ho]
          rfl
      | @closing d line s outer hmem hc hline hnesting htitle =>
          rw [closed_entries, closed_content, Entry.marksFrom_append, Entry.marksFrom_append, ← ih,
            Entry.marksFrom_closing hc]
          -- The marker marks all scopes before its own is left, and so does the closing entry.
          split
          · rfl
          · rw [Entry.marksFrom_leaf (by simp [marker_kind]) (by simp [marker_kind])]
            cases b.content <;> simp [marker, Entry.marksFrom]

def scopeOf (e : Entry) : OpenScope := ⟨e.line, e.descriptor⟩

theorem Reached.nesting_eq {b : Builder} (h : b.Reached) :
    ∃ openers, Bracket.remaining Entry.EndedBy [] (b.entries.toList.map Entry.bracket) =
      some openers ∧ b.nesting = openers.map scopeOf := by
  induction h with
  | empty => exact ⟨[], rfl, rfl⟩
  | @move b b' hb hmove ih =>
      obtain ⟨openers, hword, hnesting⟩ := ih
      cases hmove with
      | leaf hmem ho hc hline =>
          refine ⟨openers, ?_, by rw [withLeaf_nesting, hnesting]⟩
          rw [withLeaf_entries, List.map_append, Bracket.remaining_append, hword]
          simp [Entry.bracket_of_leaf (e := ⟨_, _, _, _, _⟩) ho hc]
      | @opening d line hmem ho hline =>
          refine ⟨⟨d, [], some b.nextId, line, false⟩ :: openers, ?_, ?_⟩
          · rw [opened_entries, List.map_append, Bracket.remaining_append, hword]
            simp [Entry.bracket_of_opening (e := ⟨_, _, _, _, _⟩) ho]
          · rw [opened_nesting, hnesting]
            rfl
      | @closing d line s outer hmem hc hline hscopes htitle =>
          rw [hscopes] at hnesting
          obtain ⟨o, rest, rfl, rfl, rfl⟩ := List.map_eq_cons_iff.mp hnesting.symm
          refine ⟨rest, ?_, by rw [closed_nesting, hscopes]; rfl⟩
          have hends : Entry.EndedBy o ⟨d, [], none, line, false⟩ := htitle
          rw [closed_entries, List.append_assoc, List.map_append, Bracket.remaining_append, hword,
            Option.bind_some, List.map_append]
          -- A marker before the closing entry stands alone in the word.
          split
          · simp [Entry.bracket_of_closing (e := ⟨_, _, _, _, _⟩) hc, hends]
          · have hmarker : (b.marker line).bracket = .single (b.marker line) :=
              Entry.bracket_of_leaf (by simp [marker_kind]) (by simp [marker_kind])
            simp [Entry.bracket_of_closing (e := ⟨_, _, _, _, _⟩) hc, hends, hmarker]

/-- Behind the entry that begins the innermost open scope all scopes have ended. -/
theorem Reached.innermost {b : Builder} (h : b.Reached) {s : OpenScope} {outer : List OpenScope}
    (hnesting : b.nesting = s :: outer) :
    ∃ before o inner, b.entries.toList = before ++ o :: inner ∧ o.kind = .opening ∧
      scopeOf o = s ∧ Entry.Balanced inner := by
  obtain ⟨openers, hword, hscopes⟩ := h.nesting_eq
  rw [hnesting] at hscopes
  obtain ⟨o, openers, rfl, hs, -⟩ := List.map_eq_cons_iff.mp hscopes.symm
  obtain ⟨u, v, hsplit, -, hinner⟩ := Bracket.remaining_eq_cons_iff.mp hword
  obtain ⟨before, rest, hentries, -, hrest⟩ := List.map_eq_append_iff.mp hsplit
  obtain ⟨o', inner, rfl, hopening, rfl⟩ := List.map_eq_cons_iff.mp hrest
  obtain ⟨rfl, ho⟩ := Entry.eq_of_bracket_opening hopening
  exact ⟨before, o', inner, hentries, ho, hs, hinner⟩

end Builder

/-! ## The entries of a model -/

namespace Model

def brackets (m : Model) : List (Bracket Entry Entry) := m.entries.map Entry.bracket

theorem brackets_getElem? (m : Model) (i : Nat) :
    m.brackets[i]? = m.entries[i]?.map Entry.bracket := by
  rw [brackets, List.getElem?_map]

theorem regular_of_ofLines {lines : List Text} {m : Model} (h : ofLines lines = .ok m) :
    ∀ e ∈ m.entries, e.Regular := by
  obtain ⟨b, hb, rfl⟩ := Builder.reached_of_ofLines h
  exact hb.regular

/-- The entries can be read with a stack. -/
theorem isSome_remaining_brackets {lines : List Text} {m : Model} (h : ofLines lines = .ok m) :
    (Bracket.remaining Entry.EndedBy [] m.brackets).isSome := by
  obtain ⟨b, hb, rfl⟩ := Builder.reached_of_ofLines h
  obtain ⟨openers, hopeners, -⟩ := hb.nesting_eq
  exact Option.isSome_iff_exists.mpr ⟨openers, hopeners⟩

end Model

end Yeast
