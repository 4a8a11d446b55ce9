import Mathlib.Data.List.Forall2
import Yeast.Proofs.Events
import Yeast.Proofs.SourceText

set_option autoImplicit false

/-! # Scopes left open

A stream may leave scopes open. The panes end them all the same, and so can the stream, by the
partners of the codes that opened them. Both come to the same (`Stream.Ending`): the closing
entries write what the panes write at their end. There is one exception. Where the innermost open
scope has no content, a closing entry gives it a marker, which is one more leaf in each pane. The
scopes around it then have content, so that no other marker is added.

That the leaf alone is added to the source text is due to what stands before it: behind the
beginning of the innermost scope there are only leaves without text, so that no line break is
pending there.
-/

namespace Yeast

open Markup

/-! ## What ending the open scopes comes to -/

/-- The innermost open scope has no content: neither a scope that ended nor a text. -/
def Model.Bare (m : Model) : Prop :=
  ∃ before o inner, m.entries = before ++ o :: inner ∧ o.kind = .opening ∧
    m.openScopes.getLast? = some (Builder.scopeOf o) ∧ Entry.Balanced inner ∧
      ∀ e ∈ inner, e.isContent = false

/-- The marker that the innermost open scope gets on a line that ends it. -/
def Model.missing (m : Model) (line : Int) : Entry :=
  ⟨CodeTable.empty, [Placeholder.empty], some (m.number m.entries.length + 1), line, true⟩

/-- The closing entries of codes that stand on lines of their own, from the given one on. -/
def endsFrom : Int → List Descriptor → List Entry
  | _, [] => []
  | line, d :: partners => ⟨d, [], none, line, false⟩ :: endsFrom (line + 1) partners

def bareRecords (partners : List Descriptor) : List Text := partners.map fun d => [d.code]

/-- The outline behind the items of all entries, where some nodes are open. -/
def Outline.ending (level : Nat) : List Piece :=
  (closers level ++ [Row.mk 0 [.stop "ul".toList]]).flatMap Row.framed

/-- The source text behind the spans of all entries, where some scopes are open. -/
def SourceText.ending (level : Nat) : List Piece :=
  List.replicate level spanEnd ++ [.stop "div".toList, .newline]

/-- The second text has `part` before the given end, and else is the first. -/
def Text.InsertedBefore (ending part text text' : Text) : Prop :=
  ∃ front, text = front ++ ending ∧ text' = front ++ (part ++ ending)

/-- How a stream whose open scopes are ended by records differs from what it was. -/
structure Stream.Ending (lines : List Text) (m : Model) (partners : List Descriptor) (m' : Model) :
    Prop where
  /-- The codes are the partners of those that opened the scopes, from the inside out. -/
  codes : m.openScopes.reverse.map (fun s => s.descriptor.partner) = partners.map Except.ok
  read : Model.ofLines (lines ++ bareRecords partners) = .ok m'
  openScopes : m'.openScopes = []
  full : ¬ m.Bare → m'.entries = m.entries ++ endsFrom (lines.length + 1) partners ∧
    m'.renderOutline = m.renderOutline ∧ m'.renderSourceText = m.renderSourceText
  bare : m.Bare →
    m'.entries = m.entries ++ m.missing (lines.length + 1) ::
      endsFrom (lines.length + 1) partners ∧
    Text.InsertedBefore (render (Outline.ending m.openScopes.length))
      (render (Outline.leafRow m.openScopes.length (m.missing (lines.length + 1))).framed)
      m.renderOutline m'.renderOutline ∧
    Text.InsertedBefore (render (SourceText.ending m.openScopes.length))
      (render (SourceText.token (m.missing (lines.length + 1))))
      m.renderSourceText m'.renderSourceText

/-! ## Partners -/

/-- The code ends the scope. -/
structure Ends (s : OpenScope) (d : Descriptor) : Prop where
  mem : d ∈ CodeTable.descriptors
  kind : d.kind = .closing
  title : s.descriptor.title = d.title

theorem CodeTable.exists_partner {d : Descriptor} (hmem : d ∈ descriptors)
    (hopen : d.kind = .opening) :
    ∃ c ∈ descriptors, d.partner = .ok c ∧ c.kind = .closing ∧ d.title = c.title := by
  have htable : ∀ d ∈ descriptors, d.kind = .opening →
      ∃ c ∈ descriptors, closing? d.title = some c ∧ c.kind = .closing ∧ d.title = c.title := by
    decide
  obtain ⟨c, hc, hfind, hkind, htitle⟩ := htable d hmem hopen
  refine ⟨c, hc, ?_, hkind, htitle⟩
  rw [Descriptor.partner, if_pos hopen, hfind]

theorem exists_partners {scopes : List OpenScope}
    (h : ∀ s ∈ scopes, s.descriptor ∈ CodeTable.descriptors ∧ s.descriptor.kind = .opening) :
    ∃ partners, scopes.map (fun s => s.descriptor.partner) = partners.map Except.ok ∧
      List.Forall₂ Ends scopes partners := by
  induction scopes with
  | nil => exact ⟨[], rfl, .nil⟩
  | cons s scopes ih =>
      obtain ⟨⟨hmem, hopen⟩, hscopes⟩ := List.forall_mem_cons.mp h
      obtain ⟨d, hd, hpartner, hkind, htitle⟩ := CodeTable.exists_partner hmem hopen
      obtain ⟨partners, hpartners, hends⟩ := ih hscopes
      refine ⟨d :: partners, ?_, .cons ⟨hd, hkind, htitle⟩ hends⟩
      rw [List.map_cons, List.map_cons, hpartner, hpartners]

theorem forall_closing_of_ends {scopes : List OpenScope} {partners : List Descriptor}
    (h : List.Forall₂ Ends scopes partners) :
    ∀ d ∈ partners, d ∈ CodeTable.descriptors ∧ d.kind = .closing := by
  induction h with
  | nil => simp
  | cons hs _ ih => exact List.forall_mem_cons.mpr ⟨⟨hs.mem, hs.kind⟩, ih⟩

/-- A code of the table can stand alone. -/
theorem reading_code {d : Descriptor} (hmem : d ∈ CodeTable.descriptors) :
    Text.reading [d.code] = .token d (d.shownText []) := by
  have hline : ∀ d ∈ CodeTable.descriptors, Text.withoutTerminator [d.code] = [d.code] := by
    decide
  have hfind := CodeTable.find?_code d hmem
  rw [Text.reading, hline d hmem]
  simp [hfind]

theorem events_closingCode {d : Descriptor} (hmem : d ∈ CodeTable.descriptors)
    (hclose : d.kind = .closing) : Text.events [d.code] = [⟨d, []⟩] := by
  have hshown : d.shownText [] = [] := if_neg (by simp [hclose])
  rw [Text.events_of_reading (reading_code hmem), hshown, Descriptor.events_closing hclose]
  rfl

/-! ## Entering the ends -/

namespace Builder

/-- All open scopes can be ended. Only the innermost one can get a marker, since those around it
are marked when it ends. -/
theorem enterAll?_ends {b : Builder} (hlength : b.content.length = b.nesting.length)
    {partners : List Descriptor} (h : List.Forall₂ Ends b.nesting partners) (line : Int) :
    ∃ b', b.enterAll? (Stream.eventsFrom line (bareRecords partners)) = some b' ∧
      b'.nesting = [] ∧
      b'.entries.toList = b.entries.toList ++
        ((if b.content.headD true then [] else [b.marker line]) ++ endsFrom line partners) := by
  induction partners generalizing b line with
  | nil =>
      have hnesting : b.nesting = [] := List.forall₂_nil_right_iff.mp h
      have hcontent : b.content = [] := by simpa [hnesting] using hlength
      exact ⟨b, rfl, hnesting, by simp [hcontent, endsFrom]⟩
  | cons d partners ih =>
      obtain ⟨s, outer, hs, houter, hnesting⟩ := List.forall₂_cons_right_iff.mp h
      have henter : b.enter? ⟨d, []⟩ line = some (b.closed d line) :=
        (enter?_closing_eq_some_iff hs.kind).mpr ⟨⟨s, outer, hnesting, hs.title⟩, rfl⟩
      have hlength' : (b.closed d line).content.length = (b.closed d line).nesting.length := by
        simp [hlength]
      have houter' : List.Forall₂ Ends (b.closed d line).nesting partners := by
        rw [closed_nesting, hnesting]
        exact houter
      -- behind an end the scope around it has content, so only the innermost one can get a marker
      have hmarked : (b.closed d line).content.headD true = true := by
        rw [closed_content]
        cases b.content.tail <;> rfl
      obtain ⟨b', hb', hempty, hentries⟩ := ih hlength' houter' (line + 1)
      refine ⟨b', ?_, hempty, ?_⟩
      · have hevents : Stream.eventsFrom line (bareRecords (d :: partners)) =
            (⟨d, []⟩, line) :: Stream.eventsFrom (line + 1) (bareRecords partners) := by
          rw [bareRecords, List.map_cons, Stream.eventsFrom, events_closingCode hs.mem hs.kind]
          rfl
        rw [hevents, enterAll?_cons, henter, Option.bind_some, hb']
      · rw [hentries, hmarked, if_pos rfl, List.nil_append, closed_entries, endsFrom]
        simp

/-- The innermost mark is missing iff the innermost open scope has no content. -/
theorem Reached.bare_iff {b : Builder} (h : b.Reached) :
    b.finish.Bare ↔ b.content.headD true = false := by
  have hcontent := h.content_eq
  constructor
  · rintro ⟨before, o, inner, hentries, ho, -, hinner, hnone⟩
    have hentries : b.entries.toList = before ++ o :: inner := hentries
    rw [hcontent, hentries, Entry.headD_marksFrom ho hinner, List.any_eq_false]
    simpa using hnone
  · intro hmark
    cases hnesting : b.nesting with
    | nil =>
        have hnil : b.content = [] := by simpa [hnesting] using h.sound.length_content
        rw [hnil] at hmark
        exact absurd hmark (by decide)
    | cons s outer =>
        obtain ⟨before, o, inner, hentries, ho, hs, hinner⟩ := h.innermost hnesting
        rw [hcontent, hentries, Entry.headD_marksFrom ho hinner, List.any_eq_false] at hmark
        have hlast : b.finish.openScopes.getLast? = some (scopeOf o) := by
          rw [hs]
          simp [finish, hnesting]
        exact ⟨before, o, inner, hentries, ho, hlast, hinner, by simpa using hmark⟩

/-- The next id is that of the marker. -/
theorem Orderly.marker_eq {b : Builder} (h : b.Orderly) (line : Int) :
    b.marker line = b.finish.missing line := by
  obtain ⟨n, hnext, hids⟩ := h.numbered
  have hlength := congrArg List.length hids
  rw [List.length_map, List.length_map, List.length_range] at hlength
  have hnumber : b.finish.number b.finish.entries.length = n := by
    rw [Model.number, List.take_length]
    exact hlength
  rw [marker, Model.missing, hnumber, hnext]

end Builder

/-! ## The panes behind the entries -/

namespace Outline

theorem levelAfter_leaf {e : Entry} (ho : e.kind ≠ .opening) (hc : e.kind ≠ .closing)
    (level : Int) : levelAfter level e = level := by
  unfold levelAfter
  split
  · exact absurd ‹_› ho
  · exact absurd ‹_› hc
  · rfl

/-- The level behind entries is the number of the scopes that they leave open. -/
theorem foldl_levelAfter {openers openers' entries : List Entry}
    (h : Bracket.remaining Entry.EndedBy openers (entries.map Entry.bracket) = some openers') :
    entries.foldl levelAfter (openers.length : Int) = openers'.length := by
  induction entries generalizing openers with
  | nil =>
      rw [List.map_nil, Bracket.remaining_nil, Option.some.injEq] at h
      rw [h]
      rfl
  | cons e entries ih =>
      rw [List.foldl_cons]
      by_cases ho : e.kind = .opening
      · have hlevel : levelAfter openers.length e = ((e :: openers).length : Nat) := by
          rw [levelAfter, ho]
          simp
        rw [List.map_cons, Entry.bracket_of_opening ho, Bracket.remaining_opening] at h
        rw [hlevel, ih h]
      by_cases hc : e.kind = .closing
      · rw [List.map_cons, Entry.bracket_of_closing hc] at h
        -- an end needs an open scope, or the entries could not have been read
        cases openers with
        | nil => simp at h
        | cons o openers =>
            have hlevel : levelAfter (o :: openers).length e = (openers.length : Nat) := by
              rw [levelAfter, hc]
              simp
            rw [Bracket.remaining_closing_cons] at h
            split at h
            · rw [hlevel, ih h]
            · simp at h
      · rw [List.map_cons, Entry.bracket_of_leaf ho hc, Bracket.remaining_single] at h
        rw [levelAfter_leaf ho hc, ih h]

/-- What is written of entries does not depend on those behind them. -/
theorem exists_rowsFrom_append (level : Int) (entries : List Entry) :
    ∃ front, ∀ more, rowsFrom level (entries ++ more) =
      front ++ rowsFrom (entries.foldl levelAfter level) more := by
  induction entries generalizing level with
  | nil => exact ⟨[], fun _ => rfl⟩
  | cons e entries ih =>
      obtain ⟨front, hfront⟩ := ih (levelAfter level e)
      refine ⟨entryRows level e ++ front, fun more => ?_⟩
      rw [List.cons_append, rowsFrom, hfront, List.append_assoc, List.foldl_cons]

/-- Closing entries end their nodes as the end of the outline does. -/
theorem rowsFrom_ends {partners : List Descriptor} (h : ∀ d ∈ partners, d.kind = .closing)
    (line : Int) : rowsFrom partners.length (endsFrom line partners) = closers partners.length := by
  induction partners generalizing line with
  | nil => rfl
  | cons d partners ih =>
      obtain ⟨hd, hpartners⟩ := List.forall_mem_cons.mp h
      have hlevel : ((d :: partners).length : Int) - 1 = partners.length := by simp
      rw [endsFrom, rowsFrom_closing hd, hlevel, ih hpartners, List.length_cons, closers]

/-- The outline is what is written of its entries, whatever follows them, and what does follow. -/
theorem exists_front (entries : List Entry) :
    ∃ front, ∀ more, render ((rows (entries ++ more)).flatMap Row.framed) =
      front ++ render ((rowsFrom (entries.foldl levelAfter 0) more ++
        [Row.mk 0 [.stop "ul".toList]]).flatMap Row.framed) := by
  obtain ⟨front, hfront⟩ := exists_rowsFrom_append 0 entries
  refine ⟨render ((⟨0, [.start "ul".toList [classes ["tree".toList]]]⟩ :: legendRows ++
    front).flatMap Row.framed), fun more => ?_⟩
  rw [rows, hfront, ← render_append, ← List.flatMap_append]
  simp only [List.append_assoc, List.cons_append]

variable {m m' : Model} {partners : List Descriptor} {line : Int}

theorem render_ends (hlevel : m.entries.foldl levelAfter 0 = (partners.length : Int))
    (hclosing : ∀ d ∈ partners, d.kind = .closing)
    (h : m'.entries = m.entries ++ endsFrom line partners) :
    m'.renderOutline = m.renderOutline := by
  obtain ⟨front, hfront⟩ := exists_front m.entries
  have hm := hfront []
  have hm' := hfront (endsFrom line partners)
  rw [List.append_nil] at hm
  rw [Model.renderOutline, Model.outline, h, hm', Model.renderOutline, Model.outline, hm, hlevel,
    rowsFrom_ends hclosing, rowsFrom, Int.toNat_natCast]

theorem render_missing (hlevel : m.entries.foldl levelAfter 0 = (partners.length : Int))
    (hclosing : ∀ d ∈ partners, d.kind = .closing) {e : Entry} (he : e.kind = .text)
    (h : m'.entries = m.entries ++ e :: endsFrom line partners) :
    Text.InsertedBefore (render (ending partners.length))
      (render (leafRow partners.length e).framed) m.renderOutline m'.renderOutline := by
  obtain ⟨front, hfront⟩ := exists_front m.entries
  have hm := hfront []
  have hm' := hfront (e :: endsFrom line partners)
  have ho : e.kind ≠ .opening := by simp [he]
  have hc : e.kind ≠ .closing := by simp [he]
  rw [List.append_nil, hlevel, rowsFrom, Int.toNat_natCast] at hm
  rw [← h, hlevel, rowsFrom_leaf ho hc, rowsFrom_ends hclosing, List.cons_append,
    List.flatMap_cons, render_append] at hm'
  exact ⟨front, hm, hm'⟩

end Outline

namespace Entry

def markup (e : Entry) : List Piece :=
  match e.kind with
  | .opening => [SourceText.scopeStart e]
  | .closing => [SourceText.spanEnd]
  | _ => SourceText.token e

theorem markup_leaf {e : Entry} (ho : e.kind ≠ .opening) (hc : e.kind ≠ .closing) :
    e.markup = SourceText.token e := by
  unfold markup
  split
  · exact absurd ‹_› ho
  · exact absurd ‹_› hc
  · rfl

end Entry

namespace SourceText

/-- Whether a line break is due behind an entry. -/
def pendingAfter (pending : Bool) (e : Entry) : Bool :=
  match e.kind with
  | .opening => false
  | .closing => pending
  | _ => (shown e).endsLine

theorem pendingAfter_leaf {e : Entry} (ho : e.kind ≠ .opening) (hc : e.kind ≠ .closing)
    (pending : Bool) : pendingAfter pending e = (shown e).endsLine := by
  unfold pendingAfter
  split
  · exact absurd ‹_› ho
  · exact absurd ‹_› hc
  · rfl

theorem piecesFrom_cons (pending : Bool) (level : Int) (e : Entry) (entries : List Entry) :
    piecesFrom pending level (e :: entries) =
      breakIf (pending && decide (e.kind ≠ .closing)) ++
        (e.markup ++ piecesFrom (pendingAfter pending e) (Outline.levelAfter level e) entries) := by
  by_cases ho : e.kind = .opening
  · rw [piecesFrom_opening ho, Entry.markup, pendingAfter, Outline.levelAfter, ho]
    simp
  by_cases hc : e.kind = .closing
  · rw [piecesFrom_closing hc, Entry.markup, pendingAfter, Outline.levelAfter, hc]
    simp [breakIf]
  · rw [piecesFrom_leaf ho hc, Entry.markup_leaf ho hc, pendingAfter_leaf ho hc,
      Outline.levelAfter_leaf ho hc]
    simp [hc]

theorem exists_piecesFrom_append (pending : Bool) (level : Int) (entries : List Entry) :
    ∃ front, ∀ more, piecesFrom pending level (entries ++ more) =
      front ++ piecesFrom (entries.foldl pendingAfter pending)
        (entries.foldl Outline.levelAfter level) more := by
  induction entries generalizing pending level with
  | nil => exact ⟨[], fun _ => rfl⟩
  | cons e entries ih =>
      obtain ⟨front, hfront⟩ := ih (pendingAfter pending e) (Outline.levelAfter level e)
      refine ⟨breakIf (pending && decide (e.kind ≠ .closing)) ++ (e.markup ++ front),
        fun more => ?_⟩
      rw [List.cons_append, piecesFrom_cons, hfront, List.foldl_cons, List.foldl_cons,
        List.append_assoc, List.append_assoc]

/-- Closing entries end their scopes as the end of the source text does. -/
theorem piecesFrom_ends (pending : Bool) {partners : List Descriptor}
    (h : ∀ d ∈ partners, d.kind = .closing) (line : Int) :
    piecesFrom pending partners.length (endsFrom line partners) =
      List.replicate partners.length spanEnd := by
  induction partners generalizing line with
  | nil => rfl
  | cons d partners ih =>
      obtain ⟨hd, hpartners⟩ := List.forall_mem_cons.mp h
      have hlevel : ((d :: partners).length : Int) - 1 = partners.length := by simp
      rw [endsFrom, piecesFrom_closing hd, hlevel, ih hpartners, List.length_cons,
        List.replicate_succ]

/-- Leaves without text end no line. -/
theorem foldl_pendingAfter_empty {inner : List Entry}
    (h : ∀ e ∈ inner, e.kind ≠ .opening ∧ e.kind ≠ .closing ∧ e.text = []) :
    inner.foldl pendingAfter false = false := by
  induction inner with
  | nil => rfl
  | cons e inner ih =>
      obtain ⟨⟨ho, hc, htext⟩, hinner⟩ := List.forall_mem_cons.mp h
      have hshown : (shown e).endsLine = false := by
        unfold shown
        split
        · decide
        · rw [htext]
          rfl
      have hpending : pendingAfter false e = false := by
        rw [pendingAfter_leaf ho hc, hshown]
      rw [List.foldl_cons, hpending, ih hinner]

/-- The source text is what is written of its entries, whatever follows them, and what does
follow. -/
theorem exists_front (entries : List Entry) :
    ∃ front, ∀ more, render (pieces (entries ++ more)) =
      front ++ render (piecesFrom (entries.foldl pendingAfter false)
        (entries.foldl Outline.levelAfter 0) more ++ [.stop "div".toList, .newline]) := by
  obtain ⟨front, hfront⟩ := exists_piecesFrom_append false 0 entries
  refine ⟨render (.start "div".toList [classes ["text".toList]] :: front), fun more => ?_⟩
  rw [pieces, hfront, ← render_append]
  simp only [List.append_assoc, List.cons_append]

variable {m m' : Model} {partners : List Descriptor} {line : Int}

theorem render_ends (hlevel : m.entries.foldl Outline.levelAfter 0 = (partners.length : Int))
    (hclosing : ∀ d ∈ partners, d.kind = .closing)
    (h : m'.entries = m.entries ++ endsFrom line partners) :
    m'.renderSourceText = m.renderSourceText := by
  obtain ⟨front, hfront⟩ := exists_front m.entries
  have hm := hfront []
  have hm' := hfront (endsFrom line partners)
  rw [List.append_nil] at hm
  rw [Model.renderSourceText, Model.sourceText, h, hm', Model.renderSourceText, Model.sourceText,
    hm, hlevel, piecesFrom_ends _ hclosing, piecesFrom, Int.toNat_natCast]

theorem render_missing (hlevel : m.entries.foldl Outline.levelAfter 0 = (partners.length : Int))
    (hpending : m.entries.foldl pendingAfter false = false)
    (hclosing : ∀ d ∈ partners, d.kind = .closing) {e : Entry} (he : e.kind = .text)
    (h : m'.entries = m.entries ++ e :: endsFrom line partners) :
    Text.InsertedBefore (render (ending partners.length)) (render (token e))
      m.renderSourceText m'.renderSourceText := by
  obtain ⟨front, hfront⟩ := exists_front m.entries
  have hm := hfront []
  have hm' := hfront (e :: endsFrom line partners)
  have ho : e.kind ≠ .opening := by simp [he]
  have hc : e.kind ≠ .closing := by simp [he]
  rw [List.append_nil, hlevel, piecesFrom, Int.toNat_natCast] at hm
  rw [← h, hlevel, hpending, piecesFrom_leaf ho hc, piecesFrom_ends _ hclosing, breakIf,
    if_neg (by decide), List.nil_append, List.append_assoc, render_append] at hm'
  exact ⟨front, hm, hm'⟩

end SourceText

/-- The state behind a stream that is accepted, as its events and as its moves lead to it. -/
theorem Stream.exists_reached_of_ofLines {lines : List Text} {m : Model}
    (h : Model.ofLines lines = .ok m) :
    ∃ b : Builder, b.Reached ∧ (∀ line ∈ lines, Coded line) ∧
      Builder.enterAll? {} (eventsFrom 1 lines) = some b ∧ m = b.finish := by
  obtain ⟨hcoded, b, henter, rfl⟩ := ofLines_eq_ok_iff.mp h
  have hrun := (feedAll_run_eq_ok_iff .empty (by omega)).mpr ⟨hcoded, henter⟩
  exact ⟨b, .feedAll (by omega) .empty hrun, hcoded, henter, rfl⟩

theorem Builder.Reached.foldl_levelAfter {b : Builder} (h : b.Reached) :
    b.finish.entries.foldl Outline.levelAfter 0 = (b.nesting.length : Int) := by
  obtain ⟨openers, hword, hnesting⟩ := h.nesting_eq
  rw [hnesting, List.length_map]
  exact Outline.foldl_levelAfter hword

/-- No line break is due in a scope without content. -/
theorem Model.Bare.foldl_pendingAfter {m : Model} (h : m.Bare) :
    m.entries.foldl SourceText.pendingAfter false = false := by
  obtain ⟨before, o, inner, hentries, ho, -, hinner, hnone⟩ := h
  have hleaves := Entry.forall_leaf_of_not_content hinner (by simpa using hnone)
  have hopening : ∀ pending, SourceText.pendingAfter pending o = false := by
    intro pending
    rw [SourceText.pendingAfter, ho]
  rw [hentries, List.foldl_append, List.foldl_cons, hopening]
  exact SourceText.foldl_pendingAfter_empty hleaves

/-- Ends that can be entered can be read from records behind a stream. -/
theorem Stream.ofLines_append_bareRecords {lines : List Text} {partners : List Descriptor}
    {b b' : Builder} (hcoded : ∀ line ∈ lines, Coded line)
    (henter : Builder.enterAll? {} (eventsFrom 1 lines) = some b)
    (hpartners : ∀ d ∈ partners, d ∈ CodeTable.descriptors)
    (hends : b.enterAll? (eventsFrom (lines.length + 1) (bareRecords partners)) = some b') :
    Model.ofLines (lines ++ bareRecords partners) = .ok b'.finish := by
  have hnumber : (1 : Int) + lines.length = lines.length + 1 := Int.add_comm _ _
  refine ofLines_eq_ok_iff.mpr ⟨?_, b', ?_, rfl⟩
  · intro line hline
    rcases List.mem_append.mp hline with hline | hline
    · exact hcoded line hline
    · obtain ⟨d, hd, rfl⟩ := List.mem_map.mp hline
      exact coded_of_reading (Or.inr ⟨d, _, reading_code (hpartners d hd)⟩)
  · rw [eventsFrom_append, Builder.enterAll?_append, henter, Option.bind_some, hnumber, hends]

/-- **Scopes left open can be ended by records, and the panes stay as they are** but for the marker
that the innermost one gets if it has no content. -/
theorem Stream.ending_of_ofLines {lines : List Text} {m : Model} (h : Model.ofLines lines = .ok m) :
    ∃ partners m', Ending lines m partners m' := by
  obtain ⟨b, hb, hcoded, henter, rfl⟩ := exists_reached_of_ofLines h
  have horderly := hb.orderly
  -- the closing records continue the reading from the state behind the lines
  obtain ⟨partners, hcodes, hends⟩ := exists_partners horderly.opening
  obtain ⟨b', hb', hempty, hentries⟩ :=
    Builder.enterAll?_ends horderly.length_content hends (lines.length + 1)
  have hmem : ∀ d ∈ partners, d ∈ CodeTable.descriptors :=
    fun d hd => (forall_closing_of_ends hends d hd).1
  have hclosing : ∀ d ∈ partners, d.kind = .closing :=
    fun d hd => (forall_closing_of_ends hends d hd).2
  have hlength : b.finish.openScopes.length = partners.length := by
    rw [← hends.length_eq]
    exact List.length_reverse
  have hlevel : b.finish.entries.foldl Outline.levelAfter 0 = (partners.length : Int) := by
    rw [← hends.length_eq]
    exact hb.foldl_levelAfter
  have hmarker := horderly.marker_eq (lines.length + 1)
  refine ⟨partners, b'.finish, ?_⟩
  constructor
  case codes =>
    rw [← hcodes]
    simp [Builder.finish]
  case read => exact ofLines_append_bareRecords hcoded henter hmem hb'
  case openScopes => simp [Builder.finish, hempty]
  case full =>
    intro hbare
    have hmark : b.content.headD true = true := by
      rw [hb.bare_iff] at hbare
      simpa using hbare
    rw [hmark, if_pos rfl, List.nil_append] at hentries
    exact ⟨hentries, Outline.render_ends hlevel hclosing hentries,
      SourceText.render_ends hlevel hclosing hentries⟩
  case bare =>
    intro hbare
    have hmark : b.content.headD true = false := hb.bare_iff.mp hbare
    rw [hmark, if_neg (by decide), hmarker, List.singleton_append] at hentries
    rw [hlength]
    exact ⟨hentries, Outline.render_missing hlevel hclosing rfl hentries,
      SourceText.render_missing hlevel hbare.foldl_pendingAfter hclosing rfl hentries⟩

/-- A scalar without content in a mapping: both can be ended, and the scalar gets a marker. -/
theorem Stream.ending_empty :
    let lines : List Text := ["M".toList, "S".toList, "T".toList]
    let m : Model :=
      { entries :=
          [ ⟨⟨'M', .opening, "Mapping".toList⟩, [], some 1, 1, false⟩,
            ⟨⟨'S', .opening, "Scalar".toList⟩, [], some 2, 2, false⟩,
            ⟨CodeTable.text, [], some 3, 3, false⟩ ]
        openScopes :=
          [⟨1, ⟨'M', .opening, "Mapping".toList⟩⟩, ⟨2, ⟨'S', .opening, "Scalar".toList⟩⟩] }
    Model.ofLines lines = .ok m ∧ m.Bare ∧
      ∃ partners m', Stream.Ending lines m partners m' := by
  intro lines m
  have h : Model.ofLines lines = .ok m := rfl
  have hinner : Entry.Balanced [⟨CodeTable.text, [], some 3, 3, false⟩] :=
    .leaf (by decide) (by decide) .nil
  have hbare : m.Bare := ⟨[_], _, [_], rfl, rfl, rfl, hinner, by decide⟩
  exact ⟨h, hbare, ending_of_ofLines h⟩

end Yeast
