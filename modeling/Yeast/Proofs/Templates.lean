import Yeast.Proofs.Breaks

set_option autoImplicit false

/-! # The templates of a page

No text can change the markup of a page. A piece without its text and without the values of its
attributes is its template, and the marks of a piece are those of its template
(`marks_render_templates`), because texts and values are escaped. The templates of both panes can
be told from the kinds of the entries alone: they stay the same where every entry is replaced by a
blank one, which has nothing but its kind (`Outline.templates_rowsFrom_blank`,
`SourceText.templates_piecesFrom_blank`). Only line breaks depend on texts, so they are left out.
-/

namespace Yeast

open Markup

/-- The characters of a text that markup is made with. -/
def Text.marks (text : Text) : Text :=
  text.filter fun c => c = '<' ∨ c = '>' ∨ c = '"' ∨ c = '\''

/-- Both styles are built in, or both are linked to. -/
inductive Stylesheet.SameSort : Stylesheet → Stylesheet → Prop
  | builtin : SameSort builtin builtin
  | linked (address address' : Text) : SameSort (linked address) (linked address')

/-- Every entry is one that can be made. -/
def Model.Valid (m : Model) : Prop := ∀ e ∈ m.entries, e.fault? = none

/-- The two pages consist of the same markup, apart from line breaks of the source text. -/
structure Page.SameMarkup (titles titles' : PaneTitles) (style style' : Stylesheet)
    (m m' : Model) : Prop where
  marks : (Page.render titles style m).withoutBreaks.marks =
    (Page.render titles' style' m').withoutBreaks.marks
  breaks : Page.BreaksInSource titles style m
  breaks' : Page.BreaksInSource titles' style' m'

/-! ## Marks -/

theorem Text.marks_append (s t : Text) : Text.marks (s ++ t) = s.marks ++ t.marks :=
  List.filter_append ..

theorem Text.marks_escaped (text : Text) : Text.marks (escaped text) = [] := by
  refine List.filter_eq_nil_iff.mpr fun c hc => ?_
  simp only [decide_eq_true_eq]
  intro h
  exact special_not_mem_escaped h text hc

namespace Markup

def Attribute.template (a : Attribute) : Attribute := ⟨a.name, []⟩

/-- What is left of a piece without texts and values. -/
def Piece.template : Piece → List Piece
  | .start name attributes => [.start name (attributes.map Attribute.template)]
  | .stop name => [.stop name]
  | .void name attributes => [.void name (attributes.map Attribute.template)]
  | .text _ => []
  | .verbatim content => [.verbatim content]

def templates (pieces : List Piece) : List Piece := pieces.flatMap Piece.template

@[simp]
theorem templates_cons (p : Piece) (pieces : List Piece) :
    templates (p :: pieces) = p.template ++ templates pieces := rfl

@[simp]
theorem templates_append (pieces more : List Piece) :
    templates (pieces ++ more) = templates pieces ++ templates more := List.flatMap_append

theorem Attribute.marks_render (a : Attribute) :
    Text.marks a.render = Text.marks a.template.render := by
  have hsplit : ∀ value, Attribute.render ⟨a.name, value⟩ =
      (' ' :: a.name ++ ['=', '"']) ++ (escaped value ++ ['"']) := by simp [Attribute.render]
  rw [Attribute.template, hsplit []]
  rw [show a.render = _ from hsplit a.value]
  simp only [Text.marks_append, Text.marks_escaped]

theorem marks_renderAttributes (attributes : List Attribute) :
    Text.marks (attributes.flatMap Attribute.render) =
      Text.marks ((attributes.map Attribute.template).flatMap Attribute.render) := by
  induction attributes with
  | nil => rfl
  | cons a attributes ih =>
      rw [List.flatMap_cons, List.map_cons, List.flatMap_cons, Text.marks_append, Text.marks_append,
        ih, a.marks_render]

theorem Piece.marks_render (p : Piece) :
    Text.marks p.render = Text.marks (Markup.render p.template) := by
  cases p with
  | start name attributes =>
      rw [Piece.template, render_cons, render_nil, List.append_nil]
      simp only [Piece.render, Text.marks_append]
      rw [marks_renderAttributes]
  | void name attributes =>
      rw [Piece.template, render_cons, render_nil, List.append_nil]
      simp only [Piece.render, Text.marks_append]
      rw [marks_renderAttributes]
  | stop name => simp [Piece.template]
  | text content => exact Text.marks_escaped content
  | verbatim content => simp [Piece.template]

/-- **The marks of markup are those of its templates.** -/
theorem marks_render_templates (pieces : List Piece) :
    Text.marks (render pieces) = Text.marks (render (templates pieces)) := by
  induction pieces with
  | nil => rfl
  | cons p pieces ih =>
      rw [render_cons, templates_cons, render_append, Text.marks_append, Text.marks_append, ih,
        p.marks_render]

/-- A piece is a line break iff its template is one. -/
theorem templates_unbroken (pieces : List Piece) :
    templates (unbroken pieces) = unbroken (templates pieces) := by
  have hpiece : ∀ p : Piece, unbroken p.template = if p = lineBreak then [] else p.template := by
    intro p
    cases p with
    | void name attributes =>
        cases attributes <;> simp [Piece.template, unbroken, lineBreak, List.filter_cons]
    | _ => simp [Piece.template, unbroken, lineBreak]
  induction pieces with
  | nil => rfl
  | cons p pieces ih =>
      rw [templates_cons, unbroken_append, hpiece, ← ih]
      by_cases hbreak : p = lineBreak
      · rw [if_pos hbreak, List.nil_append, unbroken, List.filter_cons_of_neg (by simpa)]
        rfl
      · rw [if_neg hbreak, unbroken, List.filter_cons_of_pos (by simpa), templates_cons]
        rfl

end Markup

/-! ## Blank entries -/

namespace Entry

/-- The entry that has nothing but a kind. -/
def blank (kind : TokenKind) : Entry :=
  ⟨⟨' ', kind, []⟩, [], if kind = .closing then none else some 1, 1, false⟩

@[simp]
theorem blank_kind (kind : TokenKind) : (blank kind).kind = kind := rfl

/-- An entry that can be made has an id iff it does not close. -/
theorem isSome_id {e : Entry} (h : e.fault? = none) : e.id.isSome = (blank e.kind).id.isSome := by
  unfold Entry.fault? at h
  split at h
  · simp at h
  · split at h
    · rename_i hclosing
      cases hid : e.id with
      | none => simp [blank, hclosing]
      | some n => simp [hid] at h
    · rename_i hclosing
      cases hid : e.id with
      | none => simp [hid] at h
      | some n => simp [blank, hclosing]

/-- The names of the attributes that an id gives are the same for every id. -/
theorem template_correlation {e e' : Entry} (h : e.id.isSome = e'.id.isSome) (pane : Text) :
    (e.correlation pane).map Attribute.template = (e'.correlation pane).map Attribute.template := by
  unfold Entry.correlation
  cases hid : e.id with
  | none =>
      rw [hid, Option.isSome_none, eq_comm, Option.isSome_eq_false_iff, Option.isNone_iff_eq_none]
        at h
      rw [h]
  | some n =>
      rw [hid, Option.isSome_some, eq_comm, Option.isSome_iff_exists] at h
      obtain ⟨n', hid'⟩ := h
      rw [hid']
      rfl

end Entry

namespace Outline

theorem templates_framed (r : Row) : templates r.framed = templates r.pieces := by
  rw [Row.framed, List.cons_append, templates_cons, templates_append]
  exact List.append_nil (templates r.pieces)

theorem templates_leafRow {e : Entry} (h : e.fault? = none) (level : Int) :
    templates (leafRow level e).pieces = templates (leafRow level (.blank e.kind)).pieces := by
  have hcorrelation := Entry.template_correlation (Entry.isSome_id h) pane
  have htooltip : (tooltip e).map Attribute.template =
      (tooltip (.blank e.kind)).map Attribute.template := by
    unfold tooltip
    rw [Entry.blank_kind]
    split <;> rfl
  simp only [leafRow, item, templates_cons, templates_append, List.cons_append, Piece.template,
    List.map_cons, List.map_append, hcorrelation, htooltip]
  rfl

theorem templates_nodeStart {e : Entry} (h : e.fault? = none) (level : Int) :
    templates ((nodeStart level (nodeItem e) e.title).flatMap Row.framed) =
      templates ((nodeStart level (nodeItem (.blank e.kind)) []).flatMap Row.framed) := by
  have hcorrelation := Entry.template_correlation (Entry.isSome_id h) pane
  simp only [nodeStart, nodeItem, item, List.flatMap_cons, List.flatMap_nil, templates_append,
    templates_framed, templates_cons, Piece.template, List.map_cons, hcorrelation]
  rfl

/-- **The templates of the rows are those of blank entries.** -/
theorem templates_rowsFrom_blank {entries : List Entry} (h : ∀ e ∈ entries, e.fault? = none)
    (level : Int) :
    templates ((rowsFrom level entries).flatMap Row.framed) =
      templates ((rowsFrom level (entries.map fun e => .blank e.kind)).flatMap Row.framed) := by
  induction entries generalizing level with
  | nil => rfl
  | cons e entries ih =>
      obtain ⟨he, hentries⟩ := List.forall_mem_cons.mp h
      rw [List.map_cons]
      by_cases ho : e.kind = .opening
      · have hblank : (Entry.blank e.kind).kind = .opening := ho
        rw [rowsFrom_opening ho, rowsFrom_opening hblank, List.flatMap_append,
          List.flatMap_append, templates_append, templates_append, templates_nodeStart he,
          ih hentries]
        rfl
      by_cases hc : e.kind = .closing
      · have hblank : (Entry.blank e.kind).kind = .closing := hc
        rw [rowsFrom_closing hc, rowsFrom_closing hblank, List.flatMap_append,
          List.flatMap_append, templates_append, templates_append, ih hentries]
      · have hblank : (Entry.blank e.kind).kind ≠ .opening ∧ (Entry.blank e.kind).kind ≠ .closing :=
          ⟨ho, hc⟩
        rw [rowsFrom_leaf ho hc, rowsFrom_leaf hblank.1 hblank.2, List.flatMap_cons,
          List.flatMap_cons, templates_append, templates_append, templates_framed,
          templates_framed, templates_leafRow he, ih hentries]

theorem templates_outline_blank {m : Model} (h : m.Valid) :
    templates m.outline =
      templates ((rows (m.entries.map fun e => .blank e.kind)).flatMap Row.framed) := by
  simp only [Model.outline, rows, List.cons_append, List.flatMap_cons, List.flatMap_append,
    templates_append, templates_rowsFrom_blank h]

end Outline

namespace SourceText

/-- A line break is no part of the templates. -/
theorem unbroken_templates_breakIf (pending : Bool) :
    unbroken (templates (breakIf pending)) = [] := by
  cases pending <;> rfl

/-- **The templates of the pieces are those of blank entries**, apart from line breaks. -/
theorem templates_piecesFrom_blank {entries : List Entry} (h : ∀ e ∈ entries, e.fault? = none)
    (pending pending' : Bool) (level : Int) :
    unbroken (templates (piecesFrom pending level entries)) =
      unbroken (templates (piecesFrom pending' level
        (entries.map fun e => .blank e.kind))) := by
  -- a blank entry may end a line where the entry does not, so the two flags are independent
  induction entries generalizing pending pending' level with
  | nil => rfl
  | cons e entries ih =>
      obtain ⟨he, hentries⟩ := List.forall_mem_cons.mp h
      rw [List.map_cons]
      by_cases ho : e.kind = .opening
      · have hblank : (Entry.blank e.kind).kind = .opening := ho
        rw [piecesFrom_opening ho, piecesFrom_opening hblank]
        simp only [templates_append, templates_cons, unbroken_append, unbroken_templates_breakIf,
          ih hentries false false]
        rfl
      by_cases hc : e.kind = .closing
      · have hblank : (Entry.blank e.kind).kind = .closing := hc
        rw [piecesFrom_closing hc, piecesFrom_closing hblank]
        simp only [templates_cons, unbroken_append, ih hentries pending pending']
      · have hblank : (Entry.blank e.kind).kind ≠ .opening ∧ (Entry.blank e.kind).kind ≠ .closing :=
          ⟨ho, hc⟩
        have hcorrelation := Entry.template_correlation (Entry.isSome_id he) pane
        have htoken : templates (token e) = templates (token (.blank e.kind)) := by
          simp only [token, templates_cons, Piece.template, List.map_cons, hcorrelation]
          rfl
        rw [piecesFrom_leaf ho hc, piecesFrom_leaf hblank.1 hblank.2]
        simp only [templates_append, unbroken_append, unbroken_templates_breakIf, htoken]
        rw [ih hentries _ (shown (.blank e.kind)).endsLine]

theorem templates_sourceText_blank {m : Model} (h : m.Valid) :
    templates (unbroken m.sourceText) =
      templates (unbroken (pieces (m.entries.map fun e => .blank e.kind))) := by
  rw [templates_unbroken, templates_unbroken]
  simp only [Model.sourceText, pieces, List.cons_append, templates_cons, templates_append,
    unbroken_append, templates_piecesFrom_blank h false false]

end SourceText

namespace Page

theorem templates_before (titles titles' : PaneTitles) {style style' : Stylesheet}
    (hstyle : style.SameSort style') {m m' : Model}
    (houtline : templates m.outline = templates m'.outline) :
    templates (before titles style m) = templates (before titles' style' m') := by
  have hpieces : templates style.pieces = templates style'.pieces := by
    cases hstyle <;> rfl
  simp only [before, head, templates_append, templates_cons, houtline, hpieces]
  rfl

end Page

theorem Stylesheet.SameSort.ne_embedded {style style' : Stylesheet} (h : style.SameSort style') :
    (∀ content, style ≠ .embedded content) ∧ ∀ content, style' ≠ .embedded content := by
  cases h <;> simp

/-- **No text changes the markup of a page.** Pages of entries of the same kinds, with styles of
the same sort, have the same marks, apart from the line breaks of the source text. -/
theorem Page.sameMarkup_of_kinds {m m' : Model} (hm : m.Valid) (hm' : m'.Valid)
    (hkinds : m.entries.map Entry.kind = m'.entries.map Entry.kind)
    (titles titles' : PaneTitles) {style style' : Stylesheet} (hstyle : style.SameSort style') :
    Page.SameMarkup titles titles' style style' m m' where
  marks := by
    have hblank : (m.entries.map fun e => Entry.blank e.kind) =
        m'.entries.map fun e => Entry.blank e.kind := by
      have hmap := congrArg (List.map Entry.blank) hkinds
      rwa [List.map_map, List.map_map] at hmap
    have houtline : templates m.outline = templates m'.outline := by
      rw [Outline.templates_outline_blank hm, hblank, ← Outline.templates_outline_blank hm']
    have hsource : templates (unbroken m.sourceText) = templates (unbroken m'.sourceText) := by
      rw [SourceText.templates_sourceText_blank hm, hblank,
        ← SourceText.templates_sourceText_blank hm']
    obtain ⟨hne, hne'⟩ := hstyle.ne_embedded
    rw [Page.withoutBreaks_page titles hne, Page.withoutBreaks_page titles' hne',
      marks_render_templates, marks_render_templates (_ ++ _)]
    simp only [templates_append, hsource, Page.templates_before titles titles' hstyle houtline]
  breaks := Page.breaksInSource titles hstyle.ne_embedded.1 m
  breaks' := Page.breaksInSource titles' hstyle.ne_embedded.2 m'

/-- Texts that spell markup, one of which ends a line, and linked styles with quotation marks. -/
theorem Page.sameMarkup_hostile :
    let m : Model :=
      { entries :=
          [ ⟨⟨'S', .opening, "<script>".toList⟩, [], some 7, 1, false⟩,
            ⟨CodeTable.text, "</span><br/>'↓".toList, some 7, 2, false⟩,
            ⟨⟨'T', .text, "\" onclick=\"".toList⟩, "<br/>".toList, some 1, 9, true⟩,
            ⟨⟨'s', .closing, "</script>\"".toList⟩, [], none, 3, false⟩ ] }
    let m' : Model :=
      { entries :=
          [ ⟨⟨'M', .opening, "Mapping".toList⟩, [], some 1, 1, false⟩,
            ⟨CodeTable.text, "a".toList, some 2, 2, false⟩,
            ⟨CodeTable.text, "b".toList, some 3, 3, false⟩,
            ⟨⟨'m', .closing, "Mapping".toList⟩, [], none, 4, false⟩ ] }
    (m.Valid ∧ m'.Valid ∧ m.entries.map Entry.kind = m'.entries.map Entry.kind) ∧
      Page.SameMarkup ⟨"<h1>".toList, "</title>".toList⟩ {} (.linked "\">".toList)
        (.linked "plain.css".toList) m m' := by
  intro m m'
  have hm : m.Valid := by simp [Model.Valid, m, Entry.fault?, Entry.kind, CodeTable.text]
  have hm' : m'.Valid := by simp [Model.Valid, m', Entry.fault?, Entry.kind, CodeTable.text]
  have hkinds : m.entries.map Entry.kind = m'.entries.map Entry.kind := by decide
  exact ⟨⟨hm, hm', hkinds⟩, Page.sameMarkup_of_kinds hm hm' hkinds _ _ (.linked _ _)⟩

end Yeast
