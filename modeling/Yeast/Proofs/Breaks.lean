import Yeast.Page.Basic
import Yeast.Proofs.Outline
import Yeast.Proofs.SourceText

set_option autoImplicit false

/-! # The line breaks of a page

The only elements of a page that depend on the texts it shows are the line breaks of the source
text. They can be deleted from the text of the page as well as from its pieces
(`withoutBreaks_render`), since no other piece of a page spells one: names consist of letters, texts
and values are escaped, and in the style and the script no bracket stands before a `b`
(`isSolid_builtinStyle`, `isSolid_script`). An embedded style may spell anything.
-/

namespace Yeast

open Markup

def Text.withoutBreaks (text : Text) : Text := Text.substitute [⟨"<br/>".toList, []⟩] text

namespace Markup

def unbroken (pieces : List Piece) : List Piece := pieces.filter (· ≠ lineBreak)

end Markup

/-- The line breaks that are spelled in the page are those between its tokens. -/
def Page.BreaksInSource (titles : PaneTitles) (style : Stylesheet) (m : Model) : Prop :=
  ∃ front back, Page.render titles style m = front ++ (m.renderSourceText ++ back) ∧
    (Page.render titles style m).withoutBreaks =
      front ++ (Markup.render (unbroken m.sourceText) ++ back)

/-! ## Texts in which no line break begins -/

namespace Text

theorem withoutBreaks_break (text : Text) :
    withoutBreaks ("<br/>".toList ++ text) = withoutBreaks text := by
  have hrule : rule? [⟨"<br/>".toList, []⟩] ("<br/>".toList ++ text) =
      some ⟨"<br/>".toList, []⟩ := rfl
  rw [withoutBreaks, substitute_of_rule?_eq_some hrule (by decide)]
  rfl

theorem withoutBreaks_cons {c : Char} {text : Text} (h : ¬ "<br/>".toList <+: c :: text) :
    withoutBreaks (c :: text) = c :: withoutBreaks text := by
  have hrule : rule? [⟨"<br/>".toList, []⟩] (c :: text) = none := by
    simp only [rule?, List.find?_eq_none, List.mem_singleton, forall_eq,
      List.isPrefixOf_iff_prefix]
    exact h
  exact substitute_of_rule?_eq_none hrule

end Text

namespace Markup

@[simp]
theorem unbroken_append (pieces more : List Piece) :
    unbroken (pieces ++ more) = unbroken pieces ++ unbroken more := List.filter_append ..

/-- No line break begins in the text, whatever stands behind it. -/
def Solid (text : Text) : Prop :=
  ∀ rest, Text.withoutBreaks (text ++ rest) = text ++ Text.withoutBreaks rest

namespace Solid

theorem nil : Solid [] := fun _ => rfl

theorem cons {c : Char} {text : Text}
    (h : ∀ rest, ¬ (['<', 'b', 'r', '/', '>'] <+: c :: (text ++ rest))) (htext : Solid text) :
    Solid (c :: text) := by
  intro rest
  rw [List.cons_append, Text.withoutBreaks_cons (h rest), htext rest]
  rfl

theorem append {s t : Text} (hs : Solid s) (ht : Solid t) : Solid (s ++ t) := by
  intro rest
  rw [List.append_assoc, hs, ht, List.append_assoc]

theorem of_not_mem {text : Text} (h : '<' ∉ text) : Solid text := by
  induction text with
  | nil => exact nil
  | cons c text ih =>
      obtain ⟨hc, htext⟩ := List.ne_and_not_mem_of_not_mem_cons h
      refine cons (fun rest hprefix => hc ?_) (ih htext)
      exact (List.cons_prefix_cons.mp hprefix).1

end Solid

/-- Behind every bracket in the text stands a character that begins no name of a line break. -/
def isSolid : Text → Bool
  | [] => true
  | c :: text => (c != '<' || text.head?.any (· != 'b')) && isSolid text

theorem solid_of_isSolid {text : Text} (h : isSolid text = true) : Solid text := by
  induction text with
  | nil => exact .nil
  | cons c text ih =>
      rw [isSolid, Bool.and_eq_true, Bool.or_eq_true] at h
      refine .cons (fun rest hprefix => ?_) (ih h.2)
      obtain ⟨hc, hbehind⟩ := List.cons_prefix_cons.mp hprefix
      rcases h.1 with hne | hhead
      · simp [← hc] at hne
      · cases text with
        | nil => simp at hhead
        | cons d text =>
            have hd := (List.cons_prefix_cons.mp hbehind).1
            simp [← hd] at hhead

theorem isSolid_append {s t : Text} (hs : isSolid s = true) (ht : isSolid t = true) :
    isSolid (s ++ t) = true := by
  induction s with
  | nil => exact ht
  | cons c s ih =>
      rw [isSolid, Bool.and_eq_true] at hs
      rw [List.cons_append, isSolid, Bool.and_eq_true]
      refine ⟨?_, ih hs.2⟩
      cases s with
      | nil =>
          have hc : c ≠ '<' := by simpa using hs.1
          simp [hc]
      | cons d s => exact hs.1

theorem isSolid_ofRows {rows : List Text} (h : ∀ row ∈ rows, isSolid row = true) :
    isSolid (Text.ofRows rows) = true := by
  induction rows with
  | nil => rfl
  | cons row rows ih =>
      obtain ⟨hrow, hrows⟩ := List.forall_mem_cons.mp h
      have hend : isSolid ('\n' :: Text.ofRows rows) = true := by simp [isSolid, ih hrows]
      rw [Text.ofRows_cons]
      exact isSolid_append hrow hend

/-- The characters of a literal need not be decoded. -/
theorem isSolid_literal (text : Text) (h : isSolid text = true) :
    isSolid (String.ofList text).toList = true := by
  rwa [String.toList_ofList]

/-- No line break begins in the built-in style. -/
theorem isSolid_builtinStyle : isSolid builtinStyle = true := by
  refine isSolid_ofRows ?_
  unfold builtinStyleRows
  repeat refine List.forall_mem_cons.mpr ⟨isSolid_literal _ (by decide), ?_⟩
  simp

/-- No line break begins in the script. -/
theorem isSolid_script : isSolid script = true := by
  refine isSolid_ofRows ?_
  unfold scriptRows
  repeat refine List.forall_mem_cons.mpr ⟨isSolid_literal _ (by decide), ?_⟩
  simp

/-- A name spells that of a line break, before the end of a tag, only if it is that name. -/
theorem eq_of_prefix_tag {name : Text} (hname : name.all isNameChar) {c : Char}
    (hc : isNameChar c = false) {rest : Text} (h : ['b', 'r', '/', '>'] <+: name ++ c :: rest) :
    name = ['b', 'r'] ∧ c = '/' ∧ ['>'] <+: rest := by
  rw [List.all_eq_true] at hname
  -- The first two letters are none but those of the name, and the third cannot be one of it.
  cases name with
  | nil =>
      obtain ⟨rfl, -⟩ := List.cons_prefix_cons.mp h
      exact absurd hc (by decide)
  | cons x name =>
      obtain ⟨rfl, hx⟩ := List.cons_prefix_cons.mp h
      cases name with
      | nil =>
          obtain ⟨rfl, -⟩ := List.cons_prefix_cons.mp hx
          exact absurd hc (by decide)
      | cons y name =>
          obtain ⟨rfl, hy⟩ := List.cons_prefix_cons.mp hx
          cases name with
          | nil =>
              obtain ⟨rfl, hend⟩ := List.cons_prefix_cons.mp hy
              exact ⟨rfl, rfl, hend⟩
          | cons z name =>
              obtain ⟨rfl, -⟩ := List.cons_prefix_cons.mp hy
              have hslash := hname '/' (by simp)
              exact absurd hslash (by decide)

/-- The names in the piece are names, and no line break begins in it. -/
def Piece.Plain : Piece → Prop
  | .start name attributes => name.all isNameChar ∧ ∀ a ∈ attributes, a.name.all isNameChar
  | .void name attributes =>
    (name.all isNameChar ∧ name ≠ ['b', 'r']) ∧ ∀ a ∈ attributes, a.name.all isNameChar
  | .stop name => name.all isNameChar
  | .text _ => True
  | .verbatim content => isSolid content

theorem bracket_not_mem_name {name : Text} (h : name.all isNameChar) : '<' ∉ name := by
  intro hmem
  rw [List.all_eq_true] at h
  exact absurd (h _ hmem) (by decide)

theorem bracket_not_mem_attributes {attributes : List Attribute}
    (h : ∀ a ∈ attributes, a.name.all isNameChar) :
    '<' ∉ attributes.flatMap Attribute.render := by
  intro hmem
  obtain ⟨a, ha, hmem⟩ := List.mem_flatMap.mp hmem
  have hname := bracket_not_mem_name (h a ha)
  have hvalue : '<' ∉ escaped a.value := special_not_mem_escaped (by simp) _
  simp [Attribute.render, hname, hvalue] at hmem

/-- No line break begins in the tag of another element. -/
theorem solid_tag {name : Text} {attributes : List Attribute} (hname : name.all isNameChar)
    (hattributes : ∀ a ∈ attributes, a.name.all isNameChar) {isVoid : Bool}
    (hne : isVoid = true → name ≠ ['b', 'r']) :
    Solid ('<' :: (name ++ (attributes.flatMap Attribute.render ++ tagEnd isVoid))) := by
  have hbracket : '<' ∉ name ++ (attributes.flatMap Attribute.render ++ tagEnd isVoid) := by
    have hend : '<' ∉ tagEnd isVoid := by cases isVoid <;> decide
    simp [bracket_not_mem_name hname, bracket_not_mem_attributes hattributes, hend]
  refine .cons (fun rest hprefix => ?_) (.of_not_mem hbracket)
  obtain ⟨-, hprefix⟩ := List.cons_prefix_cons.mp hprefix
  rw [List.append_assoc, List.append_assoc] at hprefix
  -- a break has a slash right behind its name; here the end of the tag or a blank stands there
  cases attributes with
  | nil =>
      cases isVoid with
      | false =>
          obtain ⟨-, hslash, -⟩ := eq_of_prefix_tag hname (by decide) hprefix
          simp at hslash
      | true =>
          obtain ⟨hbr, -⟩ := eq_of_prefix_tag hname (by decide) hprefix
          exact hne rfl hbr
  | cons a attributes =>
      obtain ⟨-, hblank, -⟩ := eq_of_prefix_tag hname (c := ' ') (by decide) hprefix
      simp at hblank

theorem Piece.Plain.ne_lineBreak {p : Piece} (h : p.Plain) : p ≠ lineBreak := by
  rintro rfl
  exact h.1.2 rfl

theorem Piece.Plain.solid {p : Piece} (h : p.Plain) : Solid p.render := by
  cases p with
  | start name attributes =>
      have hrender : (Piece.start name attributes).render =
          '<' :: (name ++ (attributes.flatMap Attribute.render ++ tagEnd false)) := by
        simp [Piece.render, tagEnd]
      rw [hrender]
      exact solid_tag h.1 h.2 (by simp)
  | void name attributes =>
      have hrender : (Piece.void name attributes).render =
          '<' :: (name ++ (attributes.flatMap Attribute.render ++ tagEnd true)) := by
        simp [Piece.render, tagEnd]
      rw [hrender]
      exact solid_tag h.1.1 h.2 fun _ => h.1.2
  | stop name =>
      have hbracket : '<' ∉ '/' :: (name ++ ['>']) := by
        simp [bracket_not_mem_name h]
      refine .cons (fun rest hprefix => ?_) (.of_not_mem hbracket)
      obtain ⟨-, hprefix⟩ := List.cons_prefix_cons.mp hprefix
      obtain ⟨hslash, -⟩ := List.cons_prefix_cons.mp hprefix
      simp at hslash
  | text content => exact .of_not_mem (special_not_mem_escaped (by simp) content)
  | verbatim content => exact solid_of_isSolid h

theorem solid_render {pieces : List Piece} (h : ∀ p ∈ pieces, p.Plain) :
    Solid (render pieces) := by
  induction pieces with
  | nil => exact .nil
  | cons p pieces ih =>
      obtain ⟨hp, hpieces⟩ := List.forall_mem_cons.mp h
      exact hp.solid.append (ih hpieces)

/-- **Deleting the line breaks of a text deletes those among its pieces.** -/
theorem withoutBreaks_render {pieces : List Piece} (h : ∀ p ∈ pieces, p = lineBreak ∨ p.Plain) :
    Text.withoutBreaks (render pieces) = render (unbroken pieces) := by
  induction pieces with
  | nil => rfl
  | cons p pieces ih =>
      obtain ⟨hp, hpieces⟩ := List.forall_mem_cons.mp h
      rw [render_cons]
      rcases hp with rfl | hp
      · exact (Text.withoutBreaks_break _).trans (ih hpieces)
      · have hkeep : unbroken (p :: pieces) = p :: unbroken pieces :=
          List.filter_cons_of_pos (by simpa using hp.ne_lineBreak)
        rw [hp.solid, ih hpieces, hkeep, render_cons]

theorem unbroken_of_plain {pieces : List Piece} (h : ∀ p ∈ pieces, p.Plain) :
    unbroken pieces = pieces :=
  List.filter_eq_self.mpr fun p hp => by simpa using (h p hp).ne_lineBreak

theorem plain_stop {name : Text} (h : name.all isNameChar) : (Piece.stop name).Plain := h

/-- A start tag with classes. -/
theorem plain_start {name : Text} (hname : name.all isNameChar) (names : List Text)
    {others : List Attribute} (h : ∀ a ∈ others, a.name.all isNameChar) :
    (Piece.start name (classes names :: others)).Plain := by
  have hclass : "class".toList.all isNameChar := by decide
  exact ⟨hname, List.forall_mem_cons.mpr ⟨hclass, h⟩⟩

/-- What the panes are made of is plain. -/
theorem Piece.InPane.plain {p : Piece} (h : p.InPane) : p.Plain := by
  have hnames : ∀ name ∈ elementNames, name.all isNameChar := by decide
  have hattribute : ∀ a : Attribute, a.InPane → a.name.all isNameChar := by
    have hall : ∀ name ∈ ["title".toList, "class".toList, "id".toList, "data-cid".toList],
        name.all isNameChar := by decide
    exact fun a ha => hall a.name ha.name_mem
  cases p with
  | start name attributes => exact ⟨hnames name h.1, fun a ha => hattribute a (h.2 a ha)⟩
  | stop name => exact hnames name h
  | text content => trivial
  | void name attributes => exact h.elim
  | verbatim content => exact h.elim

end Markup

/-! ## The pieces of a page are plain -/

theorem Outline.plain_outline (m : Model) : ∀ p ∈ m.outline, p.Plain :=
  fun p hp => (inPane_outline m p hp).plain

theorem SourceText.plain_sourceText (m : Model) :
    ∀ p ∈ m.sourceText, p = Markup.lineBreak ∨ p.Plain :=
  fun p hp => (inPane_sourceText m p hp).imp_right Piece.InPane.plain

namespace Page

def paneStart (id title : Text) : List Piece :=
  [ .start "div".toList [classes ["pane".toList], ⟨"id".toList, id⟩], .newline,
    .start "h2".toList [], .text title, .stop "h2".toList, .newline ]

def paneEnd : List Piece := [.stop "div".toList, .newline]

/-- What stands before the source text. -/
def before (titles : PaneTitles) (style : Stylesheet) (m : Model) : List Piece :=
  [.verbatim "<!DOCTYPE html>".toList, .newline, .start "html".toList [], .newline] ++
  (head titles style ++ ([.start "body".toList [], .newline] ++
    (paneStart "tree-pane".toList titles.outline ++ (m.outline ++ (paneEnd ++
      paneStart "text-pane".toList titles.source)))))

/-- What stands behind the source text. -/
def behind : List Piece :=
  paneEnd ++ [.stop "body".toList, .newline, .stop "html".toList, .newline]

theorem pieces_eq (titles : PaneTitles) (style : Stylesheet) (m : Model) :
    pieces titles style m = before titles style m ++ (m.sourceText ++ behind) := by
  simp [pieces, body, pane, before, behind, paneStart, paneEnd]

theorem plain_paneStart (id title : Text) : ∀ p ∈ paneStart id title, p.Plain := by
  have hid : "id".toList.all isNameChar := by decide
  have hheading : (Piece.start "h2".toList []).Plain := ⟨by decide, by simp⟩
  have hstop : (Piece.stop "h2".toList).Plain := plain_stop (by decide)
  have hdivision : (Piece.start "div".toList [classes ["pane".toList], ⟨"id".toList, id⟩]).Plain :=
    plain_start (by decide) _ (List.forall_mem_singleton.mpr hid)
  simp only [paneStart, List.forall_mem_cons]
  exact ⟨hdivision, trivial, hheading, trivial, hstop, trivial, by simp⟩

theorem plain_paneEnd : ∀ p ∈ paneEnd, p.Plain := by
  have hstop : (Piece.stop "div".toList).Plain := plain_stop (by decide)
  simp only [paneEnd, List.forall_mem_cons]
  exact ⟨hstop, trivial, by simp⟩

theorem plain_style {style : Stylesheet} (h : ∀ content, style ≠ .embedded content) :
    ∀ p ∈ style.pieces, p.Plain := by
  cases style with
  | builtin =>
      have hstart : (Piece.start "style".toList []).Plain := ⟨by decide, by simp⟩
      have hstop : (Piece.stop "style".toList).Plain := plain_stop (by decide)
      have hcontent : (Piece.verbatim builtinStyle).Plain := isSolid_builtinStyle
      simp only [Stylesheet.pieces, List.forall_mem_cons]
      exact ⟨hstart, trivial, hcontent, hstop, by simp⟩
  | linked address =>
      have hnames : ∀ name ∈ ["rel".toList, "type".toList, "href".toList],
          name.all isNameChar := by decide
      have hlink : (Piece.void "link".toList [⟨"rel".toList, "stylesheet".toList⟩,
          ⟨"type".toList, "text/css".toList⟩, ⟨"href".toList, address⟩]).Plain := by
        refine ⟨by decide, fun a ha => hnames a.name ?_⟩
        simp only [List.mem_cons, List.not_mem_nil, or_false] at ha ⊢
        rcases ha with rfl | rfl | rfl <;> simp
      exact List.forall_mem_singleton.mpr hlink
  | embedded content => exact absurd rfl (h content)

theorem plain_head (titles : PaneTitles) {style : Stylesheet}
    (h : ∀ content, style ≠ .embedded content) : ∀ p ∈ head titles style, p.Plain := by
  have hmeta : (Piece.void "meta".toList [⟨"charset".toList, "utf-8".toList⟩]).Plain :=
    ⟨by decide, by decide⟩
  have hstart : ∀ name ∈ ["head".toList, "title".toList, "script".toList],
      (Piece.start name []).Plain ∧ (Piece.stop name).Plain := by
    have hnames : ∀ name ∈ ["head".toList, "title".toList, "script".toList],
        name.all isNameChar := by decide
    exact fun name hname => ⟨⟨hnames name hname, by simp⟩, hnames name hname⟩
  have hscript : (Piece.verbatim script).Plain := isSolid_script
  obtain ⟨hhead, htitle, helement⟩ := by
    simpa only [List.forall_mem_cons] using hstart
  simp only [head, List.cons_append, List.nil_append, List.forall_mem_cons, List.forall_mem_append]
  exact ⟨hhead.1, trivial, hmeta, trivial, htitle.1, trivial, htitle.2, trivial, plain_style h,
    trivial, helement.1.1, trivial, hscript, helement.1.2, trivial, hhead.2, trivial, by simp⟩

theorem plain_before (titles : PaneTitles) {style : Stylesheet}
    (h : ∀ content, style ≠ .embedded content) (m : Model) :
    ∀ p ∈ before titles style m, p.Plain := by
  have hdoctype : (Piece.verbatim "<!DOCTYPE html>".toList).Plain := by
    show isSolid "<!DOCTYPE html>".toList
    decide
  have hstarts : (Piece.start "html".toList []).Plain ∧ (Piece.start "body".toList []).Plain :=
    ⟨⟨by decide, by simp⟩, ⟨by decide, by simp⟩⟩
  simp only [before, List.cons_append, List.nil_append, List.forall_mem_cons,
    List.forall_mem_append]
  exact ⟨hdoctype, trivial, hstarts.1, trivial, plain_head titles h, hstarts.2, trivial,
    plain_paneStart _ _, Outline.plain_outline m, plain_paneEnd, plain_paneStart _ _⟩

theorem plain_behind : ∀ p ∈ behind, p.Plain := by
  have hstops : (Piece.stop "body".toList).Plain ∧ (Piece.stop "html".toList).Plain :=
    ⟨plain_stop (by decide), plain_stop (by decide)⟩
  simp only [behind, List.forall_mem_append, List.forall_mem_cons]
  exact ⟨plain_paneEnd, hstops.1, trivial, hstops.2, trivial, by simp⟩

/-- Deleting the line breaks of a page leaves its pieces without those of the source text. -/
theorem withoutBreaks_page (titles : PaneTitles) {style : Stylesheet}
    (h : ∀ content, style ≠ .embedded content) (m : Model) :
    (render titles style m).withoutBreaks =
      Markup.render (before titles style m ++ (unbroken m.sourceText ++ behind)) := by
  have hplain : ∀ p ∈ pieces titles style m, p = lineBreak ∨ p.Plain := by
    rw [pieces_eq]
    simp only [List.forall_mem_append]
    exact ⟨fun p hp => Or.inr (plain_before titles h m p hp), SourceText.plain_sourceText m,
      fun p hp => Or.inr (plain_behind p hp)⟩
  rw [render, withoutBreaks_render hplain, pieces_eq, unbroken_append, unbroken_append,
    unbroken_of_plain (plain_before titles h m), unbroken_of_plain plain_behind]

theorem breaksInSource (titles : PaneTitles) {style : Stylesheet}
    (h : ∀ content, style ≠ .embedded content) (m : Model) : BreaksInSource titles style m := by
  refine ⟨Markup.render (before titles style m), Markup.render behind, ?_, ?_⟩
  · rw [render, pieces_eq, render_append, render_append, Model.renderSourceText]
  · rw [withoutBreaks_page titles h, render_append, render_append]

end Page

end Yeast
