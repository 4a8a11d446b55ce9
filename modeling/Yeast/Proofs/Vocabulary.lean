import Yeast.Page.Basic
import Yeast.Proofs.ClassNames
import Yeast.Proofs.Markup

set_option autoImplicit false

/-! # What the panes are made of

The tags of the two panes are spelled with four names of elements, and their attributes are lists of
class names, ids, and tooltips (`Markup.Piece.InPane`). This is all that has to be known of a pane
to read it, or to tell its line breaks from its other pieces.

It also shows which values need to be escaped. Class names and ids consist of small letters, digits,
hyphens and blanks, so a page is the same if of all values only tooltips and addresses are escaped
(`Page.renderRaw_eq_render`).
-/

namespace Yeast

open Markup

namespace Markup

/-! ## Attributes -/

/-- The value is made of small letters, digits, hyphens and blanks, unless it is a tooltip. -/
def Attribute.InPane (a : Attribute) : Prop :=
  a.name = "title".toList ∨
    a.name ∈ ["class".toList, "id".toList, "data-cid".toList] ∧
      ∀ c ∈ a.value, c = ' ' ∨ c = '-' ∨ Text.isWordChar c = true

theorem Attribute.InPane.name_mem {a : Attribute} (h : a.InPane) :
    a.name ∈ ["title".toList, "class".toList, "id".toList, "data-cid".toList] := by
  rcases h with htitle | ⟨hname, -⟩
  · rw [htitle]
    exact List.mem_cons_self
  · exact List.mem_cons_of_mem _ hname

theorem inPane_classes {names : List Text} (h : ∀ name ∈ names, Text.IsClassName name) :
    (classes names).InPane := by
  refine Or.inr ⟨List.mem_cons_self, fun c hc => ?_⟩
  rcases Text.mem_joined hc with hblank | ⟨name, hname, hc⟩
  · exact Or.inl (List.mem_singleton.mp hblank)
  · exact Or.inr ((h name hname).mem hc)

theorem mem_ofInt {i : Int} {c : Char} (hc : c ∈ Text.ofInt i) :
    c = '-' ∨ Text.isWordChar c = true := by
  have hnat : ∀ n, c ∈ Text.ofNat n → Text.isWordChar c = true := by
    intro n hn
    have hdigit : c.isDigit := Nat.isDigit_of_mem_toDigits (by decide) (by decide) hn
    simp [Text.isWordChar, hdigit]
  cases i with
  | ofNat n => exact Or.inr (hnat n hc)
  | negSucc n =>
      rcases List.mem_cons.mp hc with rfl | hn
      · exact Or.inl rfl
      · exact Or.inr (hnat (n + 1) hn)

theorem inPane_correlation {pane : Text} (hpane : Text.IsClassName pane) (id : Int) :
    ∀ a ∈ correlation pane id, a.InPane := by
  have hid : (⟨"id".toList, pane ++ '-' :: Text.ofInt id⟩ : Attribute).InPane := by
    refine Or.inr ⟨by simp, fun c hc => Or.inr ?_⟩
    rcases List.mem_append.mp hc with hpart | hpart
    · exact hpane.mem hpart
    · rcases List.mem_cons.mp hpart with rfl | hnumber
      · exact Or.inl rfl
      · exact mem_ofInt hnumber
  have hdata : (⟨"data-cid".toList, Text.ofInt id⟩ : Attribute).InPane :=
    Or.inr ⟨by simp, fun c hc => Or.inr (mem_ofInt hc)⟩
  simp only [correlation, List.forall_mem_cons]
  exact ⟨hid, hdata, by simp⟩

/-! ## Pieces -/

def elementNames : List Text := ["ul".toList, "li".toList, "span".toList, "div".toList]

/-- The piece is a text, or a tag with such a name and such attributes. -/
def Piece.InPane : Piece → Prop
  | .start name attributes => name ∈ elementNames ∧ ∀ a ∈ attributes, a.InPane
  | .stop name => name ∈ elementNames
  | .text _ => True
  | .void _ _ => False
  | .verbatim _ => False

theorem inPane_start {name : Text} (hname : name ∈ elementNames) {names : List Text}
    (hnames : ∀ name ∈ names, Text.IsClassName name) {others : List Attribute}
    (hothers : ∀ a ∈ others, a.InPane) :
    (Piece.start name (classes names :: others)).InPane :=
  ⟨hname, List.forall_mem_cons.mpr ⟨inPane_classes hnames, hothers⟩⟩

theorem inPane_stop {name : Text} (h : name ∈ elementNames) : (Piece.stop name).InPane := h

def lineBreak : Piece := .void "br".toList []

/-- What the panes are made of can be read. -/
theorem Piece.InPane.readable {p : Piece} (h : p.InPane) : p.Readable := by
  -- the names are few, so that they can be read is decided
  have hnames : ∀ name ∈ elementNames, (name ≠ [] ∧ name.all isNameChar) ∧ '>' ∉ name := by decide
  have hattribute : ∀ a : Attribute, a.InPane → '=' ∉ a.name := by
    have hall : ∀ name ∈ ["title".toList, "class".toList, "id".toList, "data-cid".toList],
        '=' ∉ name := by decide
    exact fun a ha => hall a.name ha.name_mem
  cases p with
  | start name attributes => exact ⟨(hnames name h.1).1, fun a ha => hattribute a (h.2 a ha)⟩
  | stop name => exact (hnames name h).2
  | text content => trivial
  | void name attributes => exact h.elim
  | verbatim content => exact h.elim

theorem readable_lineBreak : lineBreak.Readable := ⟨by decide, by simp⟩

end Markup

/-! ## The panes -/

theorem Entry.isClassName_className (e : Entry) : Text.IsClassName e.className :=
  Text.isClassName_joined_words _

theorem TokenKind.isClassName_name (kind : TokenKind) : Text.IsClassName kind.name := by
  cases kind <;> decide

theorem Entry.inPane_correlation (e : Entry) {pane : Text} (hpane : Text.IsClassName pane) :
    ∀ a ∈ e.correlation pane, a.InPane := by
  intro a ha
  rw [Entry.correlation] at ha
  split at ha
  · exact Markup.inPane_correlation hpane _ a ha
  · simp at ha

/-- The class names that an element has for its entry. -/
theorem Entry.isClassName_leaf (e : Entry) {word : Text} (hword : Text.IsClassName word) :
    ∀ name ∈ [word, e.kind.name, e.className], Text.IsClassName name := by
  simp only [List.forall_mem_cons]
  exact ⟨hword, e.kind.isClassName_name, e.isClassName_className, by simp⟩

namespace Outline

def Row.InPane (r : Row) : Prop := ∀ p ∈ r.pieces, p.InPane

theorem inPane_span {names : List Text} (h : ∀ name ∈ names, Text.IsClassName name)
    (content : Text) : ∀ p ∈ span names content, p.InPane := by
  have hstart : (Piece.start "span".toList [classes names]).InPane :=
    inPane_start (by decide) h (by simp)
  have hstop : (Piece.stop "span".toList).InPane := inPane_stop (by decide)
  simp only [span, List.forall_mem_cons]
  exact ⟨hstart, trivial, hstop, by simp⟩

theorem inPane_item {names : List Text} (h : ∀ name ∈ names, Text.IsClassName name)
    {others : List Attribute} (hothers : ∀ a ∈ others, a.InPane) : (item names others).InPane :=
  inPane_start (by decide) h hothers

theorem inPane_itemEnd : (Piece.stop "li".toList).InPane := inPane_stop (by decide)

theorem inPane_nodeStart (level : Int) {itemTag : Piece} (h : itemTag.InPane) (label : Text) :
    ∀ r ∈ nodeStart level itemTag label, r.InPane := by
  have hlist : (Piece.start "ul".toList []).InPane := ⟨by decide, by simp⟩
  simp only [nodeStart, Row.InPane, List.forall_mem_cons]
  exact ⟨⟨h, inPane_span (by decide) label⟩, ⟨hlist, by simp⟩, by simp⟩

theorem inPane_nodeEnd (level : Int) : ∀ r ∈ nodeEnd level, r.InPane := by
  have hlist : (Piece.stop "ul".toList).InPane := inPane_stop (by decide)
  simp only [nodeEnd, Row.InPane, List.forall_mem_cons]
  exact ⟨⟨hlist, by simp⟩, ⟨inPane_itemEnd, by simp⟩, by simp⟩

theorem inPane_nodeItem (e : Entry) : (nodeItem e).InPane := by
  refine inPane_item ?_ (e.inPane_correlation (by decide))
  simp only [List.forall_mem_cons]
  exact ⟨by decide, by decide, e.isClassName_className, by simp⟩

theorem inPane_leafRow (level : Int) (e : Entry) : (leafRow level e).InPane := by
  have htooltip : ∀ a ∈ tooltip e, a.InPane := by
    intro a ha
    rw [tooltip] at ha
    split at ha
    · simp at ha
    · rw [List.mem_singleton.mp ha]
      exact Or.inl rfl
  have hothers : ∀ a ∈ e.correlation pane ++ tooltip e, a.InPane :=
    List.forall_mem_append.mpr ⟨e.inPane_correlation (by decide), htooltip⟩
  simp only [leafRow, Row.InPane, List.cons_append, List.forall_mem_cons, List.forall_mem_append]
  exact ⟨inPane_item (e.isClassName_leaf (by decide)) hothers, inPane_span (by decide) _,
    inPane_itemEnd, by simp⟩

theorem inPane_legendRows : ∀ r ∈ legendRows, r.InPane := by
  have hrow : ∀ symbol meaning, (legendRow symbol meaning).InPane := by
    intro symbol meaning
    simp only [legendRow, Row.InPane, List.cons_append, List.forall_mem_cons,
      List.forall_mem_append]
    exact ⟨inPane_item (by decide) (by simp), inPane_span (by decide) _, trivial, inPane_itemEnd,
      by simp⟩
  have hnode : (item ["node".toList, "closed".toList] (correlation pane legendId)).InPane :=
    inPane_item (by decide) (inPane_correlation (by decide) legendId)
  simp only [legendRows, List.forall_mem_append]
  refine ⟨⟨inPane_nodeStart 0 hnode _, fun r hr => ?_⟩, inPane_nodeEnd 0⟩
  obtain ⟨x, -, rfl⟩ := List.mem_map.mp hr
  exact hrow x.1 x.2

theorem inPane_rowsFrom (level : Int) (entries : List Entry) :
    ∀ r ∈ rowsFrom level entries, r.InPane := by
  induction entries generalizing level with
  | nil =>
      rw [rowsFrom]
      -- what is still open at the end is ended, level by level
      induction level.toNat with
      | zero => simp [closers]
      | succ n ih => exact List.forall_mem_append.mpr ⟨inPane_nodeEnd n, ih⟩
  | cons e entries ih =>
      by_cases ho : e.kind = .opening
      · rw [rowsFrom_opening ho]
        exact List.forall_mem_append.mpr ⟨inPane_nodeStart level (inPane_nodeItem e) _, ih _⟩
      by_cases hc : e.kind = .closing
      · rw [rowsFrom_closing hc]
        exact List.forall_mem_append.mpr ⟨inPane_nodeEnd _, ih _⟩
      · rw [rowsFrom_leaf ho hc]
        exact List.forall_mem_cons.mpr ⟨inPane_leafRow level e, ih _⟩

theorem inPane_outline (m : Model) : ∀ p ∈ m.outline, p.InPane := by
  have hstart : (Piece.start "ul".toList [classes ["tree".toList]]).InPane :=
    inPane_start (by decide) (by decide) (by simp)
  have hstop : (Piece.stop "ul".toList).InPane := inPane_stop (by decide)
  have hrows : ∀ r ∈ rows m.entries, r.InPane := by
    simp only [rows, List.forall_mem_append, List.forall_mem_cons, List.cons_append]
    exact ⟨List.forall_mem_singleton.mpr hstart, ⟨inPane_legendRows, inPane_rowsFrom 0 _⟩,
      List.forall_mem_singleton.mpr hstop, by simp⟩
  refine List.forall_mem_flatMap.mpr fun r hr => ?_
  simp only [Row.framed, List.cons_append, List.forall_mem_cons, List.forall_mem_append]
  exact ⟨trivial, hrows r hr, trivial, by simp⟩

theorem readable_outline (m : Model) : ∀ p ∈ m.outline, p.Readable :=
  fun p hp => (inPane_outline m p hp).readable

end Outline

namespace SourceText

theorem inPane_spanEnd : spanEnd.InPane := inPane_stop (by decide)

theorem inPane_scopeStart (e : Entry) : (scopeStart e).InPane := by
  refine inPane_start (by decide) ?_ (by simp)
  simp only [List.forall_mem_cons]
  exact ⟨by decide, e.isClassName_className, by simp⟩

theorem inPane_token (e : Entry) : ∀ p ∈ token e, p.InPane := by
  have hstart : (Piece.start "span".toList
      (classes ["token".toList, e.kind.name, e.className] :: e.correlation pane)).InPane :=
    inPane_start (by decide) (e.isClassName_leaf (by decide)) (e.inPane_correlation (by decide))
  simp only [token, List.forall_mem_cons]
  exact ⟨hstart, trivial, inPane_spanEnd, by simp⟩

theorem inPane_piecesFrom (pending : Bool) (level : Int) (entries : List Entry) :
    ∀ p ∈ piecesFrom pending level entries, p = Markup.lineBreak ∨ p.InPane := by
  have hbreak : ∀ pending, ∀ p ∈ breakIf pending, p = Markup.lineBreak ∨ p.InPane := by
    intro pending
    cases pending with
    | false => simp [breakIf]
    | true =>
        exact List.forall_mem_cons.mpr ⟨Or.inl rfl, List.forall_mem_singleton.mpr (Or.inr trivial)⟩
  induction entries generalizing pending level with
  | nil =>
      intro p hp
      rw [List.eq_of_mem_replicate hp]
      exact Or.inr inPane_spanEnd
  | cons e entries ih =>
      by_cases ho : e.kind = .opening
      · rw [piecesFrom_opening ho]
        exact List.forall_mem_append.mpr ⟨hbreak pending,
          List.forall_mem_cons.mpr ⟨Or.inr (inPane_scopeStart e), ih _ _⟩⟩
      by_cases hc : e.kind = .closing
      · rw [piecesFrom_closing hc]
        exact List.forall_mem_cons.mpr ⟨Or.inr inPane_spanEnd, ih _ _⟩
      · rw [piecesFrom_leaf ho hc]
        simp only [List.forall_mem_append]
        exact ⟨hbreak pending, fun p hp => Or.inr (inPane_token e p hp), ih _ _⟩

/-- The source text has line breaks between such pieces. -/
theorem inPane_sourceText (m : Model) : ∀ p ∈ m.sourceText, p = Markup.lineBreak ∨ p.InPane := by
  have hstart : (Piece.start "div".toList [classes ["text".toList]]).InPane :=
    inPane_start (by decide) (by decide) (by simp)
  have hstop : (Piece.stop "div".toList).InPane := inPane_stop (by decide)
  simp only [Model.sourceText, pieces, List.cons_append, List.forall_mem_cons,
    List.forall_mem_append]
  exact ⟨Or.inr hstart, inPane_piecesFrom false 0 _, Or.inr hstop, Or.inr trivial, by simp⟩

theorem readable_sourceText (m : Model) : ∀ p ∈ m.sourceText, p.Readable := by
  intro p hp
  rcases inPane_sourceText m p hp with rfl | hinPane
  · exact readable_lineBreak
  · exact hinPane.readable

end SourceText

/-! ## Values that need no escaping -/

namespace Markup

/-- The attributes that have free texts as values: tooltips and the address of a style. -/
def freeNames : List Text := ["title".toList, "href".toList]

/-- The attribute, with its value escaped only if that is a free text. -/
def Attribute.renderRaw (a : Attribute) : Text :=
  ' ' :: a.name ++ '=' :: '"' :: (if a.name ∈ freeNames then escaped a.value else a.value) ++ ['"']

def Piece.renderRaw : Piece → Text
  | start name attributes => '<' :: name ++ attributes.flatMap Attribute.renderRaw ++ ['>']
  | void name attributes => '<' :: name ++ attributes.flatMap Attribute.renderRaw ++ ['/', '>']
  | p => p.render

def renderRaw (pieces : List Piece) : Text := pieces.flatMap Piece.renderRaw

def Piece.attributes : Piece → List Attribute
  | start _ attributes => attributes
  | void _ attributes => attributes
  | _ => []

def attributes (pieces : List Piece) : List Attribute := pieces.flatMap Piece.attributes

@[simp]
theorem attributes_cons (p : Piece) (pieces : List Piece) :
    attributes (p :: pieces) = p.attributes ++ attributes pieces := rfl

@[simp]
theorem attributes_append (pieces more : List Piece) :
    attributes (pieces ++ more) = attributes pieces ++ attributes more := List.flatMap_append

/-- Escaping leaves the value alone, unless that is a free text. -/
def Attribute.Bare (a : Attribute) : Prop := a.name ∉ freeNames → escaped a.value = a.value

theorem Attribute.Bare.renderRaw {a : Attribute} (h : a.Bare) : a.renderRaw = a.render := by
  rw [Attribute.renderRaw, Attribute.render]
  split_ifs with hfree
  · rfl
  · rw [h hfree]

theorem Attribute.InPane.bare {a : Attribute} (h : a.InPane) : a.Bare := by
  intro hfree
  rcases h with htitle | ⟨-, hvalue⟩
  · exact absurd (by simp [htitle, freeNames]) hfree
  · refine Text.escaped_eq_self fun c hc hspecial => ?_
    -- no character that is escaped can stand in such a value
    have hall : ['&', '<', '>', '"', '\''].all
        fun d => !(d = ' ' || d = '-' || Text.isWordChar d) := by decide
    have hd := List.all_eq_true.mp hall c hspecial
    rcases hvalue c hc with rfl | rfl | hword
    · exact absurd hd (by decide)
    · exact absurd hd (by decide)
    · simp [hword] at hd

theorem renderRaw_eq_render {pieces : List Piece} (h : ∀ a ∈ attributes pieces, a.Bare) :
    renderRaw pieces = render pieces := by
  refine List.flatMap_congr fun p hp => ?_
  have hraw : p.attributes.flatMap Attribute.renderRaw = p.attributes.flatMap Attribute.render :=
    List.flatMap_congr fun a ha => (h a (List.mem_flatMap.mpr ⟨p, hp, ha⟩)).renderRaw
  cases p with
  | start name attributes => exact congrArg ('<' :: name ++ · ++ ['>']) hraw
  | void name attributes => exact congrArg ('<' :: name ++ · ++ ['/', '>']) hraw
  | _ => rfl

theorem bare_of_inPane {pieces : List Piece} (h : ∀ p ∈ pieces, p = lineBreak ∨ p.InPane) :
    ∀ a ∈ attributes pieces, a.Bare := by
  refine List.forall_mem_flatMap.mpr fun p hp => ?_
  rcases h p hp with rfl | hinPane
  · simp [lineBreak, Piece.attributes]
  · cases p with
    | start name attributes => exact fun a ha => (hinPane.2 a ha).bare
    | void name attributes => exact hinPane.elim
    | _ => simp [Piece.attributes]

end Markup

theorem Outline.bare_outline (m : Model) : ∀ a ∈ attributes m.outline, a.Bare :=
  bare_of_inPane fun p hp => Or.inr (Outline.inPane_outline m p hp)

theorem SourceText.bare_sourceText (m : Model) : ∀ a ∈ attributes m.sourceText, a.Bare :=
  bare_of_inPane (SourceText.inPane_sourceText m)

namespace Page

/-- The only attributes outside the panes that are not fixed are those of the style. -/
theorem attributes_pieces (titles : PaneTitles) (style : Stylesheet) (m : Model) :
    attributes (pieces titles style m) =
      ⟨"charset".toList, "utf-8".toList⟩ :: attributes style.pieces ++
        (classes ["pane".toList] :: ⟨"id".toList, "tree-pane".toList⟩ :: attributes m.outline) ++
        (classes ["pane".toList] :: ⟨"id".toList, "text-pane".toList⟩ ::
          attributes m.sourceText) := by
  have hnil : attributes [] = [] := rfl
  simp [pieces, head, body, pane, Piece.newline, Piece.attributes, hnil]

theorem bare_style (style : Stylesheet) : ∀ a ∈ attributes style.pieces, a.Bare := by
  cases style with
  | linked address =>
      have hattributes : attributes (Stylesheet.linked address).pieces =
          [⟨"rel".toList, "stylesheet".toList⟩, ⟨"type".toList, "text/css".toList⟩,
            ⟨"href".toList, address⟩] := rfl
      rw [hattributes]
      simp only [List.forall_mem_cons]
      exact ⟨fun _ => rfl, fun _ => rfl, fun hfree => absurd (by simp [freeNames]) hfree, by simp⟩
  | _ => exact fun _ ha => nomatch ha

/-- **A page is the same if only tooltips and addresses are escaped among the values of its
attributes.** -/
theorem renderRaw_eq_render (titles : PaneTitles) (style : Stylesheet) (m : Model) :
    renderRaw (pieces titles style m) = render titles style m := by
  refine Markup.renderRaw_eq_render ?_
  rw [attributes_pieces]
  simp only [List.forall_mem_append, List.forall_mem_cons, List.cons_append]
  exact ⟨fun _ => rfl,
    ⟨bare_style style, fun _ => rfl, fun _ => rfl, Outline.bare_outline m⟩,
    fun _ => rfl, fun _ => rfl, SourceText.bare_sourceText m⟩

end Page

/-- And so is each pane alone. -/
theorem Model.renderRaw_panes (m : Model) :
    renderRaw m.outline = m.renderOutline ∧ renderRaw m.sourceText = m.renderSourceText :=
  ⟨Markup.renderRaw_eq_render (Outline.bare_outline m),
    Markup.renderRaw_eq_render (SourceText.bare_sourceText m)⟩

end Yeast
