import Yeast.Proofs.Panes
import Yeast.Proofs.Vocabulary

set_option autoImplicit false

/-! # The outline shows the forest of a model

The outline is read back by a reader of markup that knows nothing of it. Its tags are well nested,
and the tags of a node stand in the same column. Behind the legend its items are the forest of the
entries, each with a label and attributes that tell the kind, the title, the id and the text of
its entry (`Model.OutlineFaithful`).

The rows are read one after another, with the nodes open before a row on a stack. While the model's
entries are read with the opening entries on a stack of their own, the two stacks stay in step
(`nodeTags`), so that a closing entry always ends the node it should, as do the rows behind the
last entry.
-/

namespace Yeast

open Markup

namespace Outline

/-- The tag begins a node of the list. -/
def isNode (t : Tag) : Bool := leadsWith "node".toList t.attributes

/-- A tag is ended by one of its name, and that of a node by one that begins a line as the first
does, in the same column. -/
def EndedBy (o c : Tag) : Prop :=
  o.name = c.name ∧ (isNode o = true → o.column.isSome ∧ c.column = o.column)

instance : DecidableRel EndedBy := fun o c =>
  inferInstanceAs (Decidable (o.name = c.name ∧
    (isNode o = true → o.column.isSome ∧ c.column = o.column)))

/-! ## The tokens of rows -/

def Row.tokens (r : Row) : List Token := r.framed.flatMap Piece.tokens

theorem escaped_blanks (n : Nat) : escaped (List.replicate n ' ') = List.replicate n ' ' := by
  induction n with
  | zero => rfl
  | succ n ih =>
      rw [List.replicate_succ]
      exact congrArg (' ' :: ·) ih

theorem Row.tokens_append (r : Row) (rest : List Token) :
    r.tokens ++ rest = (List.replicate (2 * r.steps) ' ').map .char ++
      (r.pieces.flatMap Piece.tokens ++ .char '\n' :: rest) := by
  simp [Row.tokens, Row.framed, escaped_blanks]

theorem tagsFrom_row (r : Row) (rest : List Token) :
    tagsFrom (some 0) (r.tokens ++ rest) =
      tagsFrom (some (2 * r.steps)) (r.pieces.flatMap Piece.tokens ++ .char '\n' :: rest) := by
  rw [Row.tokens_append, tagsFrom_chars, foldl_columnAfter_blanks, Nat.zero_add]

theorem span_tokens (names : List Text) (content : Text) (rest : List Token) :
    (span names content).flatMap Piece.tokens ++ rest =
      .start "span".toList [(classes names).written] ::
        ((escaped content).map .char ++ .stop "span".toList :: rest) := by
  rw [span]
  simp only [List.flatMap_cons, List.flatMap_nil, Piece.tokens_start, Piece.tokens_text,
    Piece.tokens_stop, List.map_cons, List.map_nil, List.cons_append, List.append_assoc,
    List.nil_append]

theorem rows_tokens (entries : List Entry) :
    (rows entries).flatMap Row.tokens =
      Row.tokens ⟨0, [.start "ul".toList [classes ["tree".toList]]]⟩ ++
        (legendRows.flatMap Row.tokens ++ ((rowsFrom 0 entries).flatMap Row.tokens ++
          Row.tokens ⟨0, [.stop "ul".toList]⟩)) := by
  rw [rows, List.flatMap_append, List.cons_append, List.flatMap_cons, List.flatMap_append,
    List.append_assoc, List.append_assoc, List.flatMap_singleton]

theorem itemEnd_tokens (after : Text) (rest : List Token) :
    [Piece.text after, .stop "li".toList].flatMap Piece.tokens ++ rest =
      (escaped after).map .char ++ .stop "li".toList :: rest := by
  rw [List.flatMap_cons, List.flatMap_singleton, Piece.tokens_text, Piece.tokens_stop,
    List.append_assoc, List.singleton_append]

/-! ## Tags of rows -/

def itemTag (level : Nat) (names : List Text) (others : List Attribute) : Tag :=
  ⟨"li".toList, (classes names :: others).map Attribute.written, some (2 * steps level)⟩

def listTag (level : Nat) : Tag := ⟨"ul".toList, [], some (2 * (steps level + 1))⟩

/-- The first tag of a row stands behind the indentation. -/
theorem tagsFrom_startRow (n : Nat) (name : Text) (attributes : List Attribute)
    (pieces : List Piece) (rest : List Token) :
    tagsFrom (some 0) (Row.tokens ⟨n, .start name attributes :: pieces⟩ ++ rest) =
      .opening ⟨name, attributes.map Attribute.written, some (2 * n)⟩ ::
        tagsFrom none (pieces.flatMap Piece.tokens ++ .char '\n' :: rest) := by
  have htokens : (Piece.start name attributes :: pieces).flatMap Piece.tokens =
      .start name (attributes.map Attribute.written) :: pieces.flatMap Piece.tokens := rfl
  rw [tagsFrom_row]
  show tagsFrom (some (2 * n)) ((Piece.start name attributes :: pieces).flatMap Piece.tokens ++ _) =
    _
  rw [htokens, List.cons_append, tagsFrom_start]

theorem tagsFrom_stopRow (n : Nat) (name : Text) (rest : List Token) :
    tagsFrom (some 0) (Row.tokens ⟨n, [.stop name]⟩ ++ rest) =
      .closing ⟨name, [], some (2 * n)⟩ :: tagsFrom (some 0) rest := by
  rw [tagsFrom_row]
  rfl

theorem endedBy_of_not_node {o c : Tag} (hname : o.name = c.name) (ho : isNode o = false) :
    EndedBy o c := by
  refine ⟨hname, fun hnode => ?_⟩
  rw [ho] at hnode
  exact absurd hnode (by decide)

/-- A span that begins and ends in a row leaves what is open before it. -/
theorem remaining_span (s : List Tag) {names : List Text}
    (h : isNode ⟨"span".toList, [(classes names).written], none⟩ = false) (content : Text)
    (rest : List Token) :
    Bracket.remaining EndedBy s
        (tagsFrom none ((span names content).flatMap Piece.tokens ++ rest)) =
      Bracket.remaining EndedBy s (tagsFrom none rest) := by
  -- The content may hold line feeds, so the end can stand in any column.
  have hends : ∀ column, EndedBy ⟨"span".toList, [(classes names).written], none⟩
      ⟨"span".toList, [], column⟩ := fun _ => endedBy_of_not_node rfl h
  rw [span_tokens, tagsFrom_start, tagsFrom_chars, tagsFrom_stop]
  rw [Bracket.remaining_opening, Bracket.remaining_closing_cons, if_pos (hends _)]

theorem remaining_nodeStart (s : List Tag) (level : Nat) (names : List Text)
    (others : List Attribute) (label : Text) (rest : List Token) :
    Bracket.remaining EndedBy s (tagsFrom (some 0)
        ((nodeStart level (item names others) label).flatMap Row.tokens ++ rest)) =
      Bracket.remaining EndedBy (listTag level :: itemTag level names others :: s)
        (tagsFrom (some 0) rest) := by
  have hlabel : isNode ⟨"span".toList,
      [(classes ["label".toList, "toggle".toList]).written], none⟩ = false := by decide
  rw [nodeStart, List.flatMap_cons, List.flatMap_singleton, List.append_assoc]
  rw [item, tagsFrom_startRow, Bracket.remaining_opening, toggle, remaining_span _ hlabel]
  rw [tagsFrom_lineFeed, tagsFrom_startRow, Bracket.remaining_opening]
  rfl

/-- The rows that end a node end both tags that its first rows have opened, in their columns. -/
theorem remaining_nodeEnd (s : List Tag) (level : Nat) (names : List Text)
    (others : List Attribute) (rest : List Token) :
    Bracket.remaining EndedBy (listTag level :: itemTag level names others :: s)
        (tagsFrom (some 0) ((nodeEnd level).flatMap Row.tokens ++ rest)) =
      Bracket.remaining EndedBy s (tagsFrom (some 0) rest) := by
  have hlist : EndedBy (listTag level) ⟨"ul".toList, [], some (2 * (steps level + 1))⟩ :=
    ⟨rfl, fun _ => ⟨rfl, rfl⟩⟩
  have hitem : EndedBy (itemTag level names others) ⟨"li".toList, [], some (2 * steps level)⟩ :=
    ⟨rfl, fun _ => ⟨rfl, rfl⟩⟩
  rw [nodeEnd, List.flatMap_cons, List.flatMap_singleton, List.append_assoc]
  rw [tagsFrom_stopRow, Bracket.remaining_closing_cons, if_pos hlist]
  rw [tagsFrom_stopRow, Bracket.remaining_closing_cons, if_pos hitem]

/-- An item that begins and ends in a row leaves what is open before it. -/
theorem remaining_itemRow (s : List Tag) (level : Nat) {names : List Text}
    {others : List Attribute} (h : isNode (itemTag level names others) = false)
    {spanNames : List Text}
    (hspan : isNode ⟨"span".toList, [(classes spanNames).written], none⟩ = false)
    (label after : Text) (rest : List Token) :
    Bracket.remaining EndedBy s (tagsFrom (some 0)
        ((Row.mk (steps level) (item names others :: (span spanNames label ++
          [.text after, .stop "li".toList]))).tokens ++ rest)) =
      Bracket.remaining EndedBy s (tagsFrom (some 0) rest) := by
  have hends : ∀ column, EndedBy (itemTag level names others) ⟨"li".toList, [], column⟩ :=
    fun _ => endedBy_of_not_node rfl h
  rw [item, tagsFrom_startRow, Bracket.remaining_opening, List.flatMap_append, List.append_assoc]
  rw [remaining_span _ hspan, itemEnd_tokens, tagsFrom_chars, tagsFrom_stop, ← itemTag]
  rw [Bracket.remaining_closing_cons, if_pos (hends _), tagsFrom_lineFeed]

theorem remaining_leafRow (s : List Tag) (level : Nat) (e : Entry) (rest : List Token) :
    Bracket.remaining EndedBy s (tagsFrom (some 0) ((leafRow level e).tokens ++ rest)) =
      Bracket.remaining EndedBy s (tagsFrom (some 0) rest) :=
  remaining_itemRow s level rfl (by decide) (leafLabel e) [] rest

theorem remaining_legendRows (s : List Tag) (rest : List Token) :
    Bracket.remaining EndedBy s (tagsFrom (some 0) (legendRows.flatMap Row.tokens ++ rest)) =
      Bracket.remaining EndedBy s (tagsFrom (some 0) rest) := by
  have hrows : ∀ (symbols : List (Char × Text)) (s : List Tag) (rest : List Token),
      Bracket.remaining EndedBy s (tagsFrom (some 0)
          ((symbols.map fun x => legendRow x.1 x.2).flatMap Row.tokens ++ rest)) =
        Bracket.remaining EndedBy s (tagsFrom (some 0) rest) := by
    intro symbols s rest
    induction symbols with
    | nil => rfl
    | cons x symbols ih =>
        rw [List.map_cons, List.flatMap_cons, List.append_assoc]
        exact (remaining_itemRow s 1 rfl (by decide) [x.1] (' ' :: x.2) _).trans ih
  rw [legendRows, List.flatMap_append, List.flatMap_append, List.append_assoc, List.append_assoc]
  exact (remaining_nodeStart s 0 _ _ _ _).trans
    ((hrows legend _ _).trans (remaining_nodeEnd s 0 _ _ rest))

/-- The tags of the nodes open for opening entries, the innermost first. -/
def nodeTags : List Entry → List Tag
  | [] => []
  | o :: openers =>
    listTag openers.length ::
      itemTag openers.length ["node".toList, "open".toList, o.className] (o.correlation pane) ::
        nodeTags openers

/-- The rows of entries that can be read end what is open before them, each node by its own
rows. -/
theorem remaining_rowsFrom (base : List Tag) {openers entries : List Entry}
    (h : (Bracket.remaining Entry.EndedBy openers (entries.map Entry.bracket)).isSome)
    (rest : List Token) :
    Bracket.remaining EndedBy (nodeTags openers ++ base) (tagsFrom (some 0)
        ((rowsFrom openers.length entries).flatMap Row.tokens ++ rest)) =
      Bracket.remaining EndedBy base (tagsFrom (some 0) rest) := by
  -- The level is the number of opening entries on the stack, in every case.
  induction entries generalizing openers with
  | nil =>
      rw [rowsFrom, Int.toNat_natCast]
      clear h
      -- The nodes still open are ended from the inside out.
      induction openers with
      | nil => rfl
      | cons o openers ih =>
          rw [List.length_cons, closers, List.flatMap_append, List.append_assoc, nodeTags]
          exact (remaining_nodeEnd _ openers.length _ _ _).trans ih
  | cons e entries ih =>
      by_cases ho : e.kind = .opening
      · rw [List.map_cons, Entry.bracket_of_opening ho, Bracket.remaining_opening] at h
        rw [rowsFrom_opening ho, List.flatMap_append, List.append_assoc]
        exact (remaining_nodeStart _ openers.length _ _ _ _).trans (ih h)
      by_cases hc : e.kind = .closing
      · rw [List.map_cons, Entry.bracket_of_closing hc] at h
        -- The stack is not empty, and its top is the node that the rows end.
        cases openers with
        | nil => simp at h
        | cons o openers =>
            rw [Bracket.remaining_closing_cons] at h
            split at h
            · have hlevel : ((openers.length + 1 : Nat) : Int) - 1 = openers.length := by omega
              rw [rowsFrom_closing hc, List.length_cons, hlevel, List.flatMap_append,
                List.append_assoc]
              exact (remaining_nodeEnd _ openers.length _ _ _).trans (ih h)
            · simp at h
      · rw [List.map_cons, Entry.bracket_of_leaf ho hc, Bracket.remaining_single] at h
        rw [rowsFrom_leaf ho hc, List.flatMap_cons, List.append_assoc, remaining_leafRow]
        exact ih h

/-- **The tags of the outline are well nested**, if its entries can be read. -/
theorem balanced_tags {entries : List Entry}
    (h : (Bracket.remaining Entry.EndedBy [] (entries.map Entry.bracket)).isSome) :
    Bracket.Balanced EndedBy (tags ((rows entries).flatMap Row.tokens)) := by
  rw [Bracket.balanced_iff, tags, rows_tokens, tagsFrom_startRow, Bracket.remaining_opening]
  show Bracket.remaining EndedBy _ (tagsFrom (some 0) _) = _
  rw [remaining_legendRows]
  -- The list around all items is open below those of the nodes, and the last row ends it.
  refine (remaining_rowsFrom [_] h _).trans ?_
  rfl

/-! ## Items of rows -/

theorem items_row (r : Row) (rest : List Token) :
    elements "li".toList leadingTextWithin (r.tokens ++ rest) =
      elements "li".toList leadingTextWithin
        (r.pieces.flatMap Piece.tokens ++ .char '\n' :: rest) := by
  rw [Row.tokens_append, elements_chars]

theorem items_span (names : List Text) (content : Text) (rest : List Token) :
    elements "li".toList leadingTextWithin
        ((span names content).flatMap Piece.tokens ++ rest) =
      elements "li".toList leadingTextWithin rest := by
  rw [span_tokens, elements_start_of_ne (by decide), elements_chars,
    elements_stop_of_ne (by decide)]

/-- The text of a span at the head of an item is the head of the item. -/
theorem leadingTextWithin_span (names : List Text) (content : Text) (rest : List Token) :
    leadingTextWithin ((span names content).flatMap Piece.tokens ++ rest) = escaped content := by
  rw [span_tokens, leadingTextWithin, leadingText_chars, leadingText_stop, List.append_nil]

/-- An item whose first piece is a span has the text of the span as head. -/
theorem items_start (names : List Text) (others : List Attribute) (spanNames : List Text)
    (label : Text) (rest : List Token) :
    elements "li".toList leadingTextWithin
        ((item names others).tokens ++ ((span spanNames label).flatMap Piece.tokens ++ rest)) =
      .opening (Element.written (classes names :: others) label) ::
        elements "li".toList leadingTextWithin rest := by
  rw [item, Piece.tokens_start, List.singleton_append, elements_start, leadingTextWithin_span,
    items_span]
  rfl

theorem items_listStart (n : Nat) (attributes : List Attribute) (rest : List Token) :
    elements "li".toList leadingTextWithin
        (Row.tokens ⟨n, [.start "ul".toList attributes]⟩ ++ rest) =
      elements "li".toList leadingTextWithin rest := by
  rw [items_row]
  rfl

theorem items_listEnd (n : Nat) (rest : List Token) :
    elements "li".toList leadingTextWithin (Row.tokens ⟨n, [.stop "ul".toList]⟩ ++ rest) =
      elements "li".toList leadingTextWithin rest := by
  rw [items_row]
  rfl

theorem items_nodeStart (level : Int) (names : List Text) (others : List Attribute)
    (label : Text) (rest : List Token) :
    elements "li".toList leadingTextWithin
        ((nodeStart level (item names others) label).flatMap Row.tokens ++ rest) =
      .opening (Element.written (classes names :: others) label) ::
        elements "li".toList leadingTextWithin rest := by
  rw [nodeStart, List.flatMap_cons, List.flatMap_singleton, List.append_assoc]
  rw [items_row, List.flatMap_cons, List.append_assoc, toggle, items_start]
  rw [elements_char, items_listStart]

theorem items_nodeEnd (level : Int) (rest : List Token) :
    elements "li".toList leadingTextWithin ((nodeEnd level).flatMap Row.tokens ++ rest) =
      .closing () :: elements "li".toList leadingTextWithin rest := by
  rw [nodeEnd, List.flatMap_cons, List.flatMap_singleton, List.append_assoc]
  rw [items_listEnd, items_row]
  rfl

/-- A row for an item is one for its label, whatever follows the label. -/
theorem items_itemRow (level : Int) (names : List Text) (others : List Attribute)
    (spanNames : List Text) (label after : Text) (rest : List Token) :
    elements "li".toList leadingTextWithin
        ((Row.mk (steps level) (item names others :: (span spanNames label ++
          [.text after, .stop "li".toList]))).tokens ++ rest) =
      .opening (Element.written (classes names :: others) label) :: .closing () ::
        elements "li".toList leadingTextWithin rest := by
  rw [items_row]
  rw [List.flatMap_cons, List.flatMap_append, List.append_assoc, List.append_assoc, items_start]
  rw [itemEnd_tokens, elements_chars, elements_stop, elements_char]

def itemOf (e : Entry) : Element :=
  if e.kind = .opening then
    .written (classes ["node".toList, "open".toList, e.className] :: e.correlation pane) e.title
  else
    .written (classes ["leaf".toList, e.kind.name, e.className] ::
      (e.correlation pane ++ tooltip e)) (leafLabel e)

/-- The rows of entries hold the items of the entries, and the ends of nodes behind them. -/
theorem items_rowsFrom (level : Int) (entries : List Entry) (rest : List Token) :
    ∃ n, elements "li".toList leadingTextWithin
        ((rowsFrom level entries).flatMap Row.tokens ++ rest) =
      (entries.map Entry.bracket).flatMap (Bracket.elementLetters itemOf) ++
        (List.replicate n (.closing ()) ++ elements "li".toList leadingTextWithin rest) := by
  -- Whether the entries are well nested does not matter to this, nor does the level.
  induction entries generalizing level with
  | nil =>
      refine ⟨level.toNat, ?_⟩
      rw [rowsFrom]
      induction level.toNat with
      | zero => rfl
      | succ n ih =>
          rw [closers, List.flatMap_append, List.append_assoc, items_nodeEnd, ih]
          rfl
  | cons e entries ih =>
      by_cases ho : e.kind = .opening
      · obtain ⟨n, ih⟩ := ih (level + 1)
        refine ⟨n, ?_⟩
        rw [rowsFrom_opening ho, List.flatMap_append, List.append_assoc, nodeItem, items_nodeStart,
          ih, List.map_cons, Entry.bracket_of_opening ho, List.flatMap_cons,
          Bracket.elementLetters, itemOf, if_pos ho]
        rfl
      by_cases hc : e.kind = .closing
      · obtain ⟨n, ih⟩ := ih (level - 1)
        refine ⟨n, ?_⟩
        rw [rowsFrom_closing hc, List.flatMap_append, List.append_assoc, items_nodeEnd, ih,
          List.map_cons, Entry.bracket_of_closing hc]
        rfl
      · obtain ⟨n, ih⟩ := ih level
        refine ⟨n, ?_⟩
        rw [rowsFrom_leaf ho hc, List.flatMap_cons, List.append_assoc]
        refine (items_itemRow level _ _ _ (leafLabel e) [] _).trans ?_
        rw [ih, List.map_cons, Entry.bracket_of_leaf ho hc, List.flatMap_cons,
          Bracket.elementLetters, itemOf, if_neg ho]
        rfl

/-! ## The forest of the items -/

/-- What is read of the legend: a node, and in it a row for each symbol. -/
def legendPlaces : List (Bracket.Place Element) :=
  ⟨.written (classes ["node".toList, "closed".toList] :: correlation pane legendId)
      "Legend".toList, []⟩ ::
    legend.map fun x => ⟨.written [classes ["legend-row".toList]] [x.1], [0]⟩

theorem forestFrom_legend (symbols : List (Char × Text)) (count : Nat) (around : List Nat)
    (rest : List Token) :
    Bracket.forestFrom count around (elements "li".toList leadingTextWithin
        ((symbols.map fun x => legendRow x.1 x.2).flatMap Row.tokens ++ rest)) =
      (symbols.map fun x => ⟨.written [classes ["legend-row".toList]] [x.1], around⟩) ++
        Bracket.forestFrom (count + symbols.length) around
          (elements "li".toList leadingTextWithin rest) := by
  induction symbols generalizing count with
  | nil => rfl
  | cons x symbols ih =>
      have hrow := items_itemRow 1 ["legend-row".toList] [] ["symbol".toList] [x.1] (' ' :: x.2)
        ((symbols.map fun x => legendRow x.1 x.2).flatMap Row.tokens ++ rest)
      rw [List.map_cons, List.flatMap_cons, List.append_assoc]
      refine (congrArg (Bracket.forestFrom count around) hrow).trans ?_
      rw [Bracket.forestFrom, Bracket.forestFrom, List.tail_cons, ih, List.length_cons,
        Nat.add_assoc, Nat.add_comm 1]
      rfl

/-- The legend is a tree of its own, and what follows is numbered behind it. -/
theorem forestFrom_legendRows (rest : List Token) :
    Bracket.forestFrom 0 [] (elements "li".toList leadingTextWithin
        (legendRows.flatMap Row.tokens ++ rest)) =
      legendPlaces ++ Bracket.forestFrom legendPlaces.length []
        (elements "li".toList leadingTextWithin rest) := by
  have hlength : legendPlaces.length = 0 + 1 + legend.length := rfl
  rw [legendRows, List.flatMap_append, List.flatMap_append, List.append_assoc, List.append_assoc]
  rw [items_nodeStart, Bracket.forestFrom, forestFrom_legend, items_nodeEnd, Bracket.forestFrom,
    List.tail_cons, ← hlength]
  rfl

/-- **Behind the legend the items of the outline are the forest of the entries.** -/
theorem forest_items (entries : List Entry) :
    Bracket.forest (elements "li".toList leadingTextWithin
        ((rows entries).flatMap Row.tokens)) =
      legendPlaces ++ (Bracket.forest (entries.map Entry.bracket)).map
        (Bracket.Place.relabel itemOf legendPlaces.length) := by
  have hend : elements "li".toList leadingTextWithin
      (Row.tokens ⟨0, [.stop "ul".toList]⟩) = [] := rfl
  have hforest := Bracket.forestFrom_elementLetters (β := Entry) itemOf legendPlaces.length 0 []
    (entries.map Entry.bracket)
  rw [Nat.add_zero, List.map_nil] at hforest
  obtain ⟨n, hitems⟩ := items_rowsFrom 0 entries (Row.tokens ⟨0, [.stop "ul".toList]⟩)
  rw [rows_tokens, items_listStart, Bracket.forest, forestFrom_legendRows, hitems, hend,
    List.append_nil]
  -- What is left behind the items are ends of nodes, which have no place.
  rw [Bracket.forestFrom_append, hforest, Bracket.forestFrom_replicate_closing, List.append_nil]
  rfl

/-! ## The outline as text -/

/-- What is read of the outline is what is read of its rows. -/
theorem tokens?_renderOutline (m : Model) :
    tokens? m.renderOutline = some ((rows m.entries).flatMap Row.tokens) := by
  rw [Model.renderOutline, tokens?_render (readable_outline m), Model.outline,
    List.flatMap_assoc]
  rfl

/-! ## What an item tells of its entry -/

def itemClasses (kind : TokenKind) (className : Text) : List Text :=
  if kind = .opening then ["node".toList, "open".toList, className]
  else ["leaf".toList, kind.name, className]

/-- The item shows the entry: its class names the kind, its label the title, and for a byte order
mark also the text, which otherwise is the tooltip. -/
structure Tells (x : Element) (e : Entry) : Prop where
  kind : x.value? "class".toList = some (Text.joined [' '] (itemClasses e.kind e.className))
  id : x.value? "data-cid".toList = e.id.map Text.ofInt
  title : e.kind ≠ .byteOrderMark → unescaped x.head = e.title
  encoding : e.kind = .byteOrderMark → unescaped x.head = "BOM (".toList ++ e.text ++ [')']
  text : e.kind ≠ .opening → e.kind ≠ .byteOrderMark → x.value? "title".toList = some e.text

theorem kind_of_itemClasses {k k' : TokenKind} {c c' : Text} (hk : k ≠ .closing)
    (hk' : k' ≠ .closing)
    (h : Text.joined [' '] (itemClasses k c) = Text.joined [' '] (itemClasses k' c')) :
    k = k' := by
  -- Two kinds differ in a letter before the class name, which is what stays unknown.
  revert h hk hk'
  cases k <;> cases k' <;> simp [Text.joined, List.intercalate, itemClasses, TokenKind.name]

theorem itemOf_tells {e : Entry} (h : e.Regular) (hc : e.kind ≠ .closing) :
    Tells (itemOf e) e := by
  obtain ⟨n, hid, -⟩ := h.id_shown hc
  by_cases ho : e.kind = .opening
  -- a scope shows its title and has no tooltip
  · have hitem : itemOf e = .written
        (classes (itemClasses e.kind e.className) :: correlation pane n) e.title := by
      rw [itemOf, if_pos ho, itemClasses, if_pos ho, Entry.correlation, hid]
    have hmark : e.kind ≠ .byteOrderMark := by simp [ho]
    rw [hitem]
    refine ⟨?_, ?_, fun _ => Element.unescaped_head_written _ _, fun hb => absurd hb hmark,
      fun hne => absurd ho hne⟩
    · rw [Element.value?_written]
      rfl
    · rw [Element.value?_written, hid]
      rfl
  -- a leaf has its text as a tooltip, except a byte order mark, which shows it
  · have hitem : itemOf e = .written
        (classes (itemClasses e.kind e.className) :: (correlation pane n ++ tooltip e))
        (leafLabel e) := by
      rw [itemOf, if_neg ho, itemClasses, if_neg ho, Entry.correlation, hid]
    rw [hitem]
    refine ⟨?_, ?_, fun hb => ?_, fun hb => ?_, fun _ hb => ?_⟩
    · rw [Element.value?_written]
      rfl
    · rw [Element.value?_written, hid]
      rfl
    · rw [Element.unescaped_head_written, leafLabel, if_neg hb]
    · rw [Element.unescaped_head_written, leafLabel, if_pos hb, h.title_of_byteOrderMark hb]
      rfl
    · rw [Element.value?_written, tooltip, if_neg hb]
      rfl

/-- An item shows one kind, title, id and text only. -/
theorem Tells.unique {x : Element} {e e' : Entry} (h : Tells x e) (h' : Tells x e')
    (hregular : e.Regular) (hregular' : e'.Regular) (hc : e.kind ≠ .closing)
    (hc' : e'.kind ≠ .closing) :
    (e.kind, e.title, e.id, e.text) = (e'.kind, e'.title, e'.id, e'.text) := by
  have hkind : e.kind = e'.kind := by
    have hclass := h.kind
    rw [h'.kind, Option.some.injEq] at hclass
    exact (kind_of_itemClasses hc' hc hclass).symm
  have hid : e.id = e'.id := by
    have hnumeral := h.id
    rw [h'.id] at hnumeral
    exact (Option.map_injective Text.ofInt_injective hnumeral).symm
  have htitle : e.title = e'.title := by
    by_cases hb : e.kind = .byteOrderMark
    · -- The label holds the text as well, but there is only one title.
      rw [hregular.title_of_byteOrderMark hb, hregular'.title_of_byteOrderMark (hkind ▸ hb)]
    · rw [← h.title hb, h'.title (hkind ▸ hb)]
  have htext : e.text = e'.text := by
    by_cases hb : e.kind = .byteOrderMark
    · have hlabel := h.encoding hb
      rw [h'.encoding (hkind ▸ hb)] at hlabel
      exact (List.append_cancel_left (List.append_cancel_right hlabel)).symm
    by_cases ho : e.kind = .opening
    · -- A text behind the code is an entry of its own.
      rw [hregular.text_nil (Or.inl ho), hregular'.text_nil (Or.inl (hkind ▸ ho))]
    · have htooltip := h.text ho hb
      rw [h'.text (hkind ▸ ho) (hkind ▸ hb), Option.some.injEq] at htooltip
      exact htooltip.symm
  rw [hkind, htitle, hid, htext]

/-- What is read of the outline. -/
structure Reads (m : Model) (tokens : List Token) : Prop where
  read : tokens? m.renderOutline = some tokens
  /-- The tags are well nested, and those of a node stand in the same column. -/
  nested : Bracket.Balanced EndedBy (tags tokens)
  /-- The legend comes first. -/
  legend : legendPlaces <+: Bracket.forest (elements "li".toList leadingTextWithin tokens)
  /-- Behind the legend the items are the forest of the entries. -/
  shown : m.ShownBy Tells legendPlaces.length
    (Bracket.forest (elements "li".toList leadingTextWithin tokens))

theorem reads_of_ofLines {lines : List Text} {m : Model} (h : Model.ofLines lines = .ok m) :
    Reads m ((rows m.entries).flatMap Row.tokens) where
  read := tokens?_renderOutline m
  nested := balanced_tags (Model.isSome_remaining_brackets h)
  legend := by
    rw [forest_items]
    exact List.prefix_append _ _
  shown := by
    rw [forest_items]
    refine Model.ShownBy.of_forest (Model.isSome_remaining_brackets h) (fun e he hc => ?_) _
    exact itemOf_tells (Model.regular_of_ofLines h e he) hc

end Outline

/-- The outline of the model is read back as the model. -/
structure Model.OutlineFaithful (m : Model) : Prop where
  read : ∃ tokens, Outline.Reads m tokens
  /-- No other forest has this outline. -/
  unique : ∀ lines m', Model.ofLines lines = .ok m' → m'.renderOutline = m.renderOutline →
    Model.SameForest (fun e => (e.kind, e.title, e.id, e.text)) m m'

/-- **The outline of a stream that is accepted is read back as what the stream says.** -/
theorem outlineFaithful_of_ofLines {lines : List Text} {m : Model}
    (h : Model.ofLines lines = .ok m) : m.OutlineFaithful where
  read := ⟨_, Outline.reads_of_ofLines h⟩
  unique := by
    intro lines' m' h' hrender
    have htokens := Outline.tokens?_renderOutline m
    rw [← hrender, Outline.tokens?_renderOutline m', Option.some.injEq] at htokens
    have hitems := (Outline.reads_of_ofLines h').shown
    rw [htokens] at hitems
    refine (Outline.reads_of_ofLines h).shown.sameForest hitems
      fun x e he e' he' hc hc' htells htells' => ?_
    exact htells.unique htells' (Model.regular_of_ofLines h e he)
      (Model.regular_of_ofLines h' e' he') hc hc'

/-- A byte order mark, and a scope that stays open around a text with markup. -/
theorem outlineFaithful_open :
    let entries : List Entry :=
      [ ⟨⟨'U', .byteOrderMark, "BOM".toList⟩, "UTF-8".toList, some 1, 1, false⟩,
        ⟨⟨'N', .opening, "Node".toList⟩, [], some 2, 2, false⟩,
        ⟨CodeTable.text, "<".toList, some 3, 3, false⟩ ]
    let openScopes : List OpenScope := [⟨2, ⟨'N', .opening, "Node".toList⟩⟩]
    Model.ofLines ["UTF-8".toList, "N".toList, "T<".toList] = .ok { entries, openScopes } ∧
      Model.OutlineFaithful { entries, openScopes } := by
  intro entries openScopes
  have h : Model.ofLines ["UTF-8".toList, "N".toList, "T<".toList] =
      .ok { entries, openScopes } := rfl
  exact ⟨h, outlineFaithful_of_ofLines h⟩

end Yeast
