import Yeast.Model.Basic
import Yeast.Pane.Correlation
import Yeast.Text.Placeholder

set_option autoImplicit false

/-! # The outline of a document

A nested list with a legend first, then an item for each entry that is not a closing one. An
opening entry begins a node, whose items follow one level further in, and a closing entry ends
it; nodes that are open at the end of the document are ended there. The rows of a node at level
`u` are indented by `1 + 2 * u` steps of two spaces, one step more for the list of its items.

The level is a count that closing entries lower, also below zero in a model made by hand; the
item of such a node is not indented.
-/

namespace Yeast

open Markup

/-- The symbols and what they mean, in the order of the legend. -/
def legend : List (Char × Text) :=
  [ (Placeholder.byteOrderMark, "byte order mark".toList),
    (Placeholder.carriageReturn, "carriage return".toList),
    (Placeholder.lineFeed, "line feed".toList),
    (Placeholder.nextLine, "next line".toList),
    (Placeholder.lineSeparator, "line separator".toList),
    (Placeholder.paragraphSeparator, "paragraph separator".toList),
    (Placeholder.tab, "tab".toList),
    (Placeholder.space, "space".toList),
    (Placeholder.noBreak, "zero width no-break space".toList),
    (Placeholder.empty, "empty content".toList) ]

def legendId : Int := 0

namespace Outline

/-- A row of markup and the steps it is indented by. -/
structure Row where
  steps : Nat
  pieces : List Piece

/-- The pieces of a row, with its indentation and its line feed. -/
def Row.framed (r : Row) : List Piece :=
  .text (List.replicate (2 * r.steps) ' ') :: r.pieces ++ [.newline]

/-- The pane's name in ids. -/
def pane : Text := "tree".toList

def defaultTitle : Text := "Syntax Tree".toList

/-- The start tag of a list item. -/
def item (names : List Text) (others : List Attribute) : Piece :=
  .start "li".toList (classes names :: others)

/-- A span of one text. -/
def span (names : List Text) (content : Text) : List Piece :=
  [.start "span".toList [classes names], .text content, .stop "span".toList]

def toggle (label : Text) : List Piece := span ["label".toList, "toggle".toList] label

/-- The steps of a node's rows at the given level. -/
def steps (level : Int) : Nat := (1 + 2 * level).toNat

/-- The rows that begin a node: its item with a label, and the list of its items. -/
def nodeStart (level : Int) (itemTag : Piece) (label : Text) : List Row :=
  [ ⟨steps level, itemTag :: toggle label⟩, ⟨steps level + 1, [.start "ul".toList []]⟩ ]

def nodeEnd (level : Int) : List Row :=
  [ ⟨steps level + 1, [.stop "ul".toList]⟩, ⟨steps level, [.stop "li".toList]⟩ ]

def legendRow (symbol : Char) (meaning : Text) : Row :=
  { steps := steps 1
    pieces :=
      item ["legend-row".toList] [] :: span ["symbol".toList] [symbol] ++
        [.text (' ' :: meaning), .stop "li".toList] }

def legendRows : List Row :=
  nodeStart 0 (item ["node".toList, "closed".toList] (correlation pane legendId))
      "Legend".toList ++
    legend.map (fun (symbol, meaning) => legendRow symbol meaning) ++ nodeEnd 0

/-- The label of a leaf; the encoding that a byte order mark announces is part of it. -/
def leafLabel (e : Entry) : Text :=
  if e.kind = .byteOrderMark then e.title ++ " (".toList ++ e.text ++ [')'] else e.title

/-- The text of a leaf is its tooltip, unless the label has it already. -/
def tooltip (e : Entry) : List Attribute :=
  if e.kind = .byteOrderMark then [] else [⟨"title".toList, e.text⟩]

def leafRow (level : Int) (e : Entry) : Row :=
  { steps := steps level
    pieces :=
      item ["leaf".toList, e.kind.name, e.className] (e.correlation pane ++ tooltip e) ::
        span ["label".toList] (leafLabel e) ++ [.stop "li".toList] }

def nodeItem (e : Entry) : Piece :=
  item ["node".toList, "open".toList, e.className] (e.correlation pane)

def entryRows (level : Int) (e : Entry) : List Row :=
  match e.kind with
  | .opening => nodeStart level (nodeItem e) e.title
  | .closing => nodeEnd (level - 1)
  | _ => [leafRow level e]

def levelAfter (level : Int) (e : Entry) : Int :=
  match e.kind with
  | .opening => level + 1
  | .closing => level - 1
  | _ => level

/-- The ends of the innermost `open` nodes, from the inside out. -/
def closers : Nat → List Row
  | 0 => []
  | level + 1 => nodeEnd level ++ closers level

/-- The rows of the entries from the given level on, with the ends of all nodes still open. -/
def rowsFrom (level : Int) : List Entry → List Row
  | [] => closers level.toNat
  | e :: entries => entryRows level e ++ rowsFrom (levelAfter level e) entries

theorem rowsFrom_opening {e : Entry} (h : e.kind = .opening) (level : Int)
    (entries : List Entry) : rowsFrom level (e :: entries) =
      nodeStart level (nodeItem e) e.title ++ rowsFrom (level + 1) entries := by
  rw [rowsFrom, entryRows, levelAfter, h]

theorem rowsFrom_closing {e : Entry} (h : e.kind = .closing) (level : Int)
    (entries : List Entry) : rowsFrom level (e :: entries) =
      nodeEnd (level - 1) ++ rowsFrom (level - 1) entries := by
  rw [rowsFrom, entryRows, levelAfter, h]

theorem rowsFrom_leaf {e : Entry} (ho : e.kind ≠ .opening) (hc : e.kind ≠ .closing) (level : Int)
    (entries : List Entry) :
    rowsFrom level (e :: entries) = leafRow level e :: rowsFrom level entries := by
  rw [rowsFrom, entryRows, levelAfter]
  split
  · exact absurd ‹_› ho
  · exact absurd ‹_› hc
  · rfl

def rows (entries : List Entry) : List Row :=
  ⟨0, [.start "ul".toList [classes ["tree".toList]]]⟩ ::
    legendRows ++ rowsFrom 0 entries ++ [⟨0, [.stop "ul".toList]⟩]

end Outline

namespace Model

def outline (m : Model) : List Piece := (Outline.rows m.entries).flatMap Outline.Row.framed

def renderOutline (m : Model) : Text := render m.outline

end Model

end Yeast
