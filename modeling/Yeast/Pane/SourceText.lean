import Yeast.Model.Basic
import Yeast.Pane.Correlation
import Yeast.Text.Placeholder

set_option autoImplicit false

/-! # The source text of a document

The texts of a document in order, each in a span of its own, inside the spans of the scopes that
hold it. Scopes that are open at the end of the document are ended there. Where a text ends in
the symbol of a carriage return or line feed, the next entry that is not a closing one begins a
new line; a byte order mark is shown by its symbol alone and ends no line.
-/

namespace Yeast

open Markup

namespace SourceText

/-- The pane's name in ids. -/
def pane : Text := "text".toList

def defaultTitle : Text := "YAML Text".toList

/-- What is shown for a leaf. -/
def shown (e : Entry) : Text :=
  if e.kind = .byteOrderMark then [Placeholder.byteOrderMark] else e.text

/-- The start of a new line. -/
def lineBreak : List Piece := [.void "br".toList [], .newline]

def scopeStart (e : Entry) : Piece :=
  .start "span".toList [classes ["scope".toList, e.className]]

/-- The end of a scope, and of a leaf. -/
def spanEnd : Piece := .stop "span".toList

/-- The span of a leaf. -/
def token (e : Entry) : List Piece :=
  [ .start "span".toList
      (classes ["token".toList, e.kind.name, e.className] :: e.correlation pane),
    .text (shown e), spanEnd ]

/-- What stands before the span of an entry that is not a closing one. -/
def breakIf (pending : Bool) : List Piece := if pending then lineBreak else []

/-- The pieces of the entries, where `pending` tells whether a line has ended and `level` counts
the open scopes; the scopes still open behind the last entry are ended. -/
def piecesFrom (pending : Bool) (level : Int) : List Entry → List Piece
  | [] => List.replicate level.toNat spanEnd
  | e :: entries =>
    match e.kind with
    -- an end neither takes the break that is pending nor drops it
    | .closing => spanEnd :: piecesFrom pending (level - 1) entries
    | .opening => breakIf pending ++ scopeStart e :: piecesFrom false (level + 1) entries
    | _ => breakIf pending ++ token e ++ piecesFrom (shown e).endsLine level entries

theorem piecesFrom_opening {e : Entry} (h : e.kind = .opening) (pending : Bool) (level : Int)
    (entries : List Entry) : piecesFrom pending level (e :: entries) =
      breakIf pending ++ scopeStart e :: piecesFrom false (level + 1) entries := by
  rw [piecesFrom, h]

theorem piecesFrom_closing {e : Entry} (h : e.kind = .closing) (pending : Bool) (level : Int)
    (entries : List Entry) : piecesFrom pending level (e :: entries) =
      spanEnd :: piecesFrom pending (level - 1) entries := by
  rw [piecesFrom, h]

theorem piecesFrom_leaf {e : Entry} (ho : e.kind ≠ .opening) (hc : e.kind ≠ .closing)
    (pending : Bool) (level : Int) (entries : List Entry) :
    piecesFrom pending level (e :: entries) =
      breakIf pending ++ (token e ++ piecesFrom (shown e).endsLine level entries) := by
  rw [piecesFrom, ← List.append_assoc]
  split
  · exact absurd ‹_› hc
  · exact absurd ‹_› ho
  · rfl

def pieces (entries : List Entry) : List Piece :=
  .start "div".toList [classes ["text".toList]] :: piecesFrom false 0 entries ++
    [.stop "div".toList, .newline]

end SourceText

namespace Model

def sourceText (m : Model) : List Piece := SourceText.pieces m.entries

def renderSourceText (m : Model) : Text := render m.sourceText

end Model

end Yeast
