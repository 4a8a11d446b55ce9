import Yeast.Log
import Yeast.Model.Entry

set_option autoImplicit false

/-! # Document models

A model holds the entries of a stream and the scopes that the stream opened and never closed,
outermost first.
-/

namespace Yeast

/-- A scope that is not closed: the line on which it was opened, and by what. -/
structure OpenScope where
  line : Int
  descriptor : Descriptor
  deriving DecidableEq

/-- A document as read from a stream. -/
structure Model where
  entries : List Entry
  openScopes : List OpenScope := []
  deriving DecidableEq

namespace Model

/-- Every scope is closed. -/
def isBalanced (m : Model) : Bool := m.openScopes.isEmpty

/-- Whoever reads a stream to its end is warned of scopes left open. -/
def warnings (m : Model) : List LogRecord :=
  match m.openScopes.getLast? with
  | none => []
  | some innermost =>
    [{ level := .warning,
       message := Text.ofNat m.openScopes.length ++
         " scope(s) left open at end of input; innermost is ".toList ++
         innermost.descriptor.title ++ " opened at line ".toList ++
         Text.ofInt innermost.line }]

end Model

end Yeast
