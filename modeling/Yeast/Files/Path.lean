import Yeast.Text.Basic

set_option autoImplicit false

/-! # Paths

A path is a root and the names that lead on from it. Empty names and single dots say nothing
and are dropped when a path is read, and so are slashes at the end; two dots are kept, because
what they mean depends on the files. Two slashes at the start are a root of their own, three or
more are the same as one.
-/

namespace Yeast

/-- Where a path starts. -/
inductive PathRoot where
  /-- At the working directory. -/
  | relative
  /-- At the root. -/
  | slash
  /-- At the root that two slashes name. -/
  | doubleSlash
  deriving DecidableEq

def PathRoot.text : PathRoot → Text
  | relative => []
  | slash => ['/']
  | doubleSlash => ['/', '/']

/-- The place of a file or directory. -/
structure Path where
  root : PathRoot
  names : List Text
  deriving DecidableEq

namespace Path

def rootOf : Text → PathRoot
  | '/' :: '/' :: '/' :: _ => .slash
  | '/' :: '/' :: _ => .doubleSlash
  | '/' :: _ => .slash
  | _ => .relative

def ofText (text : Text) : Path :=
  { root := rootOf text
    names := (Text.pieces (· == '/') text).filter fun name => !name.isEmpty && name != ['.'] }

/-- The text of a path; the working directory itself is a dot. -/
def text (p : Path) : Text :=
  if p.root = .relative ∧ p.names = [] then ['.']
  else p.root.text ++ Text.joined ['/'] p.names

/-- The path without its last name; a path without names is its own parent. -/
def parent (p : Path) : Path := { p with names := p.names.dropLast }

end Path

end Yeast
