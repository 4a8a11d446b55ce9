import Yeast.Text.Basic

set_option autoImplicit false

/-! # Markup

Markup is a list of pieces: start tags, end tags, empty elements, text, and text that is not
read as markup. A piece is written in one way only, with every attribute value and every text
escaped, so that the characters `<`, `>` and the quotation marks of a page are those of its tags
and of its verbatim pieces. Class names and ids are escaped with the other values, which makes no
difference to them (`Page.renderRaw_eq_render`).
-/

namespace Yeast

namespace Markup

/-- A character as it stands in a text or in an attribute value. -/
def escapedChar (c : Char) : Text :=
  if c = '&' then "&amp;".toList
  else if c = '<' then "&lt;".toList
  else if c = '>' then "&gt;".toList
  else if c = '"' then "&quot;".toList
  else if c = '\'' then "&#x27;".toList
  else [c]

/-- A text that is read back from markup unchanged. -/
def escaped (text : Text) : Text := text.flatMap escapedChar

/-- A name with a value, in a tag. -/
structure Attribute where
  name : Text
  value : Text
  deriving DecidableEq

/-- The attribute with the blank before it. -/
def Attribute.render (a : Attribute) : Text :=
  ' ' :: a.name ++ '=' :: '"' :: escaped a.value ++ ['"']

/-- A part of a page. -/
inductive Piece where
  /-- A start tag. -/
  | start (name : Text) (attributes : List Attribute)
  /-- An end tag. -/
  | stop (name : Text)
  /-- An element without content. -/
  | void (name : Text) (attributes : List Attribute)
  /-- Text, escaped when it is written. -/
  | text (content : Text)
  /-- Text written as it is. -/
  | verbatim (content : Text)
  deriving DecidableEq

namespace Piece

def render : Piece → Text
  | start name attributes => '<' :: name ++ attributes.flatMap Attribute.render ++ ['>']
  | stop name => '<' :: '/' :: name ++ ['>']
  | void name attributes => '<' :: name ++ attributes.flatMap Attribute.render ++ ['/', '>']
  | text content => escaped content
  | verbatim content => content

def newline : Piece := text ['\n']

end Piece

def render (pieces : List Piece) : Text := pieces.flatMap Piece.render

@[simp]
theorem escaped_nil : escaped [] = [] := rfl

@[simp]
theorem render_nil : render [] = [] := rfl

@[simp]
theorem render_cons (p : Piece) (pieces : List Piece) :
    render (p :: pieces) = p.render ++ render pieces := rfl

@[simp]
theorem render_append (pieces pieces' : List Piece) :
    render (pieces ++ pieces') = render pieces ++ render pieces' :=
  List.flatMap_append

end Markup

end Yeast
