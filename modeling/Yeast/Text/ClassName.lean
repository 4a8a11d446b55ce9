import Yeast.Text.Basic

set_option autoImplicit false

/-! # Class names

A title becomes the name of a style class: its words, which are the runs of `a`-`z` and `0`-`9`
in its lower case, joined by hyphens. Words are the only thing kept, so lower case matters only
where it has one of these characters: for the ASCII capitals, for the Kelvin sign U+212A, whose
lower case is `k`, and for the dotted capital I, U+0130, whose lower case is `i` with a
combining dot.
-/

namespace Yeast

namespace Text

def isWordChar (c : Char) : Bool := c.isLower || c.isDigit

/-- The lower case of a character, as far as it holds characters of words or parts them. -/
def lowered (c : Char) : Text :=
  if c = '\u212A' then ['k']
  else if c = '\u0130' then ['i', '\u0307']
  else [c.toLower]

def words (text : Text) : List Text :=
  (pieces (fun c => !isWordChar c) text).filter fun word => !word.isEmpty

/-- The name of the style class for a title. -/
def className (title : Text) : Text := joined ['-'] (words (title.flatMap lowered))

end Text

end Yeast
