import Yeast.Markup.Basic
import Yeast.Model.Entry
import Yeast.Text.ClassName

set_option autoImplicit false

/-! # What the two panes share

An entry is shown by an item of the outline and a span of the source text. Both have a class
named for the entry's title, and both carry its correlation id: once as part of their own id,
under the name of the pane, and once as data, by which each finds the other.
-/

namespace Yeast

namespace Markup

/-- The attribute that lists the style classes of an element. -/
def classes (names : List Text) : Attribute := ⟨"class".toList, Text.joined [' '] names⟩

/-- The attributes that tie an element of a pane to its counterparts. -/
def correlation (pane : Text) (id : Int) : List Attribute :=
  [ ⟨"id".toList, pane ++ '-' :: Text.ofInt id⟩, ⟨"data-cid".toList, Text.ofInt id⟩ ]

end Markup

namespace Entry

def className (e : Entry) : Text := e.title.className

/-- The attributes that tie the entry's element in a pane to its counterparts; an entry without
a correlation id has none. -/
def correlation (e : Entry) (pane : Text) : List Markup.Attribute :=
  match e.id with
  | some id => Markup.correlation pane id
  | none => []

end Entry

end Yeast
