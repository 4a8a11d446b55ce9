import Yeast.Files.Path
import Yeast.Page.BuiltinStyle
import Yeast.Page.Script
import Yeast.Pane.Outline
import Yeast.Pane.SourceText

set_option autoImplicit false

/-! # The page

A page shows the outline and the source text of a document side by side, each under a title of
its own, with a style and a script. Only the style and the script are written verbatim.
-/

namespace Yeast

open Markup

/-- The style of a page: the built-in one, one that the page links to, or one whose text it
holds. -/
inductive Stylesheet where
  | builtin
  | linked (address : Text)
  | embedded (content : Text)
  deriving DecidableEq

/-- The element of the page's head that gives the style. -/
def Stylesheet.pieces : Stylesheet → List Piece
  | builtin =>
    [.start "style".toList [], .newline, .verbatim builtinStyle, .stop "style".toList]
  | linked address =>
    [.void "link".toList
      [⟨"rel".toList, "stylesheet".toList⟩, ⟨"type".toList, "text/css".toList⟩,
        ⟨"href".toList, address⟩]]
  | embedded content =>
    [.start "style".toList [], .newline, .verbatim content, .newline, .stop "style".toList]

structure PaneTitles where
  outline : Text := Outline.defaultTitle
  source : Text := SourceText.defaultTitle

namespace Page

def head (titles : PaneTitles) (style : Stylesheet) : List Piece :=
  [ .start "head".toList [], .newline,
    .void "meta".toList [⟨"charset".toList, "utf-8".toList⟩], .newline,
    .start "title".toList [], .text (titles.outline ++ " / ".toList ++ titles.source),
    .stop "title".toList, .newline ] ++
  style.pieces ++
  [ .newline, .start "script".toList [], .newline, .verbatim script, .stop "script".toList,
    .newline, .stop "head".toList, .newline ]

/-- A pane under its title. -/
def pane (id title : Text) (content : List Piece) : List Piece :=
  [ .start "div".toList [classes ["pane".toList], ⟨"id".toList, id⟩], .newline,
    .start "h2".toList [], .text title, .stop "h2".toList, .newline ] ++
  content ++ [.stop "div".toList, .newline]

def body (titles : PaneTitles) (m : Model) : List Piece :=
  [.start "body".toList [], .newline] ++
  pane "tree-pane".toList titles.outline m.outline ++
  pane "text-pane".toList titles.source m.sourceText ++
  [.stop "body".toList, .newline]

def pieces (titles : PaneTitles) (style : Stylesheet) (m : Model) : List Piece :=
  [.verbatim "<!DOCTYPE html>".toList, .newline, .start "html".toList [], .newline] ++
  head titles style ++ body titles m ++ [.stop "html".toList, .newline]

def render (titles : PaneTitles) (style : Stylesheet) (m : Model) : Text :=
  Markup.render (pieces titles style m)

end Page

end Yeast
