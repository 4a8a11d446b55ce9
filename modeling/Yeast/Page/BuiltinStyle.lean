import Yeast.Text.Basic

set_option autoImplicit false

/-! # The built-in style

The style of a page that names no stylesheet. The panes stand side by side; a closed node hides
its items; the elements of both panes that show one entry are highlighted together.
-/

namespace Yeast

def builtinStyleRows : List Text :=
  [ "body \x7b margin: 0; font-family: sans-serif; \x7d".toList,
    ".pane \x7b position: absolute; top: 0; bottom: 0; overflow: auto; padding: 0 0.5em; \x7d".toList,
    "#tree-pane \x7b left: 0; width: 40%; border-right: 1px solid #999; \x7d".toList,
    "#text-pane \x7b left: 40%; right: 0; \x7d".toList,
    ".tree, .tree ul \x7b list-style: none; padding-left: 1em; margin: 0; \x7d".toList,
    ".node.closed > ul \x7b display: none; \x7d".toList,
    ".toggle \x7b cursor: pointer; font-weight: bold; \x7d".toList,
    ".node.closed > .toggle:before \x7b content: \"+ \"; \x7d".toList,
    ".node.open > .toggle:before \x7b content: \"- \"; \x7d".toList,
    ".text \x7b font-family: monospace; white-space: pre; \x7d".toList,
    ".token \x7b cursor: pointer; \x7d".toList,
    ".token.error \x7b color: #c00; \x7d".toList,
    ".token.empty, .leaf.empty \x7b color: #999; \x7d".toList,
    ".highlight \x7b background: #ff6; \x7d".toList ]

def builtinStyle : Text := Text.ofRows builtinStyleRows

end Yeast
