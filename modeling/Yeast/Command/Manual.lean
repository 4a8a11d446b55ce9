import Yeast.Text.Basic

set_option autoImplicit false

/-! # Help and manual

The two texts that the command prints about itself. The help is laid out for a terminal of 80
columns.
-/

namespace Yeast

namespace Command

def helpRows : List Text :=
  [ "usage: yeast2html.py [-h] [-o OUTPUT] [-s STYLESHEET] [-l]".toList,
    "                     [--tree-title TREE_TITLE] [--text-title TEXT_TITLE]".toList,
    "                     [--format \x7bhtml,json\x7d] [-v] [--man]".toList,
    "                     [input ...]".toList,
    "".toList,
    "Convert a yeast byte-code stream into a tree/text HTML page.".toList,
    "".toList,
    "positional arguments:".toList,
    "  input                 Byte-code input file (default: standard input)".toList,
    "".toList,
    "options:".toList,
    "  -h, --help            show this help message and exit".toList,
    "  -o OUTPUT, --output OUTPUT".toList,
    "                        Output file (default: stdout)".toList,
    "  -s STYLESHEET, --stylesheet STYLESHEET".toList,
    "                        Stylesheet to embed (default: built-in style)".toList,
    "  -l, --link-stylesheet".toList,
    "                        Link to --stylesheet instead of embedding it".toList,
    "  --tree-title TREE_TITLE".toList,
    "                        Tree pane title".toList,
    "  --text-title TEXT_TITLE".toList,
    "                        Text pane title".toList,
    "  --format \x7bhtml,json\x7d  Output an HTML page or the parsed document model as".toList,
    "                        JSON".toList,
    "  -v, --verbose         Verbose logging".toList,
    "  --man                 Print the full manual and exit".toList ]

/-- What is printed when help is asked for. -/
def help : Text := Text.ofRows helpRows

def manualRows : List Text :=
  [ "Convert a yeast byte-code stream into a cross-linked tree/text HTML page.".toList,
    "".toList,
    "Each input line is one record: a single code character followed by the".toList,
    "token text, as emitted by a YAML reference parser. Lines starting with '#'".toList,
    "are comments. The page shows a collapsible syntax tree next to the".toList,
    "reconstructed source text; clicking a leaf or a text span highlights its".toList,
    "counterpart in the other pane.".toList,
    "".toList,
    "Usage:".toList,
    "    # Read from a file, write the page to stdout".toList,
    "    python3 scripts/yeast2html.py example.yeast > example.html".toList,
    "".toList,
    "    # Read stdin, write a file, embed a custom stylesheet".toList,
    "    python3 scripts/yeast2html.py -o out/example.html -s yeast.css < example.yeast".toList,
    "".toList,
    "    # Reference the stylesheet instead of embedding it".toList,
    "    python3 scripts/yeast2html.py -s yeast.css --link-stylesheet example.yeast".toList,
    "".toList,
    "    # Dump the parsed document model as JSON".toList,
    "    python3 scripts/yeast2html.py --format json example.yeast".toList,
    "".toList,
    "Options:".toList,
    "    -o, --output PATH        Output file (default: standard output).".toList,
    "    -s, --stylesheet PATH    Stylesheet embedded verbatim into the page".toList,
    "                             (default: a small built-in style).".toList,
    "    -l, --link-stylesheet    Emit a <link> to the stylesheet instead of".toList,
    "                             embedding it. Requires --stylesheet.".toList,
    "    --tree-title TEXT        Title of the tree pane (default: \"Syntax Tree\").".toList,
    "    --text-title TEXT        Title of the text pane (default: \"YAML Text\").".toList,
    "    --format \x7bhtml,json\x7d     Output format (default: html).".toList,
    "    -v, --verbose            Log progress to stderr.".toList,
    "    --man                    Print this manual and exit.".toList,
    "".toList,
    "Exit status:".toList,
    "    0 on success. 1 on any error, after one \"Error: ...\" line on stderr:".toList,
    "    unknown, malformed or conflicting options, more than one input file, a line that is".toList,
    "    not a byte-code record, an unknown code, an end code that does not match".toList,
    "    the innermost open begin code, or an unreadable/unwritable file.".toList,
    "    Diagnostics carry the 1-based input line number.".toList ]

/-- What is printed when the manual is asked for; an empty row ends it. -/
def manual : Text := Text.ofRows (manualRows ++ [[]])

end Command

end Yeast
