import Yeast.Text.Substitution

set_option autoImplicit false

/-! # Placeholders

Records spell line breaks and other invisible characters as backslash escapes. Each of these
spellings, and each literal tab and space, has a visible symbol. An escaped backslash stands
for itself and is read first, so that the escapes behind it are told from text that only looks
like one: after two backslashes an `n` is a letter. Spelling a text out again replaces each
symbol by the first sequence of the table that it stands for.
-/

namespace Yeast

/-- A sequence of characters and the symbol it is shown as. -/
structure Placeholder where
  sequence : Text
  symbol : Char

namespace Placeholder

/-! ## The symbols

Each is named for the character that it is shown for. The escape of U+FEFF has one symbol and a byte
order mark at the start of a document another, and `empty` is shown for a scope that holds nothing.
-/

def carriageReturn : Char := '⏎'

def lineFeed : Char := '↓'

def nextLine : Char := '⇓'

def lineSeparator : Char := '§'

def paragraphSeparator : Char := '¶'

def tab : Char := '→'

def space : Char := '·'

def noBreak : Char := '◆'

def byteOrderMark : Char := '⇔'

def empty : Char := '°'

/-- The sequences in the order in which they are tried, with their symbols. -/
def table : List Placeholder :=
  [ ⟨['\\', 'r'], carriageReturn⟩,
    ⟨['\\', 'n'], lineFeed⟩,
    ⟨['\\', 'x', '8', '5'], nextLine⟩,
    ⟨['\\', 'u', '2', '0', '2', '8'], lineSeparator⟩,
    ⟨['\\', 'u', '2', '0', '2', '9'], paragraphSeparator⟩,
    ⟨['\\', 't'], tab⟩,
    ⟨['\t'], tab⟩,
    ⟨[' '], space⟩,
    ⟨['\\', 'u', 'F', 'E', 'F', 'F'], noBreak⟩,
    ⟨['\\', 'u', 'f', 'e', 'f', 'f'], noBreak⟩ ]

/-- The symbols of the characters that end a line, by code point. -/
def lineBreaks : List Char := [lineFeed, carriageReturn]

/-- An escaped backslash is kept as it is. -/
def escapedBackslash : Rule := ⟨['\\', '\\'], ['\\', '\\']⟩

/-- The rules that show a text: escaped backslashes first, then the table. -/
def rules : List Rule :=
  escapedBackslash :: table.map fun p => ⟨p.sequence, [p.symbol]⟩

/-- The rules that spell a text out: the first sequence of the table for each symbol. -/
def spellings : List Rule := table.map fun p => ⟨[p.symbol], p.sequence⟩

end Placeholder

namespace Text

/-- The text with every escape and blank shown as its symbol. -/
def withPlaceholders (text : Text) : Text := substitute Placeholder.rules text

/-- The text with every symbol replaced by the sequence it stands for. -/
def spelledOut (text : Text) : Text := substitute Placeholder.spellings text

/-- The text ends in the symbol of a carriage return or line feed. -/
def endsLine (text : Text) : Bool :=
  match text.getLast? with
  | some c => Placeholder.lineBreaks.contains c
  | none => false

end Text

end Yeast
