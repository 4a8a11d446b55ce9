import Yeast.Text.Quoted

set_option autoImplicit false

/-! # JSON values and their text

A value is written as a list of lexemes, blanks among them; the compact text is the same list
without its blanks. Strings escape the quotation mark, the backslash and the characters below
U+0020, and hold everything else verbatim. Integers are limited to what fits a signed or an
unsigned word of 64 bits.
-/

namespace Yeast

/-- A JSON value. The fields of an object keep their order. -/
inductive Json where
  | null
  | bool (value : Bool)
  | int (value : Int)
  | string (value : Text)
  | array (items : List Json)
  | object (fields : List (Text × Json))

namespace Json

/-- The values with a text: every integer fits into 64 bits. -/
inductive Fault where
  /-- An integer has more than 64 bits. -/
  | integerRange

def Fault.message : Fault → Text
  | integerRange => "Integer exceeds 64-bit range".toList

/-- The integer fits a signed or an unsigned word of 64 bits. -/
def inRange (n : Int) : Bool := -9223372036854775808 ≤ n && n ≤ 18446744073709551615

mutual

/-- Every integer of the value is in range. -/
def fits : Json → Bool
  | null => true
  | bool _ => true
  | int n => inRange n
  | string _ => true
  | array items => itemsFit items
  | object fields => fieldsFit fields

def itemsFit : List Json → Bool
  | [] => true
  | v :: items => fits v && itemsFit items

def fieldsFit : List (Text × Json) → Bool
  | [] => true
  | (_, v) :: fields => fits v && fieldsFit fields

end

def escapedChar (c : Char) : Text :=
  if c = '"' then ['\\', '"']
  else if c = '\\' then ['\\', '\\']
  else if c = '\x08' then ['\\', 'b']
  else if c = '\t' then ['\\', 't']
  else if c = '\n' then ['\\', 'n']
  else if c = '\x0C' then ['\\', 'f']
  else if c = '\r' then ['\\', 'r']
  else if c.toNat < 0x20 then '\\' :: 'u' :: Text.hexadecimal 4 c.toNat
  else [c]

/-- The smallest pieces of a JSON text. -/
inductive Lexeme where
  /-- A bracket, a comma or a colon. -/
  | mark (c : Char)
  /-- A number or one of the words for truth values and null. -/
  | word (text : Text)
  /-- A string literal of the given value. -/
  | string (value : Text)
  /-- Space between the others. -/
  | blank (text : Text)

namespace Lexeme

def text : Lexeme → Text
  | mark c => [c]
  | word t => t
  | string t => '"' :: t.flatMap escapedChar ++ ['"']
  | blank t => t

/-- The lexeme is only space. -/
def isBlank : Lexeme → Bool
  | blank _ => true
  | _ => false

/-- A new row, indented by two spaces a level. -/
def row (level : Nat) : Lexeme := blank ('\n' :: List.replicate (2 * level) ' ')

end Lexeme

mutual

/-- The lexemes of a value whose last row is at the given level. -/
def lexemes (level : Nat) : Json → List Lexeme
  | null => [.word "null".toList]
  | bool true => [.word "true".toList]
  | bool false => [.word "false".toList]
  | int n => [.word (Text.ofInt n)]
  | string t => [.string t]
  | array [] => [.mark '[', .mark ']']
  | array (v :: items) =>
    .mark '[' :: .row (level + 1) :: lexemes (level + 1) v ++ moreItems (level + 1) items ++
      [.row level, .mark ']']
  | object [] => [.mark '\x7b', .mark '\x7d']
  | object ((name, v) :: fields) =>
    .mark '\x7b' :: .row (level + 1) :: .string name :: .mark ':' :: .blank [' '] ::
      lexemes (level + 1) v ++ moreFields (level + 1) fields ++ [.row level, .mark '\x7d']

/-- The items after the first, a row each. -/
def moreItems (level : Nat) : List Json → List Lexeme
  | [] => []
  | v :: items => .mark ',' :: .row level :: lexemes level v ++ moreItems level items

/-- The fields after the first, a row each. -/
def moreFields (level : Nat) : List (Text × Json) → List Lexeme
  | [] => []
  | (name, v) :: fields =>
    .mark ',' :: .row level :: .string name :: .mark ':' :: .blank [' '] ::
      lexemes level v ++ moreFields level fields

end

/-- How a value is laid out: over indented rows, or without any blank. -/
inductive Layout where
  | indented
  | compact
  deriving DecidableEq

/-- The lexemes of a value in the given layout. -/
def laidOut (layout : Layout) (v : Json) : List Lexeme :=
  match layout with
  | .indented => lexemes 0 v
  | .compact => (lexemes 0 v).filter fun l => !l.isBlank

def render (layout : Layout) (v : Json) : Except Fault Text :=
  if v.fits then .ok ((laidOut layout v).flatMap Lexeme.text) else .error .integerRange

end Json

end Yeast
