set_option autoImplicit false

/-! # Texts

A text is the list of its characters, so that every operation on it is a recursion on the
list. Numbers are written in decimal; rows of text are ended, not separated, by line feeds.

Characters are Unicode scalar values, so texts with lone surrogates are outside the model. They come
from arguments of a command line that have bytes which cannot be decoded, and encoding one fails.
-/

namespace Yeast

/-- A text, as the list of its characters. -/
abbrev Text := List Char

namespace Text

def ofNat (n : Nat) : Text := Nat.toDigits 10 n

/-- The decimal numeral of an integer, with a minus sign before a negative one. -/
def ofInt : Int → Text
  | .ofNat n => ofNat n
  | .negSucc n => '-' :: ofNat (n + 1)

/-- The rows in order, each ended by a line feed. -/
def ofRows (rows : List Text) : Text := rows.flatMap (· ++ ['\n'])

/-- The texts in order, with `separator` between each two neighbours. -/
def joined (separator : Text) (texts : List Text) : Text := List.intercalate separator texts

/-- The pieces of a text between the characters that part it, empty ones included; there is
always one piece more than there are such characters. -/
def pieces (parts : Char → Bool) : Text → List Text
  | [] => [[]]
  | c :: rest =>
    if parts c then [] :: pieces parts rest else (pieces parts rest).modifyHead (c :: ·)

@[simp]
theorem ofRows_nil : ofRows [] = [] := rfl

@[simp]
theorem ofRows_cons (row : Text) (rows : List Text) :
    ofRows (row :: rows) = row ++ '\n' :: ofRows rows := by
  simp [ofRows]

theorem ofRows_append (rows rows' : List Text) :
    ofRows (rows ++ rows') = ofRows rows ++ ofRows rows' := by
  simp [ofRows]

end Text

end Yeast
