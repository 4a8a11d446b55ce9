import Yeast.Encoding.Utf8

set_option autoImplicit false

/-! # Windows-1252

A single-byte encoding. A byte stands for the character of its own number, except from 0x80 to
0x9F, where it has a table; five bytes of the table stand for nothing.
-/

namespace Yeast

namespace Windows1252

/-- The characters of the bytes from 0x80 to 0x9F. -/
def highTable : List (Option Char) :=
  [ '€', none, '‚', 'ƒ', '„', '…', '†', '‡', 'ˆ', '‰', 'Š', '‹', 'Œ', none, 'Ž', none,
    none, '‘', '’', '“', '”', '•', '–', '—', '˜', '™', 'š', '›', 'œ', none, 'ž', 'Ÿ' ]

def char? (b : UInt8) : Option Char :=
  if 0x80 ≤ b && b < 0xA0 then (highTable[b.toNat - 0x80]?).join
  else some (Char.ofNat b.toNat)

/-- The text, if every byte stands for a character. -/
def decode? (bytes : Bytes) : Option Text := bytes.mapM char?

end Windows1252

end Yeast
