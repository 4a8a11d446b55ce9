import Yeast.Text.Printable

set_option autoImplicit false

/-! # Quoted texts

Diagnostics quote codes and arguments. The quotation mark is `'`, unless the text holds `'`
and no `"`. The backslash, the mark in use, line feed, carriage return and tab are escaped by
a backslash; any other unprintable character is written by its code point, in two, four or
eight hexadecimal digits. A quoted text therefore holds printable characters only.
-/

namespace Yeast

namespace Text

/-- The lower case hexadecimal numeral of `n`, padded with zeros to `width` digits. -/
def hexadecimal (width n : Nat) : Text :=
  let digits := Nat.toDigits 16 n
  List.replicate (width - digits.length) '0' ++ digits

def quotationMark (text : Text) : Char :=
  if text.contains '\'' && !text.contains '"' then '"' else '\''

/-- A character that is not printable, written by its code point. -/
def codePointEscape (c : Char) : Text :=
  if c.toNat < 0x100 then '\\' :: 'x' :: hexadecimal 2 c.toNat
  else if c.toNat < 0x10000 then '\\' :: 'u' :: hexadecimal 4 c.toNat
  else '\\' :: 'U' :: hexadecimal 8 c.toNat

/-- A character as it stands between two marks. -/
def quotedChar (mark c : Char) : Text :=
  if c = mark ∨ c = '\\' then ['\\', c]
  else if c = '\n' then ['\\', 'n']
  else if c = '\r' then ['\\', 'r']
  else if c = '\t' then ['\\', 't']
  else if printable c then [c]
  else codePointEscape c

/-- The text between quotation marks, escaped where it has to be. -/
def quoted (text : Text) : Text :=
  let mark := quotationMark text
  mark :: text.flatMap (quotedChar mark) ++ [mark]

end Text

end Yeast
