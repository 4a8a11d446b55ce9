import Yeast.Encoding.Windows1252

set_option autoImplicit false

/-! # Reading bytes of unknown encoding

Bytes that are well-formed UTF-8 are read as such; others are read as Windows-1252 if every
byte has a meaning there; the rest is read as UTF-8 with its ill-formed parts replaced. In all
three readings a byte below 0x80 is the ASCII character of its number and no other byte is one,
so records are never cut at different places.
-/

namespace Yeast

/-- The text that the bytes are taken to hold. -/
def Text.ofBytes (bytes : Bytes) : Text :=
  match Utf8.decode? bytes with
  | some text => text
  | none =>
    match Windows1252.decode? bytes with
    | some text => text
    | none => Utf8.decodeReplacing bytes

end Yeast
