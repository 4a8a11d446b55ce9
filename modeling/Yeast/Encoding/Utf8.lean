import Yeast.Text.Basic

set_option autoImplicit false

/-! # UTF-8

A reader of UTF-8 that never looks back. Between characters it expects a first byte; within a
character it knows the range in which the next byte has to lie, which rules out overlong forms,
surrogates and code points above U+10FFFF at the first byte that shows them. A byte out of range
ends the broken character before it and is read again as a first byte, so each ill-formed
sequence that is as long as possible counts as one, and no byte below 0x80 is ever swallowed.

Strict decoding fails on an ill-formed sequence; replacing decoding writes U+FFFD for it.
-/

namespace Yeast

abbrev Bytes := List UInt8

namespace Utf8

/-- A character of which at least one byte is read: its bits so far, the number of bytes still
to come, and the range of the next one. -/
structure Pending where
  bits : Nat
  remaining : Nat
  least : UInt8
  greatest : UInt8

/-- What the reader has understood: characters, with `none` for an ill-formed sequence, and the
character it is within. -/
abbrev Reading := List (Option Char) × Option Pending

/-- Reading a byte between characters. -/
def first (b : UInt8) : Reading :=
  if b < 0x80 then ([some (Char.ofNat b.toNat)], none)
  -- a byte within a character, or one that begins overlong forms only
  else if b < 0xC2 then ([none], none)
  else if b < 0xE0 then ([], some ⟨b.toNat - 0xC0, 1, 0x80, 0xBF⟩)
  else if b < 0xF0 then
    -- E0 begins overlong forms as well, and ED surrogates
    ([], some ⟨b.toNat - 0xE0, 2, if b = 0xE0 then 0xA0 else 0x80,
      if b = 0xED then 0x9F else 0xBF⟩)
  else if b < 0xF5 then
    -- F0 begins overlong forms as well, and F4 what is above U+10FFFF
    ([], some ⟨b.toNat - 0xF0, 3, if b = 0xF0 then 0x90 else 0x80,
      if b = 0xF4 then 0x8F else 0xBF⟩)
  else ([none], none)

/-- Reading a byte that lies in the expected range within a character. -/
def next (p : Pending) (b : UInt8) : Reading :=
  let bits := p.bits * 64 + (b.toNat - 0x80)
  if p.remaining ≤ 1 then ([some (Char.ofNat bits)], none)
  else ([], some ⟨bits, p.remaining - 1, 0x80, 0xBF⟩)

def step : Option Pending → UInt8 → Reading
  | none, b => first b
  | some p, b =>
    if p.least ≤ b && b ≤ p.greatest then next p b
    else (none :: (first b).1, (first b).2)

/-- All that is read from the bytes; a character that is not finished at their end is
ill-formed. -/
def readFrom : Option Pending → Bytes → List (Option Char)
  | none, [] => []
  | some _, [] => [none]
  | state, b :: rest => (step state b).1 ++ readFrom (step state b).2 rest

/-- The characters of the bytes, with `none` for each ill-formed sequence. -/
def read (bytes : Bytes) : List (Option Char) := readFrom none bytes

/-- The text, if the bytes are well-formed. -/
def decode? (bytes : Bytes) : Option Text := (read bytes).mapM id

/-- The text with U+FFFD for each ill-formed sequence. -/
def decodeReplacing (bytes : Bytes) : Text := (read bytes).map (·.getD '\uFFFD')

def encode (text : Text) : Bytes := text.flatMap String.utf8EncodeChar

@[simp]
theorem encode_nil : encode [] = [] := rfl

end Utf8

end Yeast
