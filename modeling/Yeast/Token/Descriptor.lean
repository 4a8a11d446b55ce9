import Yeast.Text.Quoted

set_option autoImplicit false

/-! # Token descriptors

What a code character means: the kind of its token and a title for it. Descriptors made from
fields of unknown origin are checked; the code is looked at first, then the kind, then the
title, and the first fault is the one reported.
-/

namespace Yeast

/-- What a token does: name the encoding, carry text, open a scope, close one, or report an
error. -/
inductive TokenKind where
  | byteOrderMark
  | text
  | opening
  | closing
  | error
  deriving DecidableEq

namespace TokenKind

def name : TokenKind → Text
  | byteOrderMark => "bom".toList
  | text => "text".toList
  | opening => "begin".toList
  | closing => "end".toList
  | error => "error".toList

def all : List TokenKind := [byteOrderMark, text, opening, closing, error]

def ofName? (word : Text) : Option TokenKind := all.find? fun kind => kind.name == word

@[simp]
theorem ofName?_name (kind : TokenKind) : ofName? kind.name = some kind := by
  cases kind <;> decide

end TokenKind

/-- What a code character means. -/
structure Descriptor where
  code : Char
  kind : TokenKind
  title : Text
  deriving DecidableEq

/-- Why the fields of a descriptor are refused. -/
inductive DescriptorFault where
  /-- The code is not one character. -/
  | codeLength (code : Text)
  /-- There is no such kind. -/
  | unknownKind (word : Text)
  /-- The title is empty. -/
  | emptyTitle

namespace DescriptorFault

def message : DescriptorFault → Text
  | codeLength code => "code must be a single character, got ".toList ++ code.quoted
  | unknownKind word => "unknown token kind ".toList ++ word.quoted
  | emptyTitle => "title cannot be empty".toList

end DescriptorFault

namespace Descriptor

/-- The descriptor with the given fields, if they make one. -/
def check (code kind title : Text) : Except DescriptorFault Descriptor :=
  match code with
  | [c] =>
    match TokenKind.ofName? kind with
    | some kind => if title.isEmpty then .error .emptyTitle else .ok ⟨c, kind, title⟩
    | none => .error (.unknownKind kind)
  | _ => .error (.codeLength code)

end Descriptor

end Yeast
