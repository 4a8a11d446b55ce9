import Yeast.Token.Descriptor

set_option autoImplicit false

/-! # The code table

The first character of a record is its code. Codes for text and errors stand alone; the others
come in pairs of one title, where the capital opens a scope and the small letter closes it. No
two pairs share a title, so a title names the closing code of its pair.
-/

namespace Yeast

namespace CodeTable

/-- The codes that stand alone. -/
def singles : List Descriptor :=
  [ ⟨'U', .byteOrderMark, "BOM".toList⟩,
    ⟨'T', .text, "Text".toList⟩,
    ⟨'t', .text, "Meta".toList⟩,
    ⟨'b', .text, "Break".toList⟩,
    ⟨'L', .text, "Line Feed".toList⟩,
    ⟨'l', .text, "Line Fold".toList⟩,
    ⟨'I', .text, "Indicator".toList⟩,
    ⟨'w', .text, "White".toList⟩,
    ⟨'i', .text, "Indent".toList⟩,
    ⟨'K', .text, "Directives End".toList⟩,
    ⟨'k', .text, "Document End".toList⟩,
    ⟨'!', .error, "Error".toList⟩,
    ⟨'-', .text, "Unparsed".toList⟩,
    ⟨'$', .text, "Detected".toList⟩ ]

/-- The opening and the closing code of each pair, and their title. -/
def pairs : List (Char × Char × Text) :=
  [ ('E', 'e', "Escape".toList),
    ('C', 'c', "Comment".toList),
    ('D', 'd', "Directive".toList),
    ('G', 'g', "Tag".toList),
    ('H', 'h', "Handle".toList),
    ('A', 'a', "Anchor".toList),
    ('P', 'p', "Properties".toList),
    ('R', 'r', "Alias".toList),
    ('S', 's', "Scalar".toList),
    ('Q', 'q', "Sequence".toList),
    ('M', 'm', "Mapping".toList),
    ('N', 'n', "Node".toList),
    ('X', 'x', "Pair".toList),
    ('O', 'o', "Document".toList) ]

/-- Every descriptor that a record can have. -/
def descriptors : List Descriptor :=
  singles ++ pairs.flatMap fun (opener, closer, title) =>
    [⟨opener, .opening, title⟩, ⟨closer, .closing, title⟩]

/-- The code of a comment, which is no token. -/
def comment : Char := '#'

/-- Marks a scope that closed without content. Its code is not in the table, so that no record
can have it. -/
def empty : Descriptor := ⟨'~', .text, "Empty".toList⟩

/-- The descriptor of text that shares a record with an opening or closing code. -/
def text : Descriptor := ⟨'T', .text, "Text".toList⟩

def find? (code : Char) : Option Descriptor := descriptors.find? fun d => d.code = code

def closing? (title : Text) : Option Descriptor :=
  descriptors.find? fun d => d.kind = .closing ∧ d.title = title

theorem mem_descriptors_of_find? {code : Char} {d : Descriptor} (h : find? code = some d) :
    d ∈ descriptors := List.mem_of_find?_eq_some h

theorem code_eq_of_find? {code : Char} {d : Descriptor} (h : find? code = some d) :
    d.code = code := by
  simpa using List.find?_some h

theorem find?_text : find? 'T' = some text := by decide

end CodeTable

/-- Why a descriptor has no closing partner. -/
inductive PartnerFault where
  /-- The descriptor opens no scope. -/
  | notOpening (code : Char)
  /-- The table has no closing code of this title. -/
  | unknownTitle (title : Text)

namespace PartnerFault

def message : PartnerFault → Text
  | notOpening code => Text.quoted [code] ++ " is not a begin code".toList
  | unknownTitle title => title.quoted

end PartnerFault

/-- The descriptor that closes the scopes which `d` opens. -/
def Descriptor.partner (d : Descriptor) : Except PartnerFault Descriptor :=
  if d.kind = .opening then
    match CodeTable.closing? d.title with
    | some closer => .ok closer
    | none => .error (.unknownTitle d.title)
  else .error (.notOpening d.code)

end Yeast
