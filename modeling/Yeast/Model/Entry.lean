import Yeast.Text.Placeholder
import Yeast.Token.CodeTable

set_option autoImplicit false

/-! # Entries

An entry is one token of a document, in document order. The correlation id is shared by the
item of the outline and the span of the source text that show the entry. A closing entry only
ends a scope and has none; every other entry has one, and it is positive, because 0 belongs to
the legend. Entries made from fields of unknown origin are checked, the line number first.
-/

namespace Yeast

/-- One token of a document. -/
structure Entry where
  descriptor : Descriptor
  text : Text
  id : Option Int
  line : Int
  synthetic : Bool := false
  deriving DecidableEq

/-- Why the fields of an entry are refused. -/
inductive EntryFault where
  /-- Lines are counted from one. -/
  | line (line : Int)
  /-- A closing entry has no correlation id. -/
  | unexpectedId
  /-- An entry of this kind has a positive correlation id. -/
  | invalidId (kind : TokenKind) (id : Option Int)

namespace EntryFault

def message : EntryFault → Text
  | line n => "line_number must be >= 1, got ".toList ++ Text.ofInt n
  | unexpectedId => "end entries cannot carry a correlation_id".toList
  | invalidId kind id =>
    kind.name ++ " entries need a correlation_id >= 1, got ".toList ++
      match id with
      | some n => Text.ofInt n
      | none => "None".toList

end EntryFault

namespace Entry

abbrev kind (e : Entry) : TokenKind := e.descriptor.kind

abbrev title (e : Entry) : Text := e.descriptor.title

/-- The fault of an entry, if it has one. -/
def fault? (e : Entry) : Option EntryFault :=
  if e.line < 1 then some (.line e.line)
  else if e.kind = .closing then
    if e.id.isSome then some .unexpectedId else none
  else
    match e.id with
    | none => some (.invalidId e.kind none)
    | some n => if n < 1 then some (.invalidId e.kind (some n)) else none

def check (e : Entry) : Except EntryFault Entry :=
  match e.fault? with
  | some fault => .error fault
  | none => .ok e

theorem check_eq_ok_iff {e e' : Entry} : e.check = .ok e' ↔ e.fault? = none ∧ e = e' := by
  unfold check
  cases e.fault? <;> simp

/-- The text of the entry as its record spells it. The name of an encoding was never
shown with placeholders. -/
def sourceText (e : Entry) : Text :=
  if e.kind = .byteOrderMark then e.text else e.text.spelledOut

end Entry

end Yeast
