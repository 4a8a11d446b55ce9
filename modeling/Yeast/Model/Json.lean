import Yeast.Json.Basic
import Yeast.Model.Basic

set_option autoImplicit false

/-! # A model as data

Every field of every entry and open scope as a JSON value; beside the text of an entry stands
the text as its record spells it.
-/

namespace Yeast

def Entry.toJson (e : Entry) : Json :=
  .object
    [ ("code".toList, .string [e.descriptor.code]),
      ("kind".toList, .string e.kind.name),
      ("title".toList, .string e.title),
      ("text".toList, .string e.text),
      ("source_text".toList, .string e.sourceText),
      ("correlation_id".toList, match e.id with
        | some n => .int n
        | none => .null),
      ("line_number".toList, .int e.line),
      ("synthetic".toList, .bool e.synthetic) ]

def OpenScope.toJson (s : OpenScope) : Json :=
  .object
    [ ("line_number".toList, .int s.line),
      ("code".toList, .string [s.descriptor.code]),
      ("title".toList, .string s.descriptor.title) ]

namespace Model

def toJson (m : Model) : Json :=
  .object
    [ ("entries".toList, .array (m.entries.map Entry.toJson)),
      ("open_scopes".toList, .array (m.openScopes.map OpenScope.toJson)) ]

/-- The text of the model's value, ended by a line feed. -/
def dump (layout : Json.Layout) (m : Model) : Except Json.Fault Text :=
  match m.toJson.render layout with
  | .ok text => .ok (text ++ ['\n'])
  | .error fault => .error fault

end Model

end Yeast
