import Yeast.Model.Entry

set_option autoImplicit false

/-! # Faults of a stream

Why a stream is no document. Every fault of a record names the line it stands on; a closing code
of the wrong title also names the scope it should have closed. The two faults at the end arise
only from states and line numbers that no stream leads to.
-/

namespace Yeast

/-- A closing code and the scope, of another title, that it met. -/
structure Mismatch where
  line : Int
  code : Text
  title : Text
  openLine : Int
  openCode : Text
  openTitle : Text
  deriving DecidableEq

/-- Why a stream is no document. -/
inductive StreamFault where
  /-- The record holds no code. -/
  | emptyRecord (line : Int)
  /-- The table has no such code. -/
  | unknownCode (line : Int) (code : Text)
  /-- The code closes a scope but none is open. -/
  | unopened (line : Int) (closer : Descriptor)
  /-- The code closes a scope of another title than the innermost open one. -/
  | mismatch (fault : Mismatch)
  /-- More scopes are open than are known to have content or not. -/
  | contentExhausted
  /-- The entry would be invalid. -/
  | entry (fault : EntryFault)

/-- A reason with the line it belongs to. -/
def atLine (line : Int) (reason : Text) : Text :=
  "line ".toList ++ Text.ofInt line ++ ": ".toList ++ reason

def Mismatch.message (m : Mismatch) : Text :=
  atLine m.line <|
    "end code ".toList ++ m.code.quoted ++ " (".toList ++ m.title ++ ") does not match ".toList ++
      "begin code ".toList ++ m.openCode.quoted ++ " (".toList ++ m.openTitle ++
      ") opened at line ".toList ++ Text.ofInt m.openLine

namespace StreamFault

def message : StreamFault → Text
  | emptyRecord line => atLine line "not a byte-code line".toList
  | unknownCode line code => atLine line ("unknown byte code ".toList ++ code.quoted)
  | unopened line closer =>
    atLine line ("end code ".toList ++ Text.quoted [closer.code] ++ " (".toList ++ closer.title ++
      ") has no open begin code".toList)
  | mismatch fault => fault.message
  | contentExhausted => "pop from empty list".toList
  | entry fault => fault.message

end StreamFault

/-- The descriptor of the code that begins the record on the given line. -/
def CodeTable.lookup (code : Text) (line : Int) : Except StreamFault Descriptor :=
  match code with
  | [c] =>
    match CodeTable.find? c with
    | some d => .ok d
    | none => .error (.unknownCode line code)
  | _ => .error (.unknownCode line code)

end Yeast
