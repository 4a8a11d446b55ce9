import Yeast.Text.Basic

set_option autoImplicit false

/-! # Records

A stream is cut into records at line feeds only; form feeds, NEL and the Unicode line
separators are ordinary characters of a record. The carriage return of a CR LF pair stays at
the end of its record and is dropped with the terminator when the record is read.
-/

namespace Yeast

namespace Text

/-- The records of a stream: the pieces between line feeds, the empty piece after a final
line feed not counted. -/
def records : Text → List Text
  | [] => []
  | c :: rest =>
    if c = '\n' then [] :: records rest
    else
      match records rest with
      | [] => [[c]]
      | record :: others => (c :: record) :: others

/-- The line without its terminator, which is a final CR LF, LF or CR. -/
def withoutTerminator : Text → Text
  | [] => []
  | ['\r', '\n'] => []
  | ['\n'] => []
  | ['\r'] => []
  | c :: rest => c :: withoutTerminator rest

def byteOrderMark : Char := '\uFEFF'

def withoutByteOrderMark : Text → Text
  | [] => []
  | c :: rest => if c = byteOrderMark then rest else c :: rest

@[simp]
theorem records_nil : records [] = [] := rfl

@[simp]
theorem records_lineFeed (rest : Text) : records ('\n' :: rest) = [] :: records rest := by
  simp [records]

/-- A record with its line feed is the first record of the stream it begins. -/
theorem records_append_lineFeed {record : Text} (h : '\n' ∉ record) (rest : Text) :
    records (record ++ '\n' :: rest) = record :: records rest := by
  induction record with
  | nil => simp
  | cons c record ih =>
    have hc : c ≠ '\n' := fun e => h (e ▸ List.mem_cons_self)
    have ih := ih fun m => h (List.mem_cons_of_mem c m)
    rw [List.cons_append, records, if_neg hc, ih]

end Text

end Yeast
