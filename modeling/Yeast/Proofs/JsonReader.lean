import Mathlib.Tactic.Common
import Yeast.Json.Basic

set_option autoImplicit false

/-! # Reading JSON

A reader of JSON that knows nothing of the writer. `lexemes?` cuts a text into marks, words and
string literals and passes over the space between them; `Stage.run?` reads these with a stack of
the arrays and objects that are not complete. Numbers have to be integers, since there are no other
values; beyond that every JSON text is read, with all escapes and with space wherever it may stand.

The parts without structure are read back here: a string literal (`string?_written`) and a number
(`scalar?_ofInt`).
-/

namespace Yeast

namespace Json

/-! ## String literals -/

def hexDigit? (c : Char) : Option Nat :=
  if '0' ≤ c ∧ c ≤ '9' then some (c.toNat - '0'.toNat)
  else if 'a' ≤ c ∧ c ≤ 'f' then some (c.toNat - 'a'.toNat + 10)
  else if 'A' ≤ c ∧ c ≤ 'F' then some (c.toNat - 'A'.toNat + 10)
  else none

/-- The code unit that four hexadecimal digits spell, and the text behind them. -/
def codeUnit? : Text → Option (Nat × Text)
  | a :: b :: c :: d :: behind =>
    match hexDigit? a, hexDigit? b, hexDigit? c, hexDigit? d with
    | some a, some b, some c, some d => some (((a * 16 + b) * 16 + c) * 16 + d, behind)
    | _, _, _, _ => none
  | _ => none

/-- The character that a code unit stands for, or two of them if they are surrogates, and the text
behind them. -/
def codePoint? (text : Text) : Option (Char × Text) :=
  match codeUnit? text with
  | some (unit, behind) =>
    if unit < 0xD800 ∨ 0xE000 ≤ unit then some (Char.ofNat unit, behind)
    else
      match behind with
      | '\\' :: 'u' :: rest =>
        match codeUnit? rest with
        | some (low, behind) =>
          if unit < 0xDC00 ∧ 0xDC00 ≤ low ∧ low < 0xE000 then
            some (Char.ofNat (0x10000 + (unit - 0xD800) * 0x400 + (low - 0xDC00)), behind)
          else none
        | none => none
      | _ => none
  | none => none

/-- The escapes of one letter or sign, and what they stand for. -/
def shortEscapes : List (Char × Char) :=
  [ ('"', '"'), ('\\', '\\'), ('/', '/'), ('b', '\x08'), ('f', '\x0C'), ('n', '\n'), ('r', '\r'),
    ('t', '\t') ]

/-- The character that an escape stands for, of which the backslash is read, and the text behind
it. -/
def escape? : Text → Option (Char × Text)
  | [] => none
  | c :: behind =>
    if c = 'u' then codePoint? behind else (shortEscapes.lookup c).map fun d => (d, behind)

theorem length_lt_of_codeUnit? {text behind : Text} {unit : Nat}
    (h : codeUnit? text = some (unit, behind)) : behind.length < text.length := by
  unfold codeUnit? at h
  split at h
  · split at h
    · obtain ⟨-, rfl⟩ := Prod.mk.inj (Option.some.inj h)
      simp only [List.length_cons]
      omega
    · simp at h
  · simp at h

theorem length_lt_of_codePoint? {text behind : Text} {c : Char}
    (h : codePoint? text = some (c, behind)) : behind.length < text.length := by
  unfold codePoint? at h
  split at h
  · rename_i unit rest hunit
    have hlt := length_lt_of_codeUnit? hunit
    split at h
    -- a code unit that is a character by itself
    · obtain ⟨-, rfl⟩ := Prod.mk.inj (Option.some.inj h)
      exact hlt
    -- a surrogate needs its partner, spelled right behind it
    · split at h
      · rename_i rest
        split at h
        · rename_i low behind' hlow
          have hlt' := length_lt_of_codeUnit? hlow
          split at h
          · obtain ⟨-, rfl⟩ := Prod.mk.inj (Option.some.inj h)
            simp only [List.length_cons] at hlt
            omega
          · simp at h
        · simp at h
      · simp at h
  · simp at h

theorem length_lt_of_escape? {text behind : Text} {c : Char}
    (h : escape? text = some (c, behind)) : behind.length < text.length := by
  unfold escape? at h
  split at h
  · simp at h
  · split at h
    · have := length_lt_of_codePoint? h
      rw [List.length_cons]
      omega
    · obtain ⟨d, -, heq⟩ := Option.map_eq_some_iff.mp h
      obtain ⟨-, rfl⟩ := Prod.mk.inj heq
      simp

/-- The value of a string literal, of which the first quotation mark is read, and the text behind
the last one. -/
def string? (text : Text) : Option (Text × Text) :=
  match text with
  | [] => none
  | c :: rest =>
    if c = '"' then some ([], rest)
    else if c = '\\' then
      match _h : escape? rest with
      | some (d, behind) => (string? behind).map fun (value, behind) => (d :: value, behind)
      | none => none
    else if c.toNat < 0x20 then none
    else (string? rest).map fun (value, behind) => (c :: value, behind)
termination_by text.length
decreasing_by
  · have := length_lt_of_escape? _h
    simp only [List.length_cons]
    omega
  · simp

theorem length_lt_of_string? {text value behind : Text}
    (h : string? text = some (value, behind)) : behind.length < text.length := by
  induction hn : text.length using Nat.strongRecOn generalizing text value with
  | ind n ih =>
      rw [string?.eq_def] at h
      split at h
      · simp at h
      · rename_i c rest
        rw [List.length_cons] at hn
        split_ifs at h
        -- the closing quote
        · obtain ⟨-, rfl⟩ := Prod.mk.inj (Option.some.inj h)
          omega
        -- an escape
        · split at h
          · rename_i d behind' hescape
            obtain ⟨⟨value', behind''⟩, hrest, heq⟩ := Option.map_eq_some_iff.mp h
            obtain ⟨-, rfl⟩ := Prod.mk.inj heq
            have hlt := length_lt_of_escape? hescape
            have := ih behind'.length (by omega) hrest rfl
            omega
          · simp at h
        -- any other character
        · obtain ⟨⟨value', behind'⟩, hrest, heq⟩ := Option.map_eq_some_iff.mp h
          obtain ⟨-, rfl⟩ := Prod.mk.inj heq
          have := ih rest.length (by omega) hrest rfl
          omega

/-! ## Lexemes -/

def isSpace (c : Char) : Bool := c == ' ' || c == '\t' || c == '\n' || c == '\r'

/-- A bracket, a comma or a colon. -/
def isMark (c : Char) : Bool :=
  c == '[' || c == ']' || c == '\x7b' || c == '\x7d' || c == ',' || c == ':'

/-- A character of a number or of a word for a value. -/
def isWordChar (c : Char) : Bool := c.isAlphanum || c == '-' || c == '+' || c == '.'

def lexemes? (text : Text) : Option (List Lexeme) :=
  match text with
  | [] => some []
  | c :: rest =>
    if isSpace c then lexemes? rest
    else if isMark c then (lexemes? rest).map (.mark c :: ·)
    else if c = '"' then
      match _h : string? rest with
      | some (value, behind) => (lexemes? behind).map (.string value :: ·)
      | none => none
    else if isWordChar c then
      (lexemes? (rest.dropWhile isWordChar)).map (.word (c :: rest.takeWhile isWordChar) :: ·)
    else none
termination_by text.length
decreasing_by
  · simp
  · simp
  · have := length_lt_of_string? _h
    simp only [List.length_cons]
    omega
  · have := (List.dropWhile_sublist isWordChar (l := rest)).length_le
    simp only [List.length_cons]
    omega

/-! ## Values -/

/-- The number that is written in decimal digits, without zeros before it. -/
def natural? (digits : Text) : Option Nat :=
  if digits = [] ∨ digits.all Char.isDigit = false ∨ digits.head? = some '0' ∧ 1 < digits.length
  then none
  else some (Nat.ofDigitChars 10 digits 0)

def integer? : Text → Option Int
  | [] => none
  | c :: rest =>
    if c = '-' then (natural? rest).map fun n => -(n : Int)
    else (natural? (c :: rest)).map fun n => (n : Int)

/-- The value that a word stands for. -/
def scalar? (word : Text) : Option Json :=
  if word = "null".toList then some .null
  else if word = "true".toList then some (.bool true)
  else if word = "false".toList then some (.bool false)
  else (integer? word).map .int

/-- An array or an object that is not complete, with what has been read of it, the last first. -/
inductive Frame where
  /-- The next item is being read. -/
  | array (items : List Json)
  /-- The value of the name is being read. -/
  | object (fields : List (Text × Json)) (name : Text)

/-- What has been read, inside the arrays and objects that are not complete, innermost first. -/
inductive Stage where
  /-- A value has to follow. -/
  | value (frames : List Frame)
  /-- The beginning of an array. -/
  | arrayStart (frames : List Frame)
  /-- The beginning of an object. -/
  | objectStart (frames : List Frame)
  /-- A comma behind the fields of an object. -/
  | comma (frames : List Frame) (fields : List (Text × Json))
  /-- A name behind the fields of an object. -/
  | named (frames : List Frame) (fields : List (Text × Json)) (name : Text)
  /-- A whole value. -/
  | whole (frames : List Frame) (v : Json)

namespace Stage

/-- Behind the first lexeme of a value. -/
def begin? (frames : List Frame) : Lexeme → Option Stage
  | .word text => (scalar? text).map (.whole frames)
  | .string text => some (.whole frames (.string text))
  | .mark c =>
    if c = '[' then some (.arrayStart frames)
    else if c = '\x7b' then some (.objectStart frames)
    else none
  | .blank _ => none

def step? : Stage → Lexeme → Option Stage
  | value frames, l => begin? frames l
  | arrayStart frames, .mark ']' => some (.whole frames (.array []))
  | arrayStart frames, l => begin? (.array [] :: frames) l
  | objectStart frames, .string text => some (.named frames [] text)
  | objectStart frames, .mark '\x7d' => some (.whole frames (.object []))
  | comma frames fields, .string text => some (.named frames fields text)
  | named frames fields text, .mark ':' => some (.value (.object fields text :: frames))
  | whole (.array items :: frames) v, .mark ',' => some (.value (.array (v :: items) :: frames))
  | whole (.array items :: frames) v, .mark ']' =>
    some (.whole frames (.array (v :: items).reverse))
  | whole (.object fields text :: frames) v, .mark ',' =>
    some (.comma frames ((text, v) :: fields))
  | whole (.object fields text :: frames) v, .mark '\x7d' =>
    some (.whole frames (.object ((text, v) :: fields).reverse))
  | _, _ => none

def run? : Stage → List Lexeme → Option Stage
  | stage, [] => some stage
  | stage, l :: ls => (stage.step? l).bind fun stage => stage.run? ls

/-- The value, if it is whole and nothing is around it. -/
def result? : Stage → Option Json
  | whole [] v => some v
  | _ => none

end Stage

def read? (text : Text) : Option Json :=
  (lexemes? text).bind fun ls => ((Stage.value []).run? ls).bind Stage.result?

/-! ## String literals are read back -/

theorem codeUnit?_append {digits : Text} {unit : Nat} (h : codeUnit? digits = some (unit, []))
    (behind : Text) : codeUnit? (digits ++ behind) = some (unit, behind) := by
  unfold codeUnit? at h
  split at h
  · rename_i a b c d rest
    rw [List.cons_append, List.cons_append, List.cons_append, List.cons_append, codeUnit?]
    split at h
    · obtain ⟨rfl, rfl⟩ := Prod.mk.inj (Option.some.inj h)
      rfl
    · simp at h
  · simp at h

/-- The four digits of a control character. -/
theorem codeUnit?_hexadecimal :
    ∀ n, n < 0x20 → codeUnit? (Text.hexadecimal 4 n) = some (n, []) := by
  decide

theorem string?_plain {c : Char} (hquote : c ≠ '"') (hbackslash : c ≠ '\\')
    (hcontrol : ¬ c.toNat < 0x20) (rest : Text) :
    string? (c :: rest) = (string? rest).map fun (value, behind) => (c :: value, behind) := by
  rw [string?, if_neg hquote, if_neg hbackslash, if_neg hcontrol]

theorem string?_escape {text rest : Text} {d : Char} (h : escape? text = some (d, rest)) :
    string? ('\\' :: text) = (string? rest).map fun (value, behind) => (d :: value, behind) := by
  rw [string?, if_neg (by decide), if_pos rfl]
  split
  · rename_i heq
    rw [h] at heq
    obtain ⟨rfl, rfl⟩ := Prod.mk.inj (Option.some.inj heq)
    rfl
  · rename_i heq
    rw [h] at heq
    simp at heq

/-- A character is read back from what stands for it in a string. -/
theorem string?_escapedChar (c : Char) (rest : Text) :
    string? (escapedChar c ++ rest) =
      (string? rest).map fun (value, behind) => (c :: value, behind) := by
  unfold escapedChar
  split_ifs with hquote hbackslash hbackspace htab hfeed hform hreturn hcontrol
  · subst hquote; exact string?_escape rfl
  · subst hbackslash; exact string?_escape rfl
  · subst hbackspace; exact string?_escape rfl
  · subst htab; exact string?_escape rfl
  · subst hfeed; exact string?_escape rfl
  · subst hform; exact string?_escape rfl
  · subst hreturn; exact string?_escape rfl
  · refine string?_escape ?_
    have hunit := codeUnit?_append (codeUnit?_hexadecimal c.toNat hcontrol) rest
    show codePoint? (Text.hexadecimal 4 c.toNat ++ rest) = some (c, rest)
    rw [codePoint?, hunit]
    dsimp only
    rw [if_pos (by omega), Char.ofNat_toNat]
  · exact string?_plain hquote hbackslash hcontrol rest

theorem string?_written (text behind : Text) :
    string? (text.flatMap escapedChar ++ '"' :: behind) = some (text, behind) := by
  induction text with
  | nil =>
      show string? ('"' :: behind) = _
      rw [string?, if_pos rfl]
  | cons c text ih =>
      rw [List.flatMap_cons, List.append_assoc, string?_escapedChar, ih]
      rfl

/-! ## Numbers are read back -/

theorem head?_toDigits {n : Nat} (h : 0 < n) : (Nat.toDigits 10 n).head? ≠ some '0' := by
  induction n using Nat.strongRecOn with
  | ind n ih =>
      rcases Nat.lt_or_ge n 10 with hlt | hge
      · rw [Nat.toDigits_of_lt_base hlt, List.head?_singleton]
        intro heq
        have := Nat.digitChar_eq_zero.mp (Option.some.inj heq)
        omega
      · have hmore := ih (n / 10) (by omega) (by omega)
        rw [Nat.toDigits_of_base_le (by omega) hge, List.head?_append]
        cases hhead : (Nat.toDigits 10 (n / 10)).head? with
        | none => exact absurd (List.head?_eq_none_iff.mp hhead) Nat.toDigits_ne_nil
        | some c =>
            rw [hhead] at hmore
            exact hmore

theorem natural?_ofNat (n : Nat) : natural? (Text.ofNat n) = some n := by
  have hdigits : (Text.ofNat n).all Char.isDigit = true := by
    rw [List.all_eq_true]
    intro c hc
    exact Nat.isDigit_of_mem_toDigits (by decide) (by decide) hc
  have hzero : ¬ ((Text.ofNat n).head? = some '0' ∧ 1 < (Text.ofNat n).length) := by
    rintro ⟨hhead, hlength⟩
    cases n with
    | zero => exact absurd hlength (by decide)
    | succ n => exact head?_toDigits (by omega) hhead
  have hne : Text.ofNat n ≠ [] := Nat.toDigits_ne_nil
  unfold natural?
  rw [if_neg]
  · exact congrArg some Nat.ofDigitChars_ten_toDigits
  · simp only [hdigits, hne, hzero]
    decide

theorem integer?_ofInt (n : Int) : integer? (Text.ofInt n) = some n := by
  cases n with
  | ofNat n =>
      show integer? (Text.ofNat n) = _
      cases hdigits : Text.ofNat n with
      | nil => exact absurd hdigits Nat.toDigits_ne_nil
      | cons c rest =>
          have hc : c.isDigit := by
            refine Nat.isDigit_of_mem_toDigits (b := 10) (n := n) (by decide) (by decide) ?_
            rw [show Nat.toDigits 10 n = c :: rest from hdigits]
            exact List.mem_cons_self
          have hminus : c ≠ '-' := by
            rintro rfl
            exact absurd hc (by decide)
          rw [integer?, if_neg hminus, ← hdigits, natural?_ofNat]
          rfl
  | negSucc n =>
      show integer? ('-' :: Text.ofNat (n + 1)) = _
      rw [integer?, if_pos rfl, natural?_ofNat]
      rfl

/-- A numeral is no word for another value. -/
theorem scalar?_ofInt (n : Int) : scalar? (Text.ofInt n) = some (.int n) := by
  have hword : ∀ word : Text, integer? word = none → Text.ofInt n ≠ word := by
    intro word hnone heq
    rw [← heq, integer?_ofInt] at hnone
    simp at hnone
  unfold scalar?
  rw [if_neg (hword _ (by decide)), if_neg (hword _ (by decide)), if_neg (hword _ (by decide)),
    integer?_ofInt]
  rfl

end Json

end Yeast
