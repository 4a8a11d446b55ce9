import Yeast.Proofs.Forest
import Yeast.Proofs.Markup

set_option autoImplicit false

/-! # Tags and elements of a page

The tags of a page form a bracket word (`tagsFrom`), in which each tag that begins a line carries
its column. The elements of one name form another (`elements`), of which `Bracket.forest` is the
tree that the page shows. An element carries its attributes and the text at its head as they are
written, with their character references. What stands between the tags are runs of characters and
empty elements (`runs`).
-/

namespace Yeast

namespace Markup

/-! ## Tags -/

/-- A tag, with the number of blanks before it on its line where nothing else stands there. -/
structure Tag where
  name : Text
  attributes : List Attribute
  column : Option Nat
  deriving DecidableEq

/-- The column behind a character: what has been read of the line, as long as it is blank. -/
def columnAfter (column : Option Nat) (c : Char) : Option Nat :=
  if c = '\n' then some 0 else if c = ' ' then column.map (· + 1) else none

/-- The tags, where the first token stands in the given column. -/
def tagsFrom : Option Nat → List Token → List (Bracket Tag Tag)
  | _, [] => []
  | column, .start name attributes :: rest =>
    .opening ⟨name, attributes, column⟩ :: tagsFrom none rest
  | column, .stop name :: rest => .closing ⟨name, [], column⟩ :: tagsFrom none rest
  | column, .void name attributes :: rest =>
    .single ⟨name, attributes, column⟩ :: tagsFrom none rest
  | column, .char c :: rest => tagsFrom (columnAfter column c) rest

def tags (tokens : List Token) : List (Bracket Tag Tag) := tagsFrom (some 0) tokens

/-- The first of several style classes is `word`. -/
def leadsWith (word : Text) (attributes : List Attribute) : Bool :=
  (attributes.find? fun a => a.name = "class".toList).any fun a =>
    (word ++ [' ']).isPrefixOf a.value

@[simp]
theorem tagsFrom_start (column : Option Nat) (name : Text) (attributes : List Attribute)
    (rest : List Token) : tagsFrom column (.start name attributes :: rest) =
      .opening ⟨name, attributes, column⟩ :: tagsFrom none rest := rfl

@[simp]
theorem tagsFrom_stop (column : Option Nat) (name : Text) (rest : List Token) :
    tagsFrom column (.stop name :: rest) = .closing ⟨name, [], column⟩ :: tagsFrom none rest :=
  rfl

@[simp]
theorem tagsFrom_void (column : Option Nat) (name : Text) (attributes : List Attribute)
    (rest : List Token) : tagsFrom column (.void name attributes :: rest) =
      .single ⟨name, attributes, column⟩ :: tagsFrom none rest := rfl

@[simp]
theorem tagsFrom_lineFeed (column : Option Nat) (rest : List Token) :
    tagsFrom column (.char '\n' :: rest) = tagsFrom (some 0) rest := rfl

@[simp]
theorem tagsFrom_chars (column : Option Nat) (content : Text) (rest : List Token) :
    tagsFrom column (content.map .char ++ rest) =
      tagsFrom (content.foldl columnAfter column) rest := by
  induction content generalizing column with
  | nil => rfl
  | cons c content ih => exact ih (columnAfter column c)

theorem foldl_columnAfter_blanks (column n : Nat) :
    (List.replicate n ' ').foldl columnAfter (some column) = some (column + n) := by
  induction n generalizing column with
  | zero => rfl
  | succ n ih =>
      rw [List.replicate_succ, List.foldl_cons]
      show List.foldl columnAfter (some (column + 1)) _ = _
      rw [ih]
      congr 1
      omega

/-! ## Elements -/

/-- What is written of an element: its attributes and the text at its head. -/
structure Element where
  attributes : List Attribute
  head : Text
  deriving DecidableEq

/-- What an attribute says, if the element has it. -/
def Element.value? (x : Element) (name : Text) : Option Text :=
  (x.attributes.find? fun a => a.name = name).map fun a => unescaped a.value

/-- What is read where the attributes and the head are written. -/
def Element.written (attributes : List Attribute) (head : Text) : Element :=
  ⟨attributes.map Attribute.written, escaped head⟩

@[simp]
theorem Element.unescaped_head_written (attributes : List Attribute) (head : Text) :
    unescaped (Element.written attributes head).head = head := unescaped_escaped head

@[simp]
theorem Element.value?_written (attributes : List Attribute) (head name : Text) :
    (Element.written attributes head).value? name =
      (attributes.find? fun a => a.name = name).map Attribute.value := by
  rw [Element.value?, Element.written, List.find?_map, Option.map_map]
  congr 1
  funext a
  exact unescaped_escaped a.value

def leadingText : List Token → Text
  | .char c :: rest => c :: leadingText rest
  | _ => []

/-- The characters at the head of the element that begins here. -/
def leadingTextWithin : List Token → Text
  | .start _ _ :: rest => leadingText rest
  | _ => []

/-- The elements of the given name, where `head` reads the head of an element behind its start
tag. -/
def elements (name : Text) (head : List Token → Text) : List Token → List (Bracket Element Unit)
  | [] => []
  | .start name' attributes :: rest =>
    if name' = name then .opening ⟨attributes, head rest⟩ :: elements name head rest
    else elements name head rest
  | .stop name' :: rest =>
    if name' = name then .closing () :: elements name head rest else elements name head rest
  | .void _ _ :: rest => elements name head rest
  | .char _ :: rest => elements name head rest

@[simp]
theorem leadingText_chars (content : Text) (rest : List Token) :
    leadingText (content.map .char ++ rest) = content ++ leadingText rest := by
  induction content with
  | nil => rfl
  | cons c content ih => simp [leadingText, ih]

@[simp]
theorem leadingText_stop (name : Text) (rest : List Token) :
    leadingText (.stop name :: rest) = [] := rfl

theorem elements_start (name : Text) (head : List Token → Text) (attributes : List Attribute)
    (rest : List Token) : elements name head (.start name attributes :: rest) =
      .opening ⟨attributes, head rest⟩ :: elements name head rest := by
  rw [elements, if_pos rfl]

theorem elements_start_of_ne {name name' : Text} (h : name' ≠ name) (head : List Token → Text)
    (attributes : List Attribute) (rest : List Token) :
    elements name head (.start name' attributes :: rest) = elements name head rest := by
  rw [elements, if_neg h]

theorem elements_stop (name : Text) (head : List Token → Text) (rest : List Token) :
    elements name head (.stop name :: rest) = .closing () :: elements name head rest := by
  rw [elements, if_pos rfl]

theorem elements_stop_of_ne {name name' : Text} (h : name' ≠ name) (head : List Token → Text)
    (rest : List Token) : elements name head (.stop name' :: rest) = elements name head rest := by
  rw [elements, if_neg h]

@[simp]
theorem elements_char (name : Text) (head : List Token → Text) (c : Char) (rest : List Token) :
    elements name head (.char c :: rest) = elements name head rest := rfl

@[simp]
theorem elements_chars (name : Text) (head : List Token → Text) (content : Text)
    (rest : List Token) :
    elements name head (content.map .char ++ rest) = elements name head rest := by
  induction content with
  | nil => rfl
  | cons c content ih => exact ih

/-! ## Runs -/

/-- The characters and empty elements before the first tag. -/
def run : List Token → List Token
  | .char c :: rest => .char c :: run rest
  | .void name attributes :: rest => .void name attributes :: run rest
  | _ => []

/-- The run behind each tag, and whether the tag starts an element whose classes `word` leads. -/
def runsBehind (word : Text) : List Token → List (Bool × List Token)
  | [] => []
  | .start _ attributes :: rest => (leadsWith word attributes, run rest) :: runsBehind word rest
  | .stop _ :: rest => (false, run rest) :: runsBehind word rest
  | .void _ _ :: rest => runsBehind word rest
  | .char _ :: rest => runsBehind word rest

/-- All runs in order; the first one stands behind no tag. -/
def runs (word : Text) (tokens : List Token) : List (Bool × List Token) :=
  (false, run tokens) :: runsBehind word tokens

/-- The runs that stand in elements whose classes `word` leads. -/
def contents (word : Text) (tokens : List Token) : List (List Token) :=
  ((runs word tokens).filter fun r => r.1).map Prod.snd

/-- The runs that do not. -/
def gaps (word : Text) (tokens : List Token) : List (List Token) :=
  ((runs word tokens).filter fun r => !r.1).map Prod.snd

@[simp]
theorem run_stop (name : Text) (rest : List Token) : run (.stop name :: rest) = [] := rfl

@[simp]
theorem run_chars (content : Text) (rest : List Token) :
    run (content.map .char ++ rest) = content.map .char ++ run rest := by
  induction content with
  | nil => rfl
  | cons c content ih => exact congrArg (Token.char c :: ·) ih

@[simp]
theorem runsBehind_chars (word : Text) (content : Text) (rest : List Token) :
    runsBehind word (content.map .char ++ rest) = runsBehind word rest := by
  induction content with
  | nil => rfl
  | cons c content ih => exact ih

end Markup

end Yeast
