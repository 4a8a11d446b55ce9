import Yeast.Model.Basic
import Yeast.Model.Fault
import Yeast.Text.Record

set_option autoImplicit false

/-! # Building a model

A model is built record by record. The state holds the open scopes and, beside them, whether
each has seen content since it was opened: a text that is not empty, or a scope that closed.
Content of a scope is content of every scope around it, so all of them are marked at once. A
scope that closes without content first gets an entry that says so, and thus no scope is shown
empty.

A record that is refused may have changed the state before its fault was found, and these
changes stay. Reading a whole stream stops at the first fault.
-/

namespace Yeast

/-- The state between two records; scopes and their marks are listed innermost first. -/
structure Builder where
  nesting : List OpenScope := []
  content : List Bool := []
  entries : Array Entry := #[]
  nextId : Int := 1

/-- A step of building, which may fail and keeps the state it has reached. -/
abbrev Building := EStateM StreamFault Builder

/-- The text after a code as an entry shows it. The code of a byte order mark is the first
letter of the encoding's name, and nothing in the name stands for anything else. -/
def Descriptor.shownText (d : Descriptor) (rest : Text) : Text :=
  if d.kind = .byteOrderMark then d.code :: rest else rest.withPlaceholders

namespace Builder

/-- Adds an entry that is valid. -/
def push (e : Entry) : Building Unit :=
  match e.check with
  | .ok e => modify fun b => { b with entries := b.entries.push e }
  | .error fault => throw (.entry fault)

/-- Adds an entry under the next correlation id. -/
def append (d : Descriptor) (text : Text) (line : Int) (synthetic : Bool) : Building Unit := do
  let b ← get
  push { descriptor := d, text, id := some b.nextId, line, synthetic }
  modify fun b => { b with nextId := b.nextId + 1 }

/-- Every open scope has content now. -/
def markContent : Building Unit :=
  modify fun b => { b with content := b.content.map fun _ => true }

/-- Adds a text and counts it as content if it is not empty. -/
def appendText (d : Descriptor) (text : Text) (line : Int) : Building Unit := do
  append d text line false
  unless text.isEmpty do markContent

/-- The text that shares a record with an opening or closing code is an entry of its own. -/
def appendSharedText (text : Text) (line : Int) : Building Unit :=
  unless text.isEmpty do appendText CodeTable.text text line

def openScope (d : Descriptor) (line : Int) : Building Unit := do
  modify fun b => { b with nesting := ⟨line, d⟩ :: b.nesting, content := false :: b.content }
  append d [] line false

/-- Forgets the innermost mark and tells what it was. -/
def popContent : Building Bool := do
  let b ← get
  match b.content with
  | [] => throw .contentExhausted
  | mark :: content => do
    set { b with content }
    return mark

/-- Closes the innermost scope, which must have the title of the closing code. -/
def closeScope (d : Descriptor) (line : Int) : Building Unit := do
  let b ← get
  match b.nesting with
  | [] => throw (.unopened line d)
  | innermost :: nesting => do
    unless ← popContent do append CodeTable.empty [Placeholder.empty] line true
    markContent
    modify fun b => { b with nesting }
    -- the titles are compared last, so a mismatch finds the marker written
    if innermost.descriptor.title = d.title then
      push { descriptor := d, text := [], id := none, line }
    else
      throw (.mismatch
        { line
          code := [d.code]
          title := d.title
          openLine := innermost.line
          openCode := [innermost.descriptor.code]
          openTitle := innermost.descriptor.title })

/-- Reads a record whose code has the given meaning. -/
def feedToken (d : Descriptor) (text : Text) (line : Int) : Building Unit :=
  match d.kind with
  | .opening => do
    openScope d line
    appendSharedText text line
  | .closing => do
    appendSharedText text line
    closeScope d line
  | _ => appendText d text line

def feed (line : Text) (number : Int) : Building Unit :=
  match line.withoutTerminator with
  | [] => throw (.emptyRecord number)
  | code :: rest =>
    if code = CodeTable.comment then pure ()
    else
      match CodeTable.lookup [code] number with
      | .ok d => feedToken d (d.shownText rest) number
      | .error fault => throw fault

/-- Reads the lines in order, the first of them under the given number. -/
def feedAll : List Text → Int → Building Unit
  | [], _ => pure ()
  | line :: lines, number => do
    feed line number
    feedAll lines (number + 1)

/-- Lines behind others are read from the state that those have led to. -/
theorem feedAll_append (lines more : List Text) (number : Int) (b : Builder) :
    (feedAll (lines ++ more) number).run b =
      match (feedAll lines number).run b with
      | .ok _ b => (feedAll more (number + lines.length)).run b
      | .error fault b => .error fault b := by
  induction lines generalizing number b with
  | nil => simp [feedAll]
  | cons line lines ih =>
    simp only [List.cons_append, feedAll, EStateM.run_bind]
    cases (feed line number).run b with
    | ok _ b =>
      have next : number + 1 + lines.length = number + (lines.length + 1 : Nat) := by omega
      simp only [ih, List.length_cons, next]
    | error fault b => rfl

def finish (b : Builder) : Model :=
  { entries := b.entries.toList, openScopes := b.nesting.reverse }

end Builder

namespace Model

def ofLines (lines : List Text) : Except StreamFault Model :=
  match (Builder.feedAll lines 1).run {} with
  | .ok _ b => .ok b.finish
  | .error fault _ => .error fault

def ofText (text : Text) : Except StreamFault Model := ofLines text.records

/-- What is logged when a stream has been read. -/
def readingLog (m : Model) : List LogRecord :=
  m.warnings ++
    [{ level := .debug,
       message := "parsed ".toList ++ Text.ofNat m.entries.length ++ " entries".toList }]

end Model

end Yeast
