import Yeast.Command.Failure
import Yeast.Command.Request
import Yeast.Encoding.Detect
import Yeast.Files.Access
import Yeast.Log
import Yeast.Model.Builder
import Yeast.Model.Json

set_option autoImplicit false

/-! # The steps of a run

Reading a stream, resolving a stylesheet, making the document and writing it, each on any host.
Nothing is written before the whole document is made, so a run that fails leaves the output as
it was.
-/

namespace Yeast

namespace Command

/-- Work on a host, which may fail. -/
abbrev Work (m : Type → Type) := ExceptT Failure m

/-- Which stylesheet a page is to have. -/
inductive StyleChoice where
  | builtin
  | linked (given : Given Path)
  | embedded (given : Given Path)

/-- The choice that a stylesheet and the wish to link it amount to. -/
def StyleChoice.ofOptions (stylesheet : Option (Given Path)) (link : Bool) :
    Except OptionFault StyleChoice :=
  match stylesheet, link with
  | none, false => .ok .builtin
  | none, true => .error .nothingToLink
  | some given, true => .ok (.linked given)
  | some given, false => .ok (.embedded given)

variable {m : Type → Type} [Monad m] [Host m]

/-- Shows a log record, if its level reaches the threshold. -/
def log (threshold : LogLevel) (r : LogRecord) : Work m Unit :=
  if threshold.weight ≤ r.level.weight then do
    let time ← (Host.timeOfDay : m Text)
    (Host.report (r.row time ++ ['\n']) : m Unit)
  else pure ()

def readText (p : Path) : Work m Text := do
  match ← (Host.readFile p : m _) with
  | .ok bytes => return Text.ofBytes bytes
  | .error fault => throw (.unreadable p fault)

/-- The text of a file or of the standard input. -/
def readSource (source : Option Path) : Work m Text :=
  match source with
  | some p => readText p
  | none => do
    let bytes ← (Host.readInput : m Bytes)
    return Text.ofBytes bytes

def readLines (source : Option Path) : Work m (List Text) := do
  let text ← readSource source
  return text.withoutByteOrderMark.records

def writeDocument (text : Text) (target : Option (Given Path)) : Work m Unit :=
  match target with
  | none => (Host.print text : m Unit)
  | some .blank => throw (.blank .outputDirectory)
  | some (.value p) => do
    match ← (Host.writeFileAndParents p (Utf8.encode text) : m _) with
    | .ok () => return ()
    | .error fault => throw (.unwritable p fault)

def embeddingRecord (shown : Text) : LogRecord :=
  { level := .debug, message := "embedding stylesheet ".toList ++ shown }

/-- The stylesheet of the given choice. -/
def resolveStyle (threshold : LogLevel) (choice : StyleChoice) : Work m Stylesheet := do
  match choice with
  | .builtin => return .builtin
  | .linked .blank => throw (.blank .styleAddress)
  | .linked (.value p) => return .linked p.text
  | .embedded .blank =>
    -- the row is logged before the value turns out to be no path
    log threshold (embeddingRecord "[]".toList)
    throw (.blank .styleContent)
  | .embedded (.value p) =>
    log threshold (embeddingRecord p.text)
    return .embedded (← readText p)

/-- The titles of the panes, both of which a page needs. -/
def paneTitles (outline source : Given Text) : Except Failure PaneTitles :=
  match outline, source with
  | .value outline, .value source => .ok { outline, source }
  | _, _ => .error (.blank .title)

def ofExcept {ε α : Type} (failure : ε → Failure) : Except ε α → Work m α
  | .ok a => return a
  | .error fault => throw (failure fault)

end Command

end Yeast
