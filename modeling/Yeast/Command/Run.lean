import Yeast.Command.Manual
import Yeast.Command.Work

set_option autoImplicit false

/-! # Running the command

A run reads its command line first; help and the manual are printed without a look at anything
else. Otherwise the options are checked, the stream is read, the document is made and then
written. A run that fails reports one line and ends with status 1.
-/

namespace Yeast

namespace Command

/-- How a run ends. -/
inductive Ending where
  /-- With a status for the caller. -/
  | exit (status : Nat)
  /-- With a failure that is not reported. -/
  | escaped (failure : Failure)

variable {m : Type → Type} [Monad m] [Host m]

/-- A stream or output is shown by its path or by its usual name. -/
def shownPath (path : Option Path) (usual : Text) : Text :=
  match path with
  | some p => p.text
  | none => usual

def linesRecord (lines : List Text) (source : Option Path) : LogRecord :=
  { level := .info
    message := "read ".toList ++ Text.ofNat lines.length ++ " lines from ".toList ++
      shownPath source "<stdin>".toList }

def modelRecord (model : Model) : LogRecord :=
  { level := .info
    message := "parsed ".toList ++ Text.ofNat model.entries.length ++ " entries (".toList ++
      Text.ofNat model.openScopes.length ++ " scope(s) left open)".toList }

def documentRecord (target : Option (Given Path)) : LogRecord :=
  { level := .info
    message := "wrote ".toList ++
      match target with
      | some (.value p) => p.text
      | _ => "<stdout>".toList }

/-- The document in the requested format. A page's style is resolved before its titles are
looked at. -/
def document (threshold : LogLevel) (r : Request) (choice : StyleChoice) (model : Model) :
    Work m Text := do
  match r.format with
  | .json => ofExcept .json (model.dump .indented)
  | .html =>
    let style ← resolveStyle threshold choice
    let titles ← ofExcept id (paneTitles r.outlineTitle r.sourceTitle)
    return Page.render titles style model

/-- The work of a request that asks for a document. -/
def perform (threshold : LogLevel) (r : Request) : Work m Unit := do
  if 1 < r.inputs.length then throw (.options (.tooManyInputs r.inputs.length))
  let choice ← ofExcept .options (StyleChoice.ofOptions r.stylesheet r.link)
  let source := r.inputs.head?
  let lines ← readLines source
  log threshold (linesRecord lines source)
  let model ← ofExcept .stream (Model.ofLines lines)
  model.readingLog.forM (log threshold)
  log threshold (modelRecord model)
  let text ← document threshold r choice model
  writeDocument text r.output
  log threshold (documentRecord r.output)

/-- The end of a run that has failed. -/
def conclude (failure : Failure) : m Ending := do
  if failure.isReported then
    Host.report ("Error: ".toList ++ failure.message ++ ['\n'])
    return .exit 1
  else return .escaped failure

/-- The least level that is shown. -/
def Request.threshold (r : Request) : LogLevel := if r.verbose then .debug else .warning

def run (arguments : List Text) : m Ending := do
  match Request.ofArguments arguments with
  | .error .help =>
    Host.print help
    return .exit 0
  | .error (.fault fault) => conclude (.options fault)
  | .ok r =>
    if r.manual then
      Host.print manual
      return .exit 0
    else
      match ← (perform r.threshold r).run with
      | .ok () => return .exit 0
      | .error failure => conclude failure

end Command

end Yeast
