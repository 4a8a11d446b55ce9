import Yeast.Command.Options
import Yeast.Files.Fault
import Yeast.Files.Path
import Yeast.Json.Basic
import Yeast.Model.Fault

set_option autoImplicit false

/-! # How a run fails

Faults of options, streams and files are reported to the user in one line. A few others are not
expected of any user, and escape: a path that cannot be passed to the system, an option whose
value was dropped and is needed, and what no stream can cause.
-/

namespace Yeast

namespace Command

/-- What the value of an option is needed for. -/
inductive ValueUse where
  /-- The directory of the output. -/
  | outputDirectory
  /-- The address of a stylesheet. -/
  | styleAddress
  /-- The content of a stylesheet. -/
  | styleContent
  /-- The title of a pane. -/
  | title
  deriving DecidableEq

def ValueUse.name : ValueUse → Text
  | outputDirectory => "parent".toList
  | styleAddress => "as_posix".toList
  | styleContent => "read_bytes".toList
  | title => "replace".toList

/-- Why a run ends without its output. -/
inductive Failure where
  | options (fault : OptionFault)
  | stream (fault : StreamFault)
  /-- A file cannot be read. -/
  | unreadable (p : Path) (fault : FileFault)
  /-- A file cannot be written. -/
  | unwritable (p : Path) (fault : FileFault)
  /-- An option was left without its value. -/
  | blank (use : ValueUse)
  | json (fault : Json.Fault)

/-- The wording of a file's fault, after what was tried. Of a path that cannot be passed to the
system only this is said. -/
def fileMessage (attempt : Text) (p : Path) (fault : FileFault) : Text :=
  if fault = .nullCharacter then fault.message
  else attempt ++ p.text ++ ": ".toList ++ fault.message

namespace Failure

def message : Failure → Text
  | options fault => fault.message
  | stream fault => fault.message
  | unreadable p fault => fileMessage "cannot read ".toList p fault
  | unwritable p fault => fileMessage "cannot write ".toList p fault
  | blank use => "'list' object has no attribute '".toList ++ use.name ++ ['\'']
  | json fault => fault.message

def isReported : Failure → Bool
  | options _ => true
  | stream (.contentExhausted) => false
  | stream (.entry _) => false
  | stream _ => true
  | unreadable _ fault => fault ≠ .nullCharacter
  | unwritable _ fault => fault ≠ .nullCharacter
  | blank _ => false
  | json _ => false

end Failure

end Command

end Yeast
