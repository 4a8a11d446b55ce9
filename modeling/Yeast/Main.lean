import Std.Time.Format
import Yeast.Command.Run

set_option autoImplicit false

/-! # The command line

The command on the system it is started on.
-/

namespace Yeast

/-- The system's wording of an error. -/
def systemDetails : IO.Error → String
  | .alreadyExists _ _ details => details
  | .otherError _ details => details
  | .resourceBusy _ details => details
  | .resourceVanished _ details => details
  | .unsupportedOperation _ details => details
  | .hardwareFault _ details => details
  | .unsatisfiedConstraints _ details => details
  | .illegalOperation _ details => details
  | .protocolError _ details => details
  | .timeExpired _ details => details
  | .interrupted _ _ details => details
  | .noFileOrDirectory _ _ details => details
  | .invalidArgument _ _ details => details
  | .permissionDenied _ _ details => details
  | .resourceExhausted _ _ details => details
  | .inappropriateType _ _ details => details
  | .noSuchThing _ _ details => details
  | .unexpectedEof => "end of file"
  | .userError details => details

/-- The reason that an error of the system stands for. -/
def FileFault.ofError (e : IO.Error) : FileFault :=
  match e with
  | .noFileOrDirectory .. => .noEntry
  | _ => .other (systemDetails e).toList

/-- What an action on a path of the system comes to. -/
def onPath {α : Type} (p : Path) (action : String → IO α) : IO (Except FileFault α) := do
  if p.text.contains '\x00' then return .error .nullCharacter
  try
    return .ok (← action (String.ofList p.text))
  catch e => return .error (.ofError e)

def bytesOf (content : ByteArray) : Bytes := content.toList

instance : Host IO where
  readFile p := onPath p fun name => bytesOf <$> IO.FS.readBinFile name
  isDirectory p := (System.mkFilePath [String.ofList p.text]).isDir
  makeDirectory p := onPath p fun name => IO.FS.createDir name
  writeFile p content := onPath p fun name => IO.FS.writeBinFile name ⟨content.toArray⟩
  readInput := do return bytesOf (← (← IO.getStdin).readBinToEnd)
  print text := do
    let output ← IO.getStdout
    output.putStr (String.ofList text)
    output.flush
  report text := do (← IO.getStderr).putStr (String.ofList text)
  timeOfDay := do return ((← Std.Time.PlainTime.now).format "HH:mm:ss").toList

end Yeast

open Yeast

/-- Runs the command and tells its status. -/
def main (arguments : List String) : IO UInt32 := do
  match ← Command.run (arguments.map String.toList) with
  | .exit status => return status.toUInt32
  | .escaped failure => do
    Host.report (failure.message ++ ['\n'])
    return 1
