import Yeast.Files.Tree

set_option autoImplicit false

/-! # Hosts and machines

What the program asks of the system it runs on: files, a standard input, two output streams and
the time of day. A machine is a system that is a value: running on it takes one machine to the
next, and its files, its output and its input can be looked at afterwards.
-/

namespace Yeast

/-- A monad that offers what the program needs of a system. -/
class Host (m : Type → Type) where
  /-- The content of a file. -/
  readFile : Path → m (Except FileFault Bytes)
  /-- The path names a directory. -/
  isDirectory : Path → m Bool
  /-- Makes one directory, which must be new. -/
  makeDirectory : Path → m (Except FileFault Unit)
  /-- Replaces the content of a file, or makes a new one. -/
  writeFile : Path → Bytes → m (Except FileFault Unit)
  /-- The whole standard input. -/
  readInput : m Bytes
  /-- Writes to the standard output. -/
  print : Text → m Unit
  /-- Writes to the stream for diagnostics. -/
  report : Text → m Unit
  /-- The time of day that log rows show. -/
  timeOfDay : m Text

/-- A system as a value. -/
structure Machine where
  files : FileTree := {}
  input : Bytes := []
  output : Text := []
  diagnostics : Text := []
  time : Text := "00:00:00".toList

namespace Machine

/-- The machine with other files, if there is no fault. -/
def updateFiles (machine : Machine) :
    Except FileFault FileTree → Except FileFault Unit × Machine
  | .ok files => (.ok (), { machine with files })
  | .error fault => (.error fault, machine)

end Machine

instance : Host (StateM Machine) where
  readFile p := fun machine => (machine.files.read p, machine)
  isDirectory p := fun machine => (machine.files.isDirectory p, machine)
  makeDirectory p := fun machine => machine.updateFiles (machine.files.makeDirectory p)
  writeFile p content := fun machine => machine.updateFiles (machine.files.write p content)
  readInput := fun machine => (machine.input, { machine with input := [] })
  print text := fun machine => ((), { machine with output := machine.output ++ text })
  report text := fun machine => ((), { machine with diagnostics := machine.diagnostics ++ text })
  timeOfDay := fun machine => (machine.time, machine)

end Yeast
