import Yeast.Files.Host

set_option autoImplicit false

/-! # Making directories on the way

A file is written after the directories that its path leads through have been made. A directory
is tried first and its parent only if something on the way is missing, so a path whose directory
exists costs one call, and a refusal tells how far the way can be gone.
-/

namespace Yeast

namespace Host

variable {m : Type → Type} [Monad m] [Host m]

/-- A directory that cannot be made is all right if it is there. -/
def acceptDirectory (p : Path) (fault : FileFault) : m (Except FileFault Unit) := do
  if ← isDirectory p then return .ok () else return .error fault

/-- Makes one directory, unless it is there. -/
def ensureDirectory (p : Path) : m (Except FileFault Unit) := do
  match ← makeDirectory p with
  | .ok () => return .ok ()
  | .error .noEntry => return .error .noEntry
  | .error fault => acceptDirectory p fault

/-- Makes a directory, whose names are given from the last to the first, and those on the way
to it, as far as they are not there. -/
def ensureDirectories (root : PathRoot) : List Text → m (Except FileFault Unit)
  | [] => ensureDirectory ⟨root, []⟩
  | name :: outer => do
    let p : Path := ⟨root, (name :: outer).reverse⟩
    match ← makeDirectory p with
    | .ok () => return .ok ()
    | .error .noEntry =>
      match ← ensureDirectories root outer with
      | .ok () => ensureDirectory p
      | .error fault => return .error fault
    | .error fault => acceptDirectory p fault

/-- Writes a file, after the directories on the way to it have been made. -/
def writeFileAndParents (p : Path) (content : Bytes) : m (Except FileFault Unit) := do
  match ← ensureDirectories p.root p.parent.names.reverse with
  | .ok () => writeFile p content
  | .error fault => return .error fault

end Host

end Yeast
