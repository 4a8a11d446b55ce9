import Yeast.Encoding.Utf8
import Yeast.Files.Fault
import Yeast.Files.Path

set_option autoImplicit false

/-! # Trees of files

A tree maps locations, which are lists of names from the root, to files and directories; the
root itself is a directory. Paths are followed name by name from the root, which is also the
working directory and its own parent, and only directories can be passed through.
-/

namespace Yeast

/-- What stands at a location. -/
inductive FileNode where
  | file (content : Bytes)
  | directory
  deriving DecidableEq

/-- The names that lead from the root to a file or directory. -/
abbrev Location := List Text

/-- The files and directories below a root. -/
structure FileTree where
  nodes : List (Location × FileNode) := []

namespace FileTree

def find? (tree : FileTree) (location : Location) : Option FileNode :=
  if location = [] then some .directory
  else (tree.nodes.find? fun entry => entry.1 = location).map (·.2)

def insert (tree : FileTree) (location : Location) (node : FileNode) : FileTree :=
  { nodes := (location, node) :: tree.nodes.filter fun entry => entry.1 ≠ location }

/-- What is put at a location stands there, and nothing else changes. -/
theorem find?_insert (tree : FileTree) {location : Location} (node : FileNode)
    (h : location ≠ []) (other : Location) :
    (tree.insert location node).find? other =
      if other = location then some node else tree.find? other := by
  by_cases same : other = location
  · subst same
    simp [find?, insert, h]
  · by_cases root : other = []
    · simp [find?, root, Ne.symm h]
    · simp only [find?, insert, root, same, if_false, List.find?_cons, List.find?_filter,
        Ne.symm same, decide_false]
      congr 2
      funext entry
      by_cases found : entry.1 = other
      · simp [found, same]
      · simp [found]

/-- The tree with a directory at a location and all that lead to it. -/
def withDirectories (tree : FileTree) (location : Location) : FileTree :=
  (List.range location.length).foldl
    (fun tree n => tree.insert (location.take (n + 1)) .directory) tree

/-- The longest name of a file, in bytes. -/
def nameLimit : Nat := 255

/-- The length, in bytes, from which on a path is refused. -/
def pathLimit : Nat := 4096

/-- One step on the way: from a location to the one that a name leads to. -/
def enter (tree : FileTree) (location : Location) (name : Text) : Except FileFault Location :=
  if tree.find? location ≠ some .directory then .error .notDirectory
  -- two dots lead from the root to the root
  else if name = ['.', '.'] then .ok location.dropLast
  else if (Utf8.encode name).length > nameLimit then .error .nameTooLong
  else .ok (location ++ [name])

/-- The location that the names lead to, all of which but the last have to exist. -/
def follow (tree : FileTree) : Location → List Text → Except FileFault Location
  | location, [] => .ok location
  | location, name :: names =>
    match tree.enter location name with
    | .error fault => .error fault
    | .ok reached =>
      if names.isEmpty then .ok reached
      else if (tree.find? reached).isNone then .error .noEntry
      else tree.follow reached names

def locate (tree : FileTree) (p : Path) : Except FileFault Location :=
  if p.text.contains '\x00' then .error .nullCharacter
  else if (Utf8.encode p.text).length ≥ pathLimit then .error .nameTooLong
  else tree.follow [] p.names

/-- The path ends in a name, and not in a root or in two dots. -/
def endsInName (p : Path) : Bool :=
  match p.names.getLast? with
  | some name => name != ['.', '.']
  | none => false

def read (tree : FileTree) (p : Path) : Except FileFault Bytes :=
  match tree.locate p with
  | .error fault => .error fault
  | .ok location =>
    match tree.find? location with
    | some (.file content) => .ok content
    | some .directory => .error .isDirectory
    | none => .error .noEntry

def isDirectory (tree : FileTree) (p : Path) : Bool :=
  match tree.locate p with
  | .ok location => tree.find? location = some .directory
  | .error _ => false

def makeDirectory (tree : FileTree) (p : Path) : Except FileFault FileTree :=
  match tree.locate p with
  | .error fault => .error fault
  | .ok location =>
    if !endsInName p || (tree.find? location).isSome then .error .occupied
    else .ok (tree.insert location .directory)

/-- The tree with the content of a file replaced, or with a new file. -/
def write (tree : FileTree) (p : Path) (content : Bytes) : Except FileFault FileTree :=
  match tree.locate p with
  | .error fault => .error fault
  | .ok location =>
    if !endsInName p || tree.find? location = some .directory then .error .isDirectory
    else .ok (tree.insert location (.file content))

end FileTree

end Yeast
