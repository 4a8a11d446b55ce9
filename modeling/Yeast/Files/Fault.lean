import Yeast.Text.Basic

set_option autoImplicit false

/-! # Why files are refused

The reasons for which a system refuses to open a file or to make a directory, with their usual
wording.
-/

namespace Yeast

/-- Why a file or directory is refused. -/
inductive FileFault where
  /-- A name on the way, or the file itself, does not exist. -/
  | noEntry
  /-- The path names a directory. -/
  | isDirectory
  /-- A name on the way is not that of a directory. -/
  | notDirectory
  /-- There is something of this name already. -/
  | occupied
  /-- A name or the whole path is too long. -/
  | nameTooLong
  /-- The path holds the character U+0000 and cannot be passed to the system. -/
  | nullCharacter
  /-- Any other reason, in the system's wording. -/
  | other (details : Text)
  deriving DecidableEq

namespace FileFault

def message : FileFault → Text
  | noEntry => "No such file or directory".toList
  | isDirectory => "Is a directory".toList
  | notDirectory => "Not a directory".toList
  | occupied => "File exists".toList
  | nameTooLong => "File name too long".toList
  | nullCharacter => "embedded null byte".toList
  | other details => details

end FileFault

end Yeast
