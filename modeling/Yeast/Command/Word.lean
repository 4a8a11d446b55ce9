import Yeast.Command.Options
import Yeast.Text.Digit

set_option autoImplicit false

/-! # The words of a command line

Before anything is done, each argument is classified by itself. Behind the first `--` all are
plain. An argument is plain, too, if it does not begin with a hyphen or is nothing else. Other
arguments name an option: in full, in full with a value behind `=`, by the beginning of a long
name, or by a short name with something attached. What names no option is plain if it is a
negative number or holds a space, and an unknown option otherwise.
-/

namespace Yeast

namespace Command

/-- Which name of an option an argument uses. Only a short one can have other short ones
attached. -/
inductive NameForm where
  | short
  | long
  deriving DecidableEq

/-- What an argument is. -/
inductive Word where
  /-- An input, or the value of the option before it. -/
  | plain (text : Text)
  /-- The first `--`. -/
  | terminator
  /-- An option by one of its names, with what is attached to the name. -/
  | option (form : NameForm) (spec : OptionSpec) (attached : Option Text)
  /-- An option that does not exist. -/
  | unknown (text : Text)

def splitAtEquals (text : Text) : Text × Option Text :=
  match text.dropWhile (· != '=') with
  | [] => (text, none)
  | _ :: value => (text.takeWhile (· != '='), some value)

def optionsWithPrefix (text : Text) : List OptionSpec :=
  options.filter fun spec => text.isPrefixOf spec.long

/-- All characters are digits, and there is at least one. -/
def isNumeral (text : Text) : Bool := !text.isEmpty && text.all isDecimalDigit

def withoutFinalLineFeed (text : Text) : Text :=
  if text.getLast? = some '\n' then text.dropLast else text

/-- A hyphen and a numeral, which may have a decimal point; one line feed may follow. -/
def isNegativeNumber : Text → Bool
  | '-' :: rest =>
    let number := withoutFinalLineFeed rest
    isNumeral number ||
      match number.dropWhile isDecimalDigit with
      | '.' :: fraction => isNumeral fraction
      | _ => false
  | _ => false

def wordWithoutOption (argument : Text) : Word :=
  if isNegativeNumber argument || argument.contains ' ' then .plain argument
  else .unknown argument

def longWord (argument : Text) : Except OptionFault Word :=
  match longOption? argument with
  | some spec => .ok (.option .long spec none)
  | none =>
    let (name, value) := splitAtEquals argument
    match longOption? name with
    | some spec => .ok (.option .long spec value)
    | none =>
      match optionsWithPrefix name with
      | [] => .ok (wordWithoutOption argument)
      | [spec] => .ok (.option .long spec value)
      | candidates => .error (.ambiguous argument candidates)

/-- The word of an argument that begins with one hyphen, which stands before the given
character. -/
def shortWord (c : Char) (attached : Text) : Word :=
  match shortOption? c with
  | none => wordWithoutOption ('-' :: c :: attached)
  | some spec =>
    match attached with
    | [] => .option .short spec none
    | '=' :: value => .option .short spec (some value)
    | _ => .option .short spec (some attached)

/-- The word of an argument before the terminator. -/
def word (argument : Text) : Except OptionFault Word :=
  match argument with
  | '-' :: '-' :: _ => longWord argument
  | '-' :: c :: attached => .ok (shortWord c attached)
  | _ => .ok (.plain argument)

def words : List Text → Except OptionFault (List Word)
  | [] => .ok []
  | argument :: arguments =>
    if argument = ['-', '-'] then .ok (.terminator :: arguments.map .plain)
    else
      match word argument with
      | .error fault => .error fault
      | .ok w =>
        match words arguments with
        | .error fault => .error fault
        | .ok ws => .ok (w :: ws)

end Command

end Yeast
