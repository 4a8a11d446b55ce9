import Yeast.Text.Quoted

set_option autoImplicit false

/-! # The options of the command

An option is a flag or takes a value. It has a long name, and some have a short name of one
character. Diagnostics name an option by all its names.
-/

namespace Yeast

namespace Command

/-- An option that is given or not. -/
inductive Flag where
  | help
  | link
  | verbose
  | manual
  deriving DecidableEq

/-- An option with a value. -/
inductive Parameter where
  | output
  | stylesheet
  | outlineTitle
  | sourceTitle
  | format
  deriving DecidableEq

/-- What an option is for. -/
inductive Purpose where
  | flag (flag : Flag)
  | parameter (parameter : Parameter)
  deriving DecidableEq

/-- The names of an option and its purpose. -/
structure OptionSpec where
  short : Option Char
  long : Text
  purpose : Purpose
  deriving DecidableEq

namespace OptionSpec

/-- The option under each of its names. -/
def names (spec : OptionSpec) : List Text :=
  match spec.short with
  | some c => [['-', c], spec.long]
  | none => [spec.long]

def displayName (spec : OptionSpec) : Text := Text.joined ['/'] spec.names

end OptionSpec

/-- Every option, in the order in which help lists them. -/
def options : List OptionSpec :=
  [ ⟨some 'h', "--help".toList, .flag .help⟩,
    ⟨some 'o', "--output".toList, .parameter .output⟩,
    ⟨some 's', "--stylesheet".toList, .parameter .stylesheet⟩,
    ⟨some 'l', "--link-stylesheet".toList, .flag .link⟩,
    ⟨none, "--tree-title".toList, .parameter .outlineTitle⟩,
    ⟨none, "--text-title".toList, .parameter .sourceTitle⟩,
    ⟨none, "--format".toList, .parameter .format⟩,
    ⟨some 'v', "--verbose".toList, .flag .verbose⟩,
    ⟨none, "--man".toList, .flag .manual⟩ ]

def shortOption? (c : Char) : Option OptionSpec := options.find? fun spec => spec.short = some c

def longOption? (name : Text) : Option OptionSpec := options.find? fun spec => spec.long = name

inductive Format where
  | html
  | json
  deriving DecidableEq

namespace Format

def name : Format → Text
  | html => "html".toList
  | json => "json".toList

def all : List Format := [html, json]

def ofName? (word : Text) : Option Format := all.find? fun format => format.name == word

end Format

/-- Why a command line is refused. -/
inductive OptionFault where
  /-- The argument abbreviates several options. -/
  | ambiguous (argument : Text) (candidates : List OptionSpec)
  /-- A value is attached to an option that takes none. -/
  | unusedValue (spec : OptionSpec) (value : Text)
  /-- The value of an option is missing. -/
  | missingValue (spec : OptionSpec)
  /-- There is no such format. -/
  | unknownFormat (spec : OptionSpec) (word : Text)
  /-- Nothing takes these arguments. -/
  | unrecognized (arguments : List Text)
  /-- There is more than one input. -/
  | tooManyInputs (count : Nat)
  /-- There is no stylesheet to link to. -/
  | nothingToLink

namespace OptionFault

/-- A reason with the option it belongs to. -/
def atOption (spec : OptionSpec) (reason : Text) : Text :=
  "argument ".toList ++ spec.displayName ++ ": ".toList ++ reason

def message : OptionFault → Text
  | ambiguous argument candidates =>
    "ambiguous option: ".toList ++ argument ++ " could match ".toList ++
      Text.joined ", ".toList (candidates.map (·.long))
  | unusedValue spec value =>
    atOption spec ("ignored explicit argument ".toList ++ value.quoted)
  | missingValue spec => atOption spec "expected one argument".toList
  | unknownFormat spec word =>
    atOption spec ("invalid choice: ".toList ++ word.quoted ++ " (choose from ".toList ++
      Text.joined ", ".toList (Format.all.map fun format => format.name.quoted) ++ [')'])
  | unrecognized arguments =>
    "unrecognized arguments: ".toList ++ Text.joined [' '] arguments
  | tooManyInputs count =>
    "expected at most one input file, got ".toList ++ Text.ofNat count
  | nothingToLink => "linking a stylesheet requires a stylesheet path".toList

end OptionFault

end Command

end Yeast
