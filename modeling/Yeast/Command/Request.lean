import Yeast.Command.Word
import Yeast.Page.Basic

set_option autoImplicit false

/-! # Reading the command line

The words are taken from left to right. Options act when they are reached, and the last value
given for an option counts. Short flags may be attached to each other, and a value to the last
of them; the whole cluster is understood before any part of it acts. The first run of plain
words gives the inputs; later plain words and unknown options are left over, which is a fault of
its own, reported only if there is no other.

A value that is attached and is nothing but two hyphens is dropped, and leaves the option
without a value.
-/

namespace Yeast

namespace Command

/-- What an option with a value is given. -/
inductive Given (α : Type) where
  /-- The option is given, but its value is dropped. -/
  | blank
  | value (value : α)

def Given.map {α β : Type} (f : α → β) : Given α → Given β
  | blank => blank
  | value a => value (f a)

/-- The value that is attached as the given text. -/
def Given.ofAttached (text : Text) : Given Text :=
  if text = ['-', '-'] then .blank else .value text

/-- What the command is asked to do. -/
structure Request where
  inputs : List Path := []
  output : Option (Given Path) := none
  stylesheet : Option (Given Path) := none
  link : Bool := false
  outlineTitle : Given Text := .value Outline.defaultTitle
  sourceTitle : Given Text := .value SourceText.defaultTitle
  format : Format := .html
  verbose : Bool := false
  manual : Bool := false

/-- Why the words are not taken to their end. -/
inductive Halt where
  /-- Help is asked for. -/
  | help
  | fault (fault : OptionFault)

/-- What has become of the inputs: they are taken from the first run of plain words. -/
inductive InputRun where
  | ahead
  | within
  | behind
  deriving DecidableEq

/-- What has been taken from the words so far. -/
structure Progress where
  request : Request := {}
  run : InputRun := .ahead
  leftOver : List Text := []

namespace Progress

/-- Plain words behind an option belong to another run. -/
def endRun (p : Progress) : Progress :=
  { p with run := if p.run = .within then .behind else p.run }

def takePlain (p : Progress) (text : Text) : Progress :=
  if p.run = .behind then { p with leftOver := p.leftOver ++ [text] }
  else
    { p with
      run := .within
      request := { p.request with inputs := p.request.inputs ++ [Path.ofText text] } }

/-- Takes the terminator, which only begins a run or goes on with it. -/
def takeTerminator (p : Progress) : Progress :=
  if p.run = .behind then { p with leftOver := p.leftOver ++ [['-', '-']] }
  else { p with run := .within }

def takeUnknown (p : Progress) (text : Text) : Progress :=
  { p.endRun with leftOver := p.leftOver ++ [text] }

end Progress

def Request.setFlag (r : Request) : Flag → Except Halt Request
  | .help => .error .help
  | .link => .ok { r with link := true }
  | .verbose => .ok { r with verbose := true }
  | .manual => .ok { r with manual := true }

def Request.setFlags (r : Request) : List Flag → Except Halt Request
  | [] => .ok r
  | flag :: flags =>
    match r.setFlag flag with
    | .error halt => .error halt
    | .ok r => r.setFlags flags

/-- A request with the value of a parameter set. Without a value the format is the usual one. -/
def Request.setParameter (r : Request) (spec : OptionSpec) (parameter : Parameter)
    (given : Given Text) : Except Halt Request :=
  match parameter with
  | .output => .ok { r with output := some (given.map Path.ofText) }
  | .stylesheet => .ok { r with stylesheet := some (given.map Path.ofText) }
  | .outlineTitle => .ok { r with outlineTitle := given }
  | .sourceTitle => .ok { r with sourceTitle := given }
  | .format =>
    match given with
    | .blank => .ok { r with format := .html }
    | .value word =>
      match Format.ofName? word with
      | some format => .ok { r with format }
      | none => .error (.fault (.unknownFormat spec word))

/-- A parameter, the option it belongs to, and its value if that is attached. -/
structure Assignment where
  spec : OptionSpec
  parameter : Parameter
  attached : Option Text

/-- Flags that are attached to each other, and the parameter at their end if there is one. -/
structure Cluster where
  flags : List Flag
  assignment : Option Assignment

/-- The cluster of a short flag and the characters attached to it. -/
def clusterFrom (spec : OptionSpec) (flag : Flag) : Text → Except OptionFault Cluster
  | [] => .ok ⟨[flag], none⟩
  | c :: rest =>
    match shortOption? c with
    | none => .error (.unusedValue spec (c :: rest))
    | some next =>
      match next.purpose with
      | .flag f =>
        match clusterFrom next f rest with
        | .error fault => .error fault
        | .ok cluster => .ok { cluster with flags := flag :: cluster.flags }
      | .parameter parameter =>
        .ok ⟨[flag], some ⟨next, parameter, if rest.isEmpty then none else some rest⟩⟩

/-- What a name of an option and the text attached to it ask for. -/
def cluster (form : NameForm) (spec : OptionSpec) (attached : Option Text) :
    Except OptionFault Cluster :=
  match spec.purpose, attached, form with
  | .parameter parameter, _, _ => .ok ⟨[], some ⟨spec, parameter, attached⟩⟩
  | .flag flag, none, _ => .ok ⟨[flag], none⟩
  | .flag flag, some (c :: rest), .short => clusterFrom spec flag (c :: rest)
  | .flag _, some value, _ => .error (.unusedValue spec value)

namespace Progress

def takeFlags (p : Progress) (flags : List Flag) : Except Halt Progress :=
  match p.request.setFlags flags with
  | .error halt => .error halt
  | .ok request => .ok { p.endRun with request }

/-- Takes the value of a parameter. -/
def takeValue (p : Progress) (a : Assignment) (given : Given Text) : Except Halt Progress :=
  match p.request.setParameter a.spec a.parameter given with
  | .error halt => .error halt
  | .ok request => .ok { p with request }

def takeAssignment (p : Progress) (flags : List Flag) (a : Assignment) (given : Given Text) :
    Except Halt Progress :=
  match p.takeFlags flags with
  | .error halt => .error halt
  | .ok p => p.takeValue a given

end Progress

/-- Takes the words in order. A parameter without an attached value has the next word for its
value, which must be plain. -/
def takeWords (p : Progress) : List Word → Except Halt Progress
  | [] => .ok p
  | .plain text :: words => takeWords (p.takePlain text) words
  | .terminator :: words => takeWords p.takeTerminator words
  | .unknown text :: words => takeWords (p.takeUnknown text) words
  | .option form spec attached :: words =>
    match cluster form spec attached with
    | .error fault => .error (.fault fault)
    | .ok ⟨flags, none⟩ =>
      match p.takeFlags flags with
      | .error halt => .error halt
      | .ok p => takeWords p words
    | .ok ⟨flags, some a⟩ =>
      match a.attached, words with
      | some value, words =>
        match p.takeAssignment flags a (.ofAttached value) with
        | .error halt => .error halt
        | .ok p => takeWords p words
      | none, .plain value :: words =>
        match p.takeAssignment flags a (.value value) with
        | .error halt => .error halt
        | .ok p => takeWords p words
      -- no word is left, or the next one is not plain
      | none, _ => .error (.fault (.missingValue a.spec))

def Request.ofArguments (arguments : List Text) : Except Halt Request :=
  match words arguments with
  | .error fault => .error (.fault fault)
  | .ok ws =>
    match takeWords {} ws with
    | .error halt => .error halt
    | .ok p =>
      if p.leftOver.isEmpty then .ok p.request
      else .error (.fault (.unrecognized p.leftOver))

end Command

end Yeast
