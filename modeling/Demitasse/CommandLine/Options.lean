/-! The arguments of the command line. Options may stand before and behind the input file; their values
are separate arguments or follow directly, and two dashes alone end the options. -/

namespace Demitasse

/-- What the compiler writes. -/
inductive OutputFormat where
  | llvm | check | source | ast | hierarchy
deriving DecidableEq

/-- The format of a name. -/
def OutputFormat.ofName? : String → Option OutputFormat
  | "llvm" => some .llvm
  | "check" => some .check
  | "source" => some .source
  | "ast" => some .ast
  | "hierarchy" => some .hierarchy
  | _ => none

/-- What a run is asked to do. -/
structure Options where
  input : String
  output : Option String
  format : OutputFormat
  skipCheck : Bool
  logLevel : String
deriving DecidableEq

/-- What a command line asks for. -/
inductive Command where
  | run (options : Options)
  | version
  | help
deriving DecidableEq

/-- Why a command line asks for nothing. -/
inductive ArgumentFault where
  | unknownOption (name : String)
  | missingValue (name : String)
  | unexpectedValue (name value : String)
  | invalidValue (name value : String)
  | repeated (name : String)
  | unexpectedArgument (text : String)
  | missingInput
deriving DecidableEq

/-- The message of a fault. -/
def ArgumentFault.message : ArgumentFault → String
  | .unknownOption name => "unknown option '" ++ name ++ "'"
  | .missingValue name => "option '" ++ name ++ "' needs a value"
  | .unexpectedValue name value => "option '" ++ name ++ "' takes no value, but has '" ++ value ++ "'"
  | .invalidValue name value => "invalid value '" ++ value ++ "' for '" ++ name ++ "'"
  | .repeated name => "'" ++ name ++ "' is given more than once"
  | .unexpectedArgument text => "unexpected argument '" ++ text ++ "'"
  | .missingInput => "no input file is given"

/-- Options with a value. -/
inductive ValueOption where
  | output | format | logLevel
deriving DecidableEq

/-- The long name of an option. -/
def ValueOption.name : ValueOption → String
  | .output => "--output"
  | .format => "--format"
  | .logLevel => "--log-level"

/-- What a single argument is, before the ones behind it are looked at. -/
inductive Argument where
  | plain (text : String)
  /-- two dashes alone -/
  | endOfOptions
  /-- an option with a value that may follow directly -/
  | valued (option : ValueOption) (value : Option String)
  | skipCheck
  | version
  | help
deriving DecidableEq

namespace Argument

/-- An option by its long name, with the value behind an equals sign. -/
def ofLong (name : String) (value : Option String) : Except ArgumentFault Argument :=
  let flag (arg : Argument) : Except ArgumentFault Argument :=
    match value with
    | none => .ok arg
    | some value => .error (.unexpectedValue ("--" ++ name) value)
  match name with
  | "output" => .ok (.valued .output value)
  | "format" => .ok (.valued .format value)
  | "log-level" => .ok (.valued .logLevel value)
  | "no-check" => flag .skipCheck
  | "version" => flag .version
  | "help" => flag .help
  | _ => .error (.unknownOption ("--" ++ name))

/-- The value that follows a one-letter option directly, with or without an equals sign. -/
def attached : List Char → Option String
  | [] => none
  | '=' :: value => some (String.ofList value)
  | value => some (String.ofList value)

/-- An option by its letter and what follows the letter. -/
def ofShort (letter : Char) (rest : List Char) : Except ArgumentFault Argument :=
  match letter with
  | 'o' => .ok (.valued .output (attached rest))
  | 'f' => .ok (.valued .format (attached rest))
  | 'V' => .ok .version
  | 'h' => .ok .help
  | _ => .error (.unknownOption (String.ofList ['-', letter]))

/-- Reads one argument. A single dash is not an option. -/
def ofString (text : String) : Except ArgumentFault Argument :=
  match text.toList with
  | ['-', '-'] => .ok .endOfOptions
  | '-' :: '-' :: long =>
    let name := String.ofList (long.takeWhile (· ≠ '='))
    match long.dropWhile (· ≠ '=') with
    | [] => ofLong name none
    | _ :: value => ofLong name (some (String.ofList value))
  | '-' :: letter :: rest => ofShort letter rest
  | _ => .ok (.plain text)

/-- Whether an argument has the form of an option and is no value. -/
def looksLikeOption (text : String) : Bool :=
  match text.toList with
  | '-' :: _ :: _ => true
  | _ => false

end Argument

/-- What the arguments so far have given. -/
structure Given where
  input : Option String
  output : Option String
  format : Option OutputFormat
  skipCheck : Bool
  logLevel : Option String
deriving DecidableEq

namespace Given

/-- What no argument gives. -/
def nothing : Given :=
  ⟨none, none, none, false, none⟩

/-- The input file. Its name is not empty, and there is only one. -/
def addInput (given : Given) (text : String) : Except ArgumentFault Given :=
  if given.input.isSome then .error (.unexpectedArgument text)
  else if text.isEmpty then .error (.invalidValue "input" text)
  else .ok { given with input := some text }

/-- Several arguments that cannot be options. -/
def addInputs (given : Given) (texts : List String) : Except ArgumentFault Given :=
  texts.foldlM addInput given

/-- The value of an option, which is given at most once. -/
def addValue (given : Given) (option : ValueOption) (value : String) : Except ArgumentFault Given :=
  match option with
  | .output =>
    if given.output.isSome then .error (.repeated option.name)
    else if value.isEmpty then .error (.invalidValue option.name value)
    else .ok { given with output := some value }
  | .format =>
    if given.format.isSome then .error (.repeated option.name)
    else match OutputFormat.ofName? value with
      | some format => .ok { given with format := some format }
      | none => .error (.invalidValue option.name value)
  | .logLevel =>
    if given.logLevel.isSome then .error (.repeated option.name)
    else .ok { given with logLevel := some value }

/-- The wish to compile without a check. -/
def addSkipCheck (given : Given) : Except ArgumentFault Given :=
  if given.skipCheck then .error (.repeated "--no-check") else .ok { given with skipCheck := true }

/-- The options of a run, with the usual ones where none are given. -/
def options (given : Given) : Except ArgumentFault Options :=
  match given.input with
  | none => .error .missingInput
  | some input => .ok {
      input
      output := given.output
      format := given.format.getD .llvm
      skipCheck := given.skipCheck
      logLevel := given.logLevel.getD "warn" }

end Given

/-- Reads arguments from left to right. A request for the version or for help is met at once. -/
def Command.ofArgsFrom (given : Given) : List String → Except ArgumentFault Command
  | [] => return .run (← given.options)
  | text :: rest => do
    match ← Argument.ofString text with
    | .plain text => ofArgsFrom (← given.addInput text) rest
    | .endOfOptions => return .run (← (← given.addInputs rest).options)
    | .valued option (some value) => ofArgsFrom (← given.addValue option value) rest
    | .valued option none =>
      match rest with
      | value :: rest =>
        if Argument.looksLikeOption value then throw (.missingValue option.name)
        else ofArgsFrom (← given.addValue option value) rest
      | [] => throw (.missingValue option.name)
    | .skipCheck => ofArgsFrom (← given.addSkipCheck) rest
    | .version => return .version
    | .help => return .help

/-- What the arguments of a command line ask for. -/
def Command.ofArgs (args : List String) : Except ArgumentFault Command :=
  ofArgsFrom .nothing args

end Demitasse
