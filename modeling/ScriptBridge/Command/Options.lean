/-! The arguments of the command line. Each argument is recognised by itself: a flag,
an option with its value, an option whose value is the next argument, or an input.
Reading stops at a request for help or for the version. -/

namespace ScriptBridge

/-- What the user asks for. -/
structure Options where
  inputs : List String := []
  output : String := ""
  engineApi : String := ""
  projectTypes : Option String := none
  configuration : Option String := none
  projectRoot : Option String := none
  manifest : Option String := none
  clean : Bool := false
  quiet : Bool := false
  help : Bool := false
  version : Bool := false
  deriving DecidableEq

inductive OptionError where
  | missingValue (option : String)
  | missingOutputValue | missingInput | missingEngineApi | missingOutput
  | unknownOption (argument : String)
  deriving DecidableEq

def OptionError.message : OptionError → String
  | missingValue option =>
    "GDB-E1003 MissingOptionValue: expected value after " ++ option ++ " option."
  | missingOutputValue => "GDB-E1000 MissingOutput: expected directory after -o option."
  | unknownOption argument =>
    "GDB-E1001 UnknownOption: unrecognised option '" ++ argument ++ "'."
  | missingInput => "GDB-E1002 MissingInput: at least one script file or directory is required."
  | missingEngineApi => "GDB-E1004 MissingNativeApi: --native-api <file> is required."
  | missingOutput => "GDB-E1000 MissingOutput: -o <directory> is required."

/-- The options that take a value. -/
inductive ValueOption where
  | engineApi | projectTypes | configuration | projectRoot | manifest | output
  deriving DecidableEq

namespace ValueOption

def name : ValueOption → String
  | engineApi => "--native-api"
  | projectTypes => "--project-types"
  | configuration => "--config"
  | projectRoot => "--project-root"
  | manifest => "--emit-manifest"
  | output => "-o"

/-- The options whose value may follow an equals sign. -/
def long : List ValueOption := [engineApi, projectTypes, configuration, projectRoot, manifest]

/-- The last value given counts. -/
def set (value : String) (o : Options) : ValueOption → Options
  | engineApi => { o with engineApi := value }
  | projectTypes => { o with projectTypes := some value }
  | configuration => { o with configuration := some value }
  | projectRoot => { o with projectRoot := some value }
  | manifest => { o with manifest := some value }
  | output => { o with output := value }

def missing : ValueOption → OptionError
  | output => .missingOutputValue
  | option => .missingValue option.name

end ValueOption

/-- One argument, recognised. -/
inductive Argument where
  | help | version | clean | quiet
  | assigned (option : ValueOption) (value : String)
  | awaiting (option : ValueOption)
  | unknown
  | input
  deriving DecidableEq

namespace Argument

/-- What follows `start` in a text. -/
def after? (start : String) (cs : List Char) : Option (List Char) :=
  if start.toList.isPrefixOf cs then some (cs.drop start.toList.length) else none

/-- A long option with its value behind an equals sign, or by itself. -/
def ofLong? (text : String) (option : ValueOption) : Option Argument :=
  match after? option.name text.toList with
  | some [] => some (awaiting option)
  | some ('=' :: value) => some (assigned option (String.ofList value))
  | _ => none

/-- The output option has its value directly behind it, or by itself. -/
def ofShort? (text : String) : Option Argument :=
  match after? ValueOption.output.name text.toList with
  | some [] => some (awaiting .output)
  | some value => some (assigned .output (String.ofList value))
  | none => none

def ofText (text : String) : Argument :=
  if text == "--help" then help
  else if text == "--version" then version
  else if text == "--clean" then clean
  else if text == "--quiet" then quiet
  else match ValueOption.long.findSome? (ofLong? text), ofShort? text with
    | some a, _ => a
    | none, some a => a
    | none, none => if text.toList.head? == some '-' then unknown else input

end Argument

namespace Options

/-- A run needs an input, the description of the engine, and a place for its output. -/
def check (o : Options) : Except OptionError Options :=
  if o.inputs.isEmpty then .error .missingInput
  else if o.engineApi == "" then .error .missingEngineApi
  else if o.output == "" then .error .missingOutput
  else .ok o

/-- Reads arguments on top of the options read so far. -/
def readFrom (o : Options) : List String → Except OptionError Options
  | [] => o.check
  | a :: rest =>
    match Argument.ofText a, rest with
    | .help, _ => .ok { o with help := true }
    | .version, _ => .ok { o with version := true }
    | .clean, rest => readFrom { o with clean := true } rest
    | .quiet, rest => readFrom { o with quiet := true } rest
    | .assigned option value, rest => readFrom (option.set value o) rest
    | .awaiting option, value :: rest => readFrom (option.set value o) rest
    | .awaiting option, [] => .error option.missing
    | .unknown, _ => .error (.unknownOption a)
    | .input, rest => readFrom { o with inputs := o.inputs ++ [a] } rest

def ofArguments (arguments : List String) : Except OptionError Options := readFrom {} arguments

end Options

end ScriptBridge
