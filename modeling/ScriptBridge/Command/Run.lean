import ScriptBridge.Command.Options
import ScriptBridge.File.Output

/-! A run of the program. It is a function of the arguments, of the disk and of three
readers of documents, and its result is a list of messages, a disk and an exit code.
A quiet run keeps notices and details to itself, wherever they arise. -/

namespace ScriptBridge

/-- How the documents are read that describe the engine, the project and the
configuration. A reader of a catalog gets the text and the name of its document; it
extends the catalog, reports problems, and says whether the document was of use. -/
structure DocumentReaders where
  engineApi : String → String → Catalog → Catalog × List Diagnostic × Bool
  projectTypes : String → String → Catalog → Catalog × List Diagnostic × Bool
  configuration : String → Option Configuration

/-- A message of a run. Quiet runs give no notices and no details. -/
inductive Message where
  | output (text : String)
  | notice (text : String)
  | detail (text : String)
  | error (text : String)
  deriving DecidableEq

namespace Message

/-- What a message adds to the standard output. -/
def onOutput : Message → String
  | output text => text ++ "\n"
  | notice text => "[notice] " ++ text ++ "\n"
  | detail text => "[debug] " ++ text ++ "\n"
  | error _ => ""

/-- What a message adds to the standard error. -/
def onError : Message → String
  | error text => text ++ "\n"
  | _ => ""

def ofDiagnostic (d : Diagnostic) : Message :=
  error (d.code ++ " " ++ d.subject ++ " -> " ++ d.message)

/-- The complaint about a file that cannot be read. -/
def unreadable (path : String) : Message :=
  error ("GDB-E3000 InputReadFailed: unable to open '" ++ path ++ "'.")

end Message

/-- The result of a run. -/
structure RunResult where
  messages : List Message
  disk : Disk
  exitCode : Nat

namespace RunResult

def standardOutput (r : RunResult) : String := String.join (r.messages.map Message.onOutput)

def standardError (r : RunResult) : String := String.join (r.messages.map Message.onError)

/-- The run with messages put in front. -/
def after (messages : List Message) (r : RunResult) : RunResult :=
  { r with messages := messages ++ r.messages }

/-- The run with an exit code that reports a failure, whatever came after it. -/
def failing (failed : Bool) (r : RunResult) : RunResult :=
  if failed then { r with exitCode := 1 } else r

end RunResult

namespace Run

def versionText : String := "gdbridgegen 0.1.0"

def helpText : String :=
  "gdbridgegen - typed C# bridges for GDScript classes\n" ++
  "Usage: gdbridgegen [options] <script-or-directory>...\n\n" ++
  "Options:\n" ++
  "  --help                      Show this help text and exit.\n" ++
  "  --version                   Show version information and exit.\n" ++
  "  --native-api <path>         Engine API description (JSON). Required.\n" ++
  "  --project-types <path>      Types already declared in the C# project (JSON).\n" ++
  "  --config <path>             Generator configuration. Default: first " ++
  Configuration.fileName ++ " under the project root.\n" ++
  "  --project-root <dir>        Directory that res:// paths are relative to.\n" ++
  "                              Default: nearest directory holding project.godot.\n" ++
  "  --emit-manifest <path>      Write a JSON manifest of the generation run.\n" ++
  "  --clean                     Remove stale *.g.cs files from the output directory.\n" ++
  "  --quiet                     Suppress notice and debug output.\n" ++
  "  -o <dir>                    Output directory for generated units. Required."

/-- Messages that a quiet run does not give. -/
def ifVerbose (o : Options) (messages : List Message) : List Message :=
  if o.quiet then [] else messages

/-! ### Catalog -/

/-- A catalog, and what was said while it was put together; there is none if a
document that is needed is missing or of no use. -/
structure LoadedCatalog where
  catalog : Option Catalog
  messages : List Message

/-- Adds the project's own types, if a document lists them. -/
def loadProjectTypes (readers : DocumentReaders) (disk : Disk) (o : Options) (catalog : Catalog)
    (diagnostics : List Diagnostic) : LoadedCatalog :=
  match o.projectTypes with
  | none => ⟨some catalog, diagnostics.map .ofDiagnostic⟩
  | some path =>
    match disk.read ⟨path⟩ with
    | none => ⟨none, [.unreadable path]⟩
    | some text =>
      let (catalog, more, ok) := readers.projectTypes text path catalog
      ⟨if ok then some catalog else none, (diagnostics ++ more).map .ofDiagnostic⟩

def loadCatalog (readers : DocumentReaders) (disk : Disk) (o : Options) : LoadedCatalog :=
  match disk.read ⟨o.engineApi⟩ with
  | none => ⟨none, [.unreadable o.engineApi]⟩
  | some text =>
    let (catalog, diagnostics, ok) := readers.engineApi text o.engineApi {}
    if ok then loadProjectTypes readers disk o catalog diagnostics
    else
      ⟨none, diagnostics.map .ofDiagnostic ++
        [.error "GDB-E3005 NativeApiUnusable: generation needs a native API description."]⟩

/-! ### Project -/

/-- The given root, the nearest one above the first input, or the current directory. -/
def projectRoot (disk : Disk) (o : Options) : Path :=
  match o.projectRoot with
  | some path => ⟨path⟩
  | none => (findProjectRoot disk ⟨o.inputs.headD ""⟩).getD disk.here

/-- The configuration, and where it came from. Without a usable one all is default. -/
def loadConfiguration (readers : DocumentReaders) (disk : Disk) (o : Options) (root : Path) :
    Configuration × List Message :=
  let path := match o.configuration with
    | some path => some ⟨path⟩
    | none => findConfiguration disk root
  match path with
  | none => ({}, [])
  | some path =>
    match disk.read path with
    | none =>
      ({}, ifVerbose o
        [.notice ("Configuration '" ++ path.text ++ "' is unreadable; using defaults.")])
    | some text =>
      match readers.configuration text with
      | none =>
        ({}, ifVerbose o
          [.notice ("Configuration '" ++ path.text ++ "' is malformed; using defaults.")])
      | some c => (c, ifVerbose o [.notice ("Configuration loaded from " ++ path.text)])

/-- The scripts at the places that can be read, and the places that cannot. -/
def loadScripts (disk : Disk) (root : Path) (places : List (List String)) :
    List ScriptSource × List Path :=
  let paths := places.map Path.ofNames
  (paths.filterMap fun p =>
      (disk.read p).map fun text => ⟨Path.inProject disk.here p root, text⟩,
    paths.filter fun p => (disk.read p).isNone)

/-! ### Output -/

def count (n : Nat) (what : String) : String := toString n ++ " " ++ what

/-- The last messages of a run. -/
def closing (o : Options) (g : Generation) (s : OutputSummary) : List Message :=
  ifVerbose o
    [.notice
      ("Generated " ++ count (g.units.length - g.proxies.length) "bridge(s) and " ++
        count g.proxies.length "proxy unit(s): " ++ count s.written "written, " ++
        count s.unchanged "unchanged, " ++ count s.removed "removed.")] ++
    if g.diagnostics.any fun d => !d.isWarning then
      [.error
        "GDB-W3900 GenerationIncomplete: some classes produced no bridge; see diagnostics above."]
    else []

/-- Writes the units and the manifest. A manifest that cannot be written does not stop
the run. -/
def writeOutput (disk : Disk) (o : Options) (g : Generation) : RunResult :=
  let units := Output.writeUnits disk ⟨o.output⟩ g.units o.clean
  match units.error with
  | some e =>
    { messages := [.error ("GDB-E3020 OutputWriteFailed: " ++ e.message)]
      disk := units.disk
      exitCode := 1 }
  | none =>
    let last := closing o g units.summary
    match o.manifest with
    | none => { messages := last, disk := units.disk, exitCode := 0 }
    | some path =>
      match Output.writeManifest units.disk ⟨path⟩ g with
      | (disk, none) =>
        { messages := ifVerbose o [.notice ("Manifest written to " ++ path)] ++ last
          disk
          exitCode := 0 }
      | (disk, some e) =>
        { messages := .error ("GDB-E3021 ManifestWriteFailed: " ++ e.message) :: last
          disk
          exitCode := 1 }

/-! ### The whole run -/

def introduction (o : Options) : List Message :=
  [.output "[information] Starting gdbridgegen.", .output ("  native api: " ++ o.engineApi),
    .output ("  output: " ++ o.output)] ++ o.inputs.map fun p => .output ("  input: " ++ p)

/-- Reads the scripts, generates the units and writes them. -/
def withCatalog (readers : DocumentReaders) (disk : Disk) (o : Options) (catalog : Catalog) :
    RunResult :=
  let discovery := Discovery.ofInputs disk (o.inputs.map Path.mk)
  let issues := discovery.issues.map fun i =>
    .error ("GDB-E3010 ScriptLocatorInput: " ++ i.problem.message ++ " -> '" ++ i.path.text ++ "'")
  let root := projectRoot disk o
  let configuration := loadConfiguration readers disk o root
  let scripts := loadScripts disk root discovery.scripts
  let unreadable := scripts.2.map fun p => .unreadable p.text
  let g := Generation.ofSources catalog configuration.1 scripts.1
  let result := writeOutput disk o g
  .failing (!discovery.issues.isEmpty || !scripts.2.isEmpty) <|
    .after
      (ifVerbose o
          [.notice
            ("Catalog holds " ++ count catalog.engineTypes.length "native and " ++
              count catalog.projectTypes.length "project type(s).")] ++
        issues ++ ifVerbose o [.notice ("Project root: " ++ root.text)] ++ configuration.2 ++
        unreadable ++ ifVerbose o [.notice ("Located " ++ count scripts.1.length "script(s).")] ++
        g.diagnostics.map .ofDiagnostic ++
        ifVerbose o (g.skipped.map fun p =>
          .detail ("Skipped " ++ p ++ " (no usable class_name declaration).")))
      result

def generator (readers : DocumentReaders) (disk : Disk) (o : Options) : RunResult :=
  let loaded := loadCatalog readers disk o
  .after (introduction o ++ loaded.messages) <|
    match loaded.catalog with
    | none => { messages := [], disk, exitCode := 1 }
    | some catalog => withCatalog readers disk o catalog

end Run

/-- What the program shows and leaves behind. -/
structure Shown where
  output : String
  error : String
  disk : Disk
  exitCode : Nat

/-- Runs the program on the arguments of its command line. -/
def runProgram (readers : DocumentReaders) (disk : Disk) (arguments : List String) : Shown :=
  match Options.ofArguments arguments with
  | .error e => { output := "", error := e.message ++ "\n", disk, exitCode := 1 }
  | .ok o =>
    if o.help then { output := Run.helpText ++ "\n", error := "", disk, exitCode := 0 }
    else if o.version then { output := Run.versionText ++ "\n", error := "", disk, exitCode := 0 }
    else
      let r := Run.generator readers disk o
      { output := r.standardOutput, error := r.standardError, disk := r.disk
        exitCode := r.exitCode }

end ScriptBridge
