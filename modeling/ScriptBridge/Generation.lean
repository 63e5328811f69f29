import ScriptBridge.Bridge.Unit
import ScriptBridge.Proxy.Unit
import ScriptBridge.Script.ClassReading

/-! One run over all scripts. The scripts are read in the order of their paths; the
classes found are planned and resolved together; each emitted class gets a bridge,
and each engine type that an emitted class descends from gets a proxy. -/

namespace ScriptBridge

/-- A script: its path in the engine's resource system, and its text. -/
structure ScriptSource where
  path : String
  text : String

inductive UnitKind where
  | bridge | proxy
  deriving DecidableEq

namespace UnitKind

def name : UnitKind → String
  | bridge => "bridge"
  | proxy => "proxy"

end UnitKind

structure GeneratedUnit where
  kind : UnitKind
  typeName : String
  fileName : String
  text : String
  deriving DecidableEq

/-- What became of a class. -/
structure ClassReport where
  scriptPath : String
  className : String
  bridgeName : String
  namespaceName : String
  baseName : String
  rootName : String
  status : LineageStatus
  emitted : Bool
  deriving DecidableEq

structure Generation where
  units : List GeneratedUnit := []
  classes : List ClassReport := []
  proxies : List String := []
  skipped : List String := []
  diagnostics : List Diagnostic := []

namespace Generation

/-- The ending of the names of generated files. -/
def fileSuffix : String := ".g.cs"

def unit (kind : UnitKind) (typeName text : String) : GeneratedUnit :=
  { kind, typeName, fileName := typeName ++ fileSuffix, text }

/-- A fault in a script as a message about the place where it was found. -/
def faultDiagnostic (path : String) (f : LocatedFault) : Diagnostic :=
  { code := f.fault.code
    message := f.fault.message
    subject :=
      path ++ ":" ++ toString f.span.start.line ++ ":" ++ toString f.span.start.column }

/-- A script after reading. -/
structure ReadScript where
  path : String
  class? : Option ScriptClass
  faults : List LocatedFault

def readScript (s : ScriptSource) : ReadScript :=
  let r := ScriptClass.ofSource s.path s.text
  { path := s.path, class? := r.1, faults := r.2 }

def report (script : ScriptClass) (l : Lineage) : ClassReport :=
  { scriptPath := script.path
    className := script.name
    bridgeName := l.typeName
    namespaceName := l.namespaceName
    baseName := l.baseName
    rootName := l.rootName
    status := l.status
    emitted := l.emitted }

/-- The order of paths, and of file names. -/
def notAfter (a b : String) : Bool := !decide (b < a)

/-- What a run brings that comes to the end of each script. (A loop over a hint with a semicolon
outside brackets never ends, and then nothing is brought.) -/
def ofSources (catalog : Catalog) (configuration : Configuration) (sources : List ScriptSource) :
    Generation :=
  let read := (sources.mergeSort fun a b => notAfter a.path b.path).map readScript
  let scripts := read.filterMap ReadScript.class?
  let plans := scripts.map fun s => Plan.ofClass catalog configuration s.name
  let lineages := Lineages.ofScripts catalog scripts plans
  let classes := lineages.classes.filterMap fun l => scripts[l.index]?.map fun s => (s, l)
  let scope : TypeScope := ⟨catalog, scripts.map ScriptClass.name⟩
  let bridges := (classes.filter fun x => x.2.emitted).map fun x =>
    (x.2.typeName, BridgeUnit.ofScript scope x.1 x.2)
  let proxies := lineages.usedEngineTypes
  let units := bridges.map (fun b => unit .bridge b.1 b.2.text) ++
    proxies.map fun n => unit .proxy (proxyName n) (ProxyUnit.text catalog n)
  { units := units.mergeSort fun a b => notAfter a.fileName b.fileName
    classes := classes.map fun x => report x.1 x.2
    proxies
    skipped := (read.filter fun r => r.class?.isNone).map ReadScript.path
    diagnostics :=
      read.flatMap (fun r => r.faults.map (faultDiagnostic r.path)) ++ lineages.diagnostics ++
        bridges.flatMap fun b => b.2.diagnostics }

end Generation

end ScriptBridge
