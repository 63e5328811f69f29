import ScriptBridge.Bridge.Plan
import ScriptBridge.File.Disk
import ScriptBridge.Lists

/-! Finding files: the scripts that the inputs name or contain, the root of the
project, and the configuration. Scripts come as places from the root of the disk,
which are in order name by name. -/

namespace ScriptBridge

/-- A name of the form stem and suffix, with a stem that is not empty. -/
def hasSuffix (suffix name : String) : Bool :=
  suffix.toList.isSuffixOf name.toList && suffix.toList.length < name.toList.length

/-- What is wrong with an input. -/
inductive InputProblem where
  | missing | noScript
  deriving DecidableEq

def InputProblem.message : InputProblem → String
  | missing => "input does not exist"
  | noScript => "input is not a GDScript file"

structure InputIssue where
  path : Path
  problem : InputProblem
  deriving DecidableEq

/-- The scripts that were found, and the inputs that gave none. -/
structure Discovery where
  scripts : List (List String)
  issues : List InputIssue

namespace Discovery

def scriptSuffix : String := ".gd"

/-- Hidden directories, such as those of tools, are not searched. -/
def isHidden (directory : String) : Bool :=
  directory.toList.head? == some '.' && 1 < directory.toList.length

/-- The scripts of one input, or what is wrong with it. -/
def ofInput (d : Disk) (input : Path) : Except InputProblem (List (List String)) :=
  let place := (Path.normalFrom d.here input).names
  match d.node? input with
  | none => .error .missing
  | some (.directory entries) =>
    let files := Node.filesAmong (fun name => !isHidden name) entries
    .ok ((files.filter fun f => hasSuffix scriptSuffix (f.getLastD "")).map (place ++ ·))
  | some _ => if hasSuffix scriptSuffix input.fileName then .ok [place] else .error .noScript

/-- The scripts of all inputs, in order and each once. -/
def ofInputs (d : Disk) (inputs : List Path) : Discovery :=
  let given := inputs.filter fun p => !p.isEmpty
  { scripts := sortOnce (given.flatMap fun p => (ofInput d p).toOption.getD [])
    issues :=
      given.filterMap fun p =>
        match ofInput d p with
        | .ok _ => none
        | .error problem => some ⟨p, problem⟩ }

end Discovery

/-! ### The project -/

/-- The file that marks the root of a project. -/
def projectFile : String := "project.godot"

/-- The nearest directory at or above `start` that holds the project file. -/
def findProjectRoot (d : Disk) (start : Path) : Option Path :=
  let normal := Path.normalFrom d.here start
  let first := if d.isDirectory normal then normal else normal.parent
  if normal.isEmpty then none
  else
    let above := (List.range (first.names.length + 1)).reverse.map fun n =>
      Path.ofNames (first.names.take n)
    (first :: above).find? fun p => d.exists? (p.join ⟨projectFile⟩)

/-- The first configuration file below a directory, hidden ones included. -/
def findConfiguration (d : Disk) (root : Path) : Option Path :=
  match d.node? root with
  | some (.directory entries) =>
    let files := Node.filesAmong (fun _ => true) entries
    let found := files.filter fun f => f.getLastD "" == Configuration.fileName
    (sortOnce found).head?.map fun f => (root.join (.relative f)).normal
  | _ => none

end ScriptBridge
