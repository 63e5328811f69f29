import ScriptBridge.File.Discovery
import ScriptBridge.Manifest

/-! Writing the results of a run. A unit whose file holds its text already is left
alone. Stale units, which are other files with the ending of units, are removed only
after every unit has been written. -/

namespace ScriptBridge

/-- How many files were written, found unchanged and removed. -/
structure OutputSummary where
  written : Nat := 0
  unchanged : Nat := 0
  removed : Nat := 0
  deriving DecidableEq

inductive OutputError where
  | noDirectory (path : Path) (cause : Disk.EntryError)
  | cannotOpen (path : Path)
  | cannotWriteUnit (path : Path)
  | cannotRemove (path : Path) (cause : Disk.EntryError)
  | noManifestDirectory (path : Path) (cause : Disk.EntryError)
  | cannotWriteManifest (path : Path)
  deriving DecidableEq

def OutputError.message : OutputError → String
  | noDirectory path cause =>
    "failed to create output directory '" ++ path.text ++ "': " ++ cause.message
  | cannotOpen path => "unable to open '" ++ path.text ++ "' for writing."
  | cannotWriteUnit path => "failed while writing '" ++ path.text ++ "'."
  | cannotRemove path cause =>
    "failed to remove stale unit '" ++ path.text ++ "': " ++ cause.message
  | noManifestDirectory path cause =>
    "failed to create directories for '" ++ path.text ++ "': " ++ cause.message
  | cannotWriteManifest path => "failed while writing manifest to '" ++ path.text ++ "'."

/-- The disk after writing, what has been done, and what stopped it. -/
structure Output where
  disk : Disk
  summary : OutputSummary := {}
  error : Option OutputError := none

namespace Output

/-- Does one thing after the other, up to the first that fails. -/
def each {α : Type} (act : Disk → OutputSummary → α → Output) :
    Disk → OutputSummary → List α → Output
  | disk, summary, [] => { disk, summary }
  | disk, summary, a :: as =>
    let o := act disk summary a
    if o.error.isNone then each act o.disk o.summary as else o

/-- Writes a unit into a directory, unless its file holds its text already. -/
def writeUnit (directory : Path) (disk : Disk) (summary : OutputSummary) (u : GeneratedUnit) :
    Output :=
  let path := directory.join ⟨u.fileName⟩
  let isUnchanged := match disk.node? path with
    | some (.file content) => content == u.text
    | _ => false
  if isUnchanged then { disk, summary := { summary with unchanged := summary.unchanged + 1 } }
  else match disk.write path u.text with
    | .ok disk => { disk, summary := { summary with written := summary.written + 1 } }
    | .error .cannotOpen => { disk, summary, error := some (.cannotOpen path) }
    | .error .cannotWrite => { disk, summary, error := some (.cannotWriteUnit path) }

/-- Whether an entry of the output directory is a unit of an earlier run. -/
def isStale (keep : List String) (entry : String × Node) : Bool :=
  entry.2.isFile && hasSuffix Generation.fileSuffix entry.1 && !keep.contains entry.1

/-- Removes a file from a directory. -/
def removeUnit (directory : Path) (disk : Disk) (summary : OutputSummary) (name : String) :
    Output :=
  let path := directory.join ⟨name⟩
  match disk.remove path with
  | .ok disk => { disk, summary := { summary with removed := summary.removed + 1 } }
  | .error cause => { disk, summary, error := some (.cannotRemove path cause) }

/-- The stale units in a directory. -/
def staleIn (disk : Disk) (directory : Path) (keep : List String) : List String :=
  match disk.node? directory with
  | some (.directory entries) => (entries.filter (isStale keep)).map Prod.fst
  | _ => []

/-- Writes the units, and then removes the stale ones if asked to. What is done is added
to a summary. -/
def writeUnits (disk : Disk) (directory : Path) (units : List GeneratedUnit) (clean : Bool)
    (summary : OutputSummary := {}) : Output :=
  match disk.makeDirectories directory with
  | (disk, some cause) => { disk, summary, error := some (.noDirectory directory cause) }
  | (disk, none) =>
    let o := each (writeUnit directory) disk summary units
    if clean && o.error.isNone then
      each (removeUnit directory) o.disk o.summary
        (staleIn o.disk directory (units.map GeneratedUnit.fileName))
    else o

/-- Writes the manifest of a run, in a directory that is created if need be. -/
def writeManifest (disk : Disk) (path : Path) (g : Generation) : Disk × Option OutputError :=
  let made := if path.parent.isEmpty then (disk, none) else disk.makeDirectories path.parent
  match made with
  | (disk, some cause) => (disk, some (.noManifestDirectory path cause))
  | (disk, none) =>
    match disk.write path (Manifest.render g) with
    | .ok disk => (disk, none)
    | .error .cannotOpen => (disk, some (.cannotOpen path))
    | .error .cannotWrite => (disk, some (.cannotWriteManifest path))

end Output

end ScriptBridge
