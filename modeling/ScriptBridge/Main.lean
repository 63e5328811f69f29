import ScriptBridge.Command.Run

/-! The program. It takes a picture of the directories that the arguments speak of,
runs on the picture, and then makes on the real disk the changes that the run made
on the picture. How documents are read is for the caller to say; without readers
every description of the engine is refused. -/

namespace ScriptBridge

/-- Readers for a program that knows no format of documents. -/
def DocumentReaders.refusing : DocumentReaders where
  engineApi _ _ catalog := (catalog, [], false)
  projectTypes _ _ catalog := (catalog, [], false)
  configuration _ := none

namespace Picture

/-- Whether the run may ask for the content of a file that no argument names. -/
def isOfInterest (name : String) : Bool :=
  hasSuffix Discovery.scriptSuffix name || hasSuffix Generation.fileSuffix name ||
    name == Configuration.fileName

def readText (path : String) : IO String := do
  try return (String.fromUTF8? (← IO.FS.readBinFile path)).getD ""
  catch _ => return ""

/-- The entry at a path. The content of files without interest is left out. -/
partial def readNode (path name : String) (named : Bool) : IO (Option Node) := do
  try
    let real ← IO.FS.realPath path
    match (← real.metadata).type with
    | .dir =>
      let mut entries := []
      for entry in (← real.readDir) do
        if let some node ← readNode (path ++ "/" ++ entry.fileName) entry.fileName false then
          entries := (entry.fileName, node) :: entries
      return some (.directory entries)
    | _ =>
      let text ← if named || isOfInterest name then readText path else pure ""
      return some (.file text)
  catch _ => return none

/-- The places that the arguments of a run speak of. -/
def places (here : Path) (o : Options) : List (List String) :=
  let named := [some o.engineApi, o.projectTypes, o.configuration, o.projectRoot, some o.output,
    o.manifest]
  (o.inputs ++ named.filterMap id).map fun p => (Path.normalFrom here ⟨p⟩).names

/-- Puts the entry at a place into a picture, with all that is below it. -/
def add (d : Disk) (place : List String) : IO Disk := do
  match ← readNode (Path.ofNames place).text (place.getLastD "") true with
  | some node => return d.set place node
  | none => return d

/-- Puts the directories above a place into a picture, with no more in them than a
project file. -/
def addAbove (d : Disk) (place : List String) : IO Disk := do
  let mut d := d
  for n in List.range place.length do
    let above := place.take n
    if (d.root.find? above).isNone && (← isRealDirectory above) then
      d := d.set above (.directory [])
    d ← add d (above ++ [projectFile])
  return d
where
  isRealDirectory (place : List String) : IO Bool := do
    try (← IO.FS.realPath (Path.ofNames place).text).isDir
    catch _ => return false

/-- The picture for a run: the root of the project, and what the arguments name. -/
def take (o : Options) : IO Disk := do
  let here := (⟨(← IO.currentDir).toString⟩ : Path).names
  let named := places (.ofNames here) o
  let mut d : Disk := { root := .directory [], current := here }
  for place in here :: named do
    d ← addAbove d place
  d ← add d (((findProjectRoot d ⟨o.inputs.headD ""⟩).map Path.names).getD here)
  for place in named do
    d ← add d place
  return d

/-- Makes the changes that lead from one picture of a directory to another. -/
partial def change (path : String) (old new : List (String × Node)) : IO Unit := do
  for (name, node) in new do
    let inner := path ++ "/" ++ name
    match old.lookup name, node with
    | some (.directory es), .directory es' => change inner es es'
    | none, .directory es' =>
      IO.FS.createDirAll inner
      change inner [] es'
    | some (.file content), .file content' =>
      if content != content' then IO.FS.writeFile inner content'
    | none, .file content' => IO.FS.writeFile inner content'
    | _, _ => return
  for (name, _) in old do
    if (new.lookup name).isNone then IO.FS.removeFile (path ++ "/" ++ name)

def apply (old new : Disk) : IO Unit :=
  match old.root, new.root with
  | .directory es, .directory es' => change "" es es'
  | _, _ => return

end Picture

/-- Runs the program with the given readers of documents. -/
def runWith (readers : DocumentReaders) (arguments : List String) : IO UInt32 := do
  let picture ← match Options.ofArguments arguments with
    | .ok o => Picture.take o
    | .error _ => pure { root := .directory [] }
  let shown := runProgram readers picture arguments
  Picture.apply picture shown.disk
  IO.print shown.output
  IO.eprint shown.error
  return shown.exitCode.toUInt32

end ScriptBridge

def main (arguments : List String) : IO UInt32 :=
  ScriptBridge.runWith .refusing arguments
