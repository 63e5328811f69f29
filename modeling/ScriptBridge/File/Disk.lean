import ScriptBridge.File.Path

/-! Files and directories as a value. A disk is a tree of named entries, the place of
the current directory in it, and limits on the length of names and paths. A path is
followed through the tree component by component, and every component but the last has
to be a directory. Directories are created from the top down, and those that have been
created stay when a later one cannot be. -/

namespace ScriptBridge

/-- An entry of a directory. A device takes in texts of less than its capacity, keeps
nothing, and refuses longer ones. -/
inductive Node where
  | file (content : String)
  | device (capacity : Nat)
  | directory (entries : List (String × Node))

namespace Node

def isDirectory : Node → Bool
  | directory _ => true
  | _ => false

def isFile : Node → Bool
  | file _ => true
  | _ => false

/-- The entry that the names lead to. -/
def find? : List String → Node → Option Node
  | [], node => some node
  | name :: names, directory entries => (entries.lookup name).bind (find? names)
  | _ :: _, _ => none

/-- The entries with one of them set. -/
def setEntry (name : String) (node : Node) : List (String × Node) → List (String × Node)
  | [] => [(name, node)]
  | e :: es => if e.1 == name then (name, node) :: es else e :: setEntry name node es

/-- The tree with the entry set that the names lead to. -/
def put : List String → Node → Node → Node
  | [], new, _ => new
  | name :: names, new, directory entries =>
    directory (setEntry name (put names new ((entries.lookup name).getD (directory []))) entries)
  | _ :: _, _, old => old

mutual

/-- The places of all regular files below a node, in directories that `enter` admits. -/
def filesBelow (enter : String → Bool) : Node → List (List String)
  | directory entries => filesAmong enter entries
  | _ => []

def filesAmong (enter : String → Bool) : List (String × Node) → List (List String)
  | [] => []
  | (name, node) :: entries =>
    (if node.isFile then [[name]]
      else if enter name then (filesBelow enter node).map (name :: ·)
      else []) ++ filesAmong enter entries

end

end Node

/-- How long a name and a path may be, in bytes, and how many directories may be
created for one path. -/
structure Limits where
  name : Nat := 255
  path : Nat := 4095
  directories : Nat := 1000
  deriving DecidableEq

structure Disk where
  root : Node
  current : List String := []
  limits : Limits := {}

/-- The entries from the root down to one that has been reached, the last one first. -/
abbrev Trail := List (String × Node)

/-- The names on the way from the root. -/
def Trail.place (t : Trail) : List String := (t.map Prod.fst).reverse

namespace Disk

def here (d : Disk) : Path := .ofNames d.current

/-! ### Following paths -/

/-- Why a path leads nowhere. -/
inductive LookupError where
  | missing | notADirectory | tooLong
  deriving DecidableEq

/-- The entry at the end of a trail. -/
def reached (d : Disk) (t : Trail) : Node := (t.head?.map Prod.snd).getD d.root

/-- Follows one component. Nothing lies above the root. -/
def step (d : Disk) (t : Trail) (component : String) : Except LookupError Trail :=
  match d.reached t with
  | .directory entries =>
    if component == "" || component == "." then .ok t
    else if component == ".." then .ok t.tail
    else if d.limits.name < component.utf8ByteSize then .error .tooLong
    else match entries.lookup component with
      | some node => .ok ((component, node) :: t)
      | none => .error .missing
  | _ => .error .notADirectory

def follow (d : Disk) (t : Trail) (components : List String) : Except LookupError Trail :=
  components.foldlM d.step t

/-- Where a path starts. -/
def start (d : Disk) (p : Path) : Trail :=
  if p.isAbsolute then [] else (d.follow [] d.current).toOption.getD []

/-- The part of a path that the disk sees, unless that is too long. -/
def accept (d : Disk) (p : Path) : Except LookupError Path :=
  if p.visible.isEmpty then .error .missing
  else if d.limits.path < p.visible.text.utf8ByteSize then .error .tooLong
  else .ok p.visible

/-- The way to an existing entry. -/
def locate (d : Disk) (p : Path) : Except LookupError Trail :=
  (d.accept p).bind fun p => d.follow (d.start p) p.components

def node? (d : Disk) (p : Path) : Option Node := (d.locate p).toOption.map d.reached

def exists? (d : Disk) (p : Path) : Bool := (d.node? p).isSome

def isDirectory (d : Disk) (p : Path) : Bool := ((d.node? p).map Node.isDirectory).getD false

/-- The text of a file; everything else that can be opened is read as empty. -/
def read (d : Disk) (p : Path) : Option String :=
  (d.node? p).map fun
    | .file content => content
    | _ => ""

/-! ### Changes -/

/-- The place of a new entry of the given name behind a trail. -/
def placeIn (d : Disk) (t : Trail) (name : String) : Except LookupError (List String) :=
  if !(d.reached t).isDirectory then .error .notADirectory
  else if ["", ".", ".."].contains name then .error .missing
  else if d.limits.name < name.utf8ByteSize then .error .tooLong
  else .ok (t.place ++ [name])

/-- The place at which a path names an entry that may be created or replaced. -/
def newPlace (d : Disk) (p : Path) : Except LookupError (List String) :=
  (d.accept p).bind fun p =>
    (d.follow (d.start p) p.components.dropLast).bind fun t => d.placeIn t p.fileName

def set (d : Disk) (place : List String) (node : Node) : Disk :=
  { d with root := Node.put place node d.root }

inductive WriteError where
  | cannotOpen | cannotWrite
  deriving DecidableEq

/-- Writes a file, over its old content if there is one. -/
def write (d : Disk) (p : Path) (text : String) : Except WriteError Disk :=
  match d.newPlace p with
  | .error _ => .error .cannotOpen
  | .ok place =>
    match d.root.find? place with
    | some (.directory _) => .error .cannotOpen
    | some (.device capacity) =>
      if text.utf8ByteSize < capacity then .ok d else .error .cannotWrite
    | _ => .ok (d.set place (.file text))

/-- Why an entry cannot be created or removed. -/
inductive EntryError where
  | invalidArgument | missing | notADirectory | taken | tooLong | notEmpty
  deriving DecidableEq

namespace EntryError

def message : EntryError → String
  | invalidArgument => "Invalid argument"
  | missing => "No such file or directory"
  | notADirectory => "Not a directory"
  | taken => "File exists"
  | tooLong => "File name too long"
  | notEmpty => "Directory not empty"

def ofLookup : LookupError → EntryError
  | .missing => missing
  | .notADirectory => notADirectory
  | .tooLong => tooLong

end EntryError

/-- The disk without the entry at the end of a trail. The root stays. -/
def erase (d : Disk) : Trail → Disk
  | [] => d
  | (name, _) :: above =>
    match d.reached above with
    | .directory entries =>
      d.set (Trail.place above) (.directory (entries.filter fun e => e.1 != name))
    | _ => d

/-- Removes an entry, if there is one. A directory has to be empty, and a dot is no name
for it. -/
def remove (d : Disk) (p : Path) : Except EntryError Disk :=
  match d.locate p with
  | .error .missing => .ok d
  | .error e => .error (.ofLookup e)
  | .ok t =>
    if p.visible.names.getLast? == some "." then .error .invalidArgument
    else match d.reached t with
      | .directory (_ :: _) => .error .notEmpty
      | _ => .ok (d.erase t)

/-! ### Directories -/

/-- Creates one directory, unless it is there already. -/
def makeDirectory (d : Disk) (p : Path) : Except EntryError Disk :=
  match d.locate p with
  | .ok t => if (d.reached t).isDirectory then .ok d else .error .taken
  | .error _ =>
    match d.newPlace p with
    | .ok place => .ok (d.set place (.directory []))
    | .error e => .error (.ofLookup e)

/-- Creates directories in turn, up to the first that cannot be created. -/
def makeEach (d : Disk) : List Path → Disk × Option EntryError
  | [] => (d, none)
  | p :: ps =>
    match d.makeDirectory p with
    | .ok d => d.makeEach ps
    | .error e => (d, some e)

/-- The directories to create for a path, from the top down. The path is given by its
names, backwards, and goes up to the first part of it that exists, which has to be a
directory. `room` is the number of directories that may still be created. -/
def toCreate (d : Disk) (isAbsolute : Bool) (room : Nat) :
    List String → Except EntryError (List Path)
  | [] => .ok []
  | name :: above =>
    let isDots := name == "." || name == ".."
    let new := if isDots then [] else [Path.ofComponents isAbsolute (name :: above).reverse]
    if room < new.length then .error .tooLong
    else if above = [] then .ok new
    else match d.locate (.ofComponents isAbsolute above.reverse) with
      | .ok t => if (d.reached t).isDirectory then .ok new else .error .notADirectory
      | .error .missing => (d.toCreate isAbsolute (room - new.length) above).map (· ++ new)
      | .error e => .error (.ofLookup e)

/-- Creates a directory and all that are missing above it. -/
def makeDirectories (d : Disk) (p : Path) : Disk × Option EntryError :=
  if p.isEmpty then (d, some .invalidArgument)
  else match d.locate p with
    | .ok t => (d, if (d.reached t).isDirectory then none else some .notADirectory)
    | .error .tooLong => (d, some .tooLong)
    | .error _ =>
      match d.toCreate p.isAbsolute d.limits.directories p.names.reverse with
      | .ok new => d.makeEach new
      | .error e => (d, some e)

end Disk

end ScriptBridge
