import ScriptBridge.Engine.Member

/-! The catalog of types that one run can see: the engine's types with their
members, and the types of the user's own project. A name stands for at most one
type of each sort, and a second type of the same name is refused. -/

namespace ScriptBridge

structure EngineType where
  name : String
  base : Option String := none
  members : List Member := []
  deriving DecidableEq

structure ProjectType where
  name : String
  namespaceName : Option String := none
  deriving DecidableEq

/-- A type found by its name. -/
inductive FoundType where
  | engine (name namespaceName : String)
  | project (type : ProjectType)
  deriving DecidableEq

structure Catalog where
  engineNamespace : String := "Godot"
  rootType : String := "GodotObject"
  engineTypes : List EngineType := []
  projectTypes : List ProjectType := []

namespace Catalog

def findEngineType (c : Catalog) (name : String) : Option EngineType :=
  c.engineTypes.find? (·.name == name)

def findProjectType (c : Catalog) (name : String) : Option ProjectType :=
  c.projectTypes.find? (·.name == name)

def isEngineType (c : Catalog) (name : String) : Bool := (c.findEngineType name).isSome

/-- The type of a name; a type of the project hides one of the engine. -/
def find (c : Catalog) (name : String) : Option FoundType :=
  match c.findProjectType name with
  | some type => some (.project type)
  | none => (c.findEngineType name).map fun t => .engine t.name c.engineNamespace

/-- Adds an engine type, whose members become declarations of it, unless its name is
empty or taken. -/
def addEngineType (c : Catalog) (type : EngineType) : Option Catalog :=
  if type.name == "" || c.isEngineType type.name then none
  else
    let members := type.members.map fun m => { m with declaringType := type.name }
    some { c with engineTypes := c.engineTypes ++ [{ type with members }] }

/-- Adds a project type, unless its name is empty or taken. An empty namespace is none. -/
def addProjectType (c : Catalog) (name namespaceName : String) : Option Catalog :=
  if name == "" || (c.findProjectType name).isSome then none
  else
    let type := { name, namespaceName := if namespaceName == "" then none else some namespaceName }
    some { c with projectTypes := c.projectTypes ++ [type] }

theorem length_filter_lt {α : Type} {p : α → Bool} {l : List α} {a : α} (ha : a ∈ l)
    (hp : p a = false) : (l.filter p).length < l.length := by
  refine Nat.lt_of_le_of_ne (List.length_filter_le p l) fun h => ?_
  have := List.length_filter_eq_length_iff.1 h a ha
  simp [hp] at this

/-- The types of another name. -/
def without (types : List EngineType) (name : String) : List EngineType :=
  types.filter (·.name != name)

/-- The described types from `name` towards the root. A type once met is taken out of
the list, so a circle of descriptions ends where it closes. -/
def chainIn (types : List EngineType) (name : String) : List EngineType :=
  match _h : types.find? (·.name == name) with
  | none => []
  | some t =>
    match t.base with
    | none => [t]
    | some base => t :: chainIn (without types name) base
termination_by types.length
decreasing_by
  refine length_filter_lt (List.mem_of_find?_eq_some _h) ?_
  have : t.name = name := by simpa using List.find?_some _h
  simp [this]

def chain (c : Catalog) (name : String) : List EngineType := chainIn c.engineTypes name

/-- The members that a proxy of the engine type forwards, its own and inherited ones:
of several with one signature only the nearest. -/
def membersOf (c : Catalog) (name : String) : List Member :=
  Member.keepFirst [] ((c.chain name).flatMap fun t => t.members.filter Member.isEligible)

end Catalog

end ScriptBridge
