import ScriptBridge.Bridge.Plan
import ScriptBridge.Lists
import ScriptBridge.Script.Declaration
import ScriptBridge.Script.Fault

/-! The lineage of each class: what its bridge extends, and from which engine type it
descends. Each class has one edge, to an engine type, to another class or to nothing
known. Visits follow the edges from every class in turn, over the classes that no visit
has reached before. A circle that they run into is cut out of their path, and its classes
have no lineage and no bridge; the others copy the answer of the class they extend, the
last ancestor first. -/

namespace ScriptBridge

inductive LineageStatus where
  | resolved | unresolvedBase | cyclic
  deriving DecidableEq

namespace LineageStatus

def name : LineageStatus → String
  | resolved => "resolved"
  | unresolvedBase => "unresolved-base"
  | cyclic => "cyclic-inheritance"

end LineageStatus

/-- What is wrong with a lineage. -/
inductive LineageProblem where
  | duplicateClass (className firstPath : String)
  | circle (className : String) (members : List String)
  | missingBase (className base : String)
  | baseOnCircle (className base : String)
  | baseUnresolved (className base : String)
  | undescribedRoot (engineType : String)
  deriving DecidableEq

namespace LineageProblem

def code : LineageProblem → String
  | duplicateClass .. => "GDB-W3101"
  | circle .. => "GDB-E3102"
  | missingBase .. => "GDB-W3103"
  | baseOnCircle .. => "GDB-W3104"
  | baseUnresolved .. => "GDB-W3104"
  | undescribedRoot .. => "GDB-W3105"

/-- Only a circle keeps a class from having a bridge. -/
def isWarning : LineageProblem → Bool
  | circle .. => false
  | _ => true

def message : LineageProblem → String
  | duplicateClass className firstPath =>
    "class '" ++ className ++ "' is already declared by '" ++ firstPath ++
      "'; this declaration is ignored"
  | circle className members =>
    "class '" ++ className ++ "' has cyclic inheritance (" ++
      " -> ".intercalate (members ++ members.take 1) ++ ")"
  | missingBase className base =>
    "base '" ++ base ++ "' of class '" ++ className ++ "' matches no script class or native type"
  | baseOnCircle className base =>
    "class '" ++ className ++ "' extends '" ++ base ++ "', which has cyclic inheritance"
  | baseUnresolved className base =>
    "class '" ++ className ++ "' extends '" ++ base ++ "', whose base chain is unresolved"
  | undescribedRoot engineType =>
    "native type '" ++ engineType ++
      "' is not described by the native API; its proxy forwards no members"

def diagnostic (subject : String) (p : LineageProblem) : Diagnostic :=
  { code := p.code, message := p.message, subject, isWarning := p.isWarning }

end LineageProblem

/-- A class with its plan and its place among the scripts. -/
structure Candidate where
  index : Nat
  script : ScriptClass
  plan : Plan

/-- What a class extends. -/
inductive Edge where
  | engine (name : String)
  | script (place : Nat)
  | missing (name : String)
  deriving DecidableEq

/-- The lineage found for a class. -/
structure Lineage where
  index : Nat
  typeName : String
  namespaceName : String
  baseName : String := ""
  rootName : String := ""
  baseIsNative : Bool := false
  status : LineageStatus := .resolved
  emitted : Bool := true
  deriving DecidableEq

namespace Lineage

/-! ### Classes and edges -/

/-- The first class of each name, and the complaints about the others. -/
def keepFirst (kept : List Candidate) : List Candidate → List Candidate × List Diagnostic
  | [] => (kept, [])
  | c :: cs =>
    match kept.find? (·.script.name == c.script.name) with
    | some first =>
      let r := keepFirst kept cs
      let problem : LineageProblem := .duplicateClass c.script.name first.script.path
      (r.1, problem.diagnostic c.script.path :: r.2)
    | none => keepFirst (kept ++ [c]) cs

/-- A path with slashes only. -/
def slashed (path : String) : String :=
  String.ofList (path.toList.map fun c => if c = '\\' then '/' else c)

/-- The edge of a class among classes of the given names and slashed paths. -/
def edgeOf (catalog : Catalog) (names paths : List String) (script : ScriptClass) : Edge :=
  match script.base.map Prod.fst with
  | none => .engine catalog.rootType
  | some (.engine kind) => .engine kind.typeName
  | some (.named name) =>
    match names.idxOf? name with
    | some place => .script place
    | none => if catalog.isEngineType name then .engine name else .missing name
  | some (.script path) =>
    match paths.idxOf? (slashed path) with
    | some place => .script place
    | none => .missing path

/-! ### Answers -/

/-- What the plan of a class says of its lineage. -/
def planned (c : Candidate) : Lineage where
  index := c.index
  typeName := c.plan.typeName
  namespaceName := c.plan.namespaceName
  emitted := c.plan.emitted

/-- A class on a circle has neither a base nor a bridge. -/
def cyclic (l : Lineage) : Lineage :=
  { l with
    status := .cyclic
    baseName := unresolvedName
    rootName := unresolvedName
    baseIsNative := false
    emitted := false }

/-- Nothing is known of what a class extends. -/
def unresolved (l : Lineage) : Lineage :=
  { l with
    status := .unresolvedBase
    baseName := unresolvedName
    rootName := unresolvedName
    baseIsNative := false }

/-- A class that extends an engine type. -/
def onEngine (l : Lineage) (name : String) : Lineage :=
  { l with status := .resolved, baseName := proxyName name, rootName := name, baseIsNative := true }

/-- The bridge of a class extends that of its base class. If none is written for that one, it
extends what the other would extend. -/
def onClass (l base : Lineage) : Lineage :=
  if base.emitted then
    { l with baseName := qualifiedName base.typeName base.namespaceName, baseIsNative := false }
  else { l with baseName := base.baseName, baseIsNative := base.baseIsNative }

end Lineage

/-! ### Visits -/

/-- How far the visits have come with a class. -/
inductive Mark where
  | unvisited | inProgress | done
  deriving DecidableEq

/-- A class with its edge, the mark of the visits, and the lineage found so far. -/
structure LineageNode where
  candidate : Candidate
  edge : Edge
  mark : Mark := .unvisited
  lineage : Lineage := Lineage.planned candidate

namespace LineageNode

def name (n : LineageNode) : String := n.candidate.script.name

/-- The lineage of a class, copied from that of its base class if it extends one, and what is
wrong with it. The base class must be done. -/
def finish (catalog : Catalog) (nodes : List LineageNode) (n : LineageNode) :
    Lineage × Option LineageProblem :=
  let l := n.lineage
  match n.edge with
  | .engine engineType =>
    (l.onEngine engineType,
      if catalog.isEngineType engineType then none else some (.undescribedRoot engineType))
  | .missing base => (l.unresolved, some (.missingBase n.name base))
  | .script target =>
    match nodes[target]? with
    | none => (l, none)
    | some base =>
      match base.lineage.status with
      | .cyclic => (l.unresolved, some (.baseOnCircle n.name base.name))
      | .unresolvedBase =>
        (({ l with status := .unresolvedBase, rootName := unresolvedName } : Lineage).onClass
            base.lineage,
          some (.baseUnresolved n.name base.name))
      | .resolved =>
        (({ l with status := .resolved, rootName := base.lineage.rootName } : Lineage).onClass
            base.lineage,
          none)

end LineageNode

/-- The nodes and the messages after some visits. -/
structure Resolution where
  nodes : List LineageNode
  diagnostics : List Diagnostic := []

namespace Resolution

/-- A class in progress is no longer among the unvisited ones. -/
theorem countP_unvisited_lt {nodes : List LineageNode} {place : Nat} {n : LineageNode}
    (h : nodes[place]? = some n) (hn : n.mark = .unvisited) :
    (nodes.set place { n with mark := .inProgress }).countP (·.mark == .unvisited) <
      nodes.countP (·.mark == .unvisited) := by
  obtain ⟨hlt, hget⟩ := List.getElem?_eq_some_iff.1 h
  have hpos : 0 < nodes.countP (·.mark == .unvisited) :=
    List.countP_pos_iff.2 ⟨n, List.mem_of_getElem? h, by simp [hn]⟩
  rw [List.countP_set hlt, hget, hn]
  exact Nat.sub_lt hpos Nat.one_pos

/-- Follows edges from `place` over unvisited classes, which are in progress from then on. The
path is what was met, in order. -/
def enterFrom (nodes : List LineageNode) (place : Nat) : List LineageNode × List Nat :=
  match _h : nodes[place]? with
  | none => (nodes, [])
  | some n =>
    if _hn : n.mark = .unvisited then
      let nodes' := nodes.set place { n with mark := .inProgress }
      match n.edge with
      | .script target =>
        let r := enterFrom nodes' target
        (r.1, place :: r.2)
      | _ => (nodes', [place])
    else (nodes, [])
termination_by nodes.countP (·.mark == .unvisited)
decreasing_by exact countP_unvisited_lt _h _hn

/-- Cuts a path at the class in progress that its last edge leads back to. From there on it is
a circle. -/
def cutCircle (nodes : List LineageNode) (path : List Nat) : List Nat × List Nat :=
  match (path.getLast?.bind (nodes[·]?)).map LineageNode.edge with
  | some (.script target) =>
    if nodes[target]?.map LineageNode.mark = some .inProgress then
      (path.takeWhile (· != target), path.dropWhile (· != target))
    else (path, [])
  | _ => (path, [])

/-- The class at `place` is done, with a lineage, and what is wrong with it is reported. -/
def close (r : Resolution) (place : Nat) (answer : LineageNode → Lineage × Option LineageProblem) :
    Resolution :=
  match r.nodes[place]? with
  | none => r
  | some n =>
    { nodes := r.nodes.set place { n with mark := .done, lineage := (answer n).1 }
      diagnostics :=
        r.diagnostics ++ ((answer n).2.map (·.diagnostic n.candidate.script.path)).toList }

/-- The classes of a circle are done, and each is reported with the names of all. -/
def markCyclic (r : Resolution) (circle : List Nat) : Resolution :=
  let names := circle.filterMap fun place => r.nodes[place]?.map LineageNode.name
  circle.foldl
    (fun r place => r.close place fun n => (n.lineage.cyclic, some (.circle n.name names))) r

def finishNode (catalog : Catalog) (r : Resolution) (place : Nat) : Resolution :=
  r.close place (LineageNode.finish catalog r.nodes)

/-- Visits what edges lead to from `start`. The classes off the circle depend on classes that
are done; they are finished from the last ancestor back to the start. -/
def resolveFrom (catalog : Catalog) (r : Resolution) (start : Nat) : Resolution :=
  let entered := enterFrom r.nodes start
  let cut := cutCircle entered.1 entered.2
  cut.1.reverse.foldl (finishNode catalog)
    (({ r with nodes := entered.1 } : Resolution).markCyclic cut.2)

end Resolution

/-- The lineages of all classes, in the order of their scripts. -/
structure Lineages where
  classes : List Lineage
  diagnostics : List Diagnostic

namespace Lineages

/-- The classes that count are visited from each of them in turn. -/
def ofScripts (catalog : Catalog) (scripts : List ScriptClass) (plans : List Plan) : Lineages :=
  let candidates := (scripts.zip plans).zipIdx.map fun x => ⟨x.2, x.1.1, x.1.2⟩
  let (kept, duplicates) := Lineage.keepFirst [] candidates
  let names := kept.map (·.script.name)
  let paths := kept.map fun c => Lineage.slashed c.script.path
  let nodes : List LineageNode := kept.map fun c =>
    { candidate := c, edge := Lineage.edgeOf catalog names paths c.script }
  let r := (List.range nodes.length).foldl (Resolution.resolveFrom catalog) ⟨nodes, duplicates⟩
  { classes := r.nodes.map LineageNode.lineage, diagnostics := r.diagnostics }

/-- The engine types whose proxies the bridges need. -/
def usedEngineTypes (l : Lineages) : List String :=
  sortOnce
    ((l.classes.filter fun c => c.emitted && c.status == .resolved).map Lineage.rootName)

end Lineages

end ScriptBridge
