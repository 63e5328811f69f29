import Mathlib
import ScriptBridge.Proofs.Engine.CatalogCalls

/-! The tables behind a catalog. The types of the engine stand in two tables, one of their
descriptions and one of the entries that a name is looked up in, and an entry holds the namespace
that was set when it was made. Setting another namespace goes through all entries. Proved: after
any calls a name has an entry exactly if it has a description, with the namespace set last; the
answers of the tables are those of the catalog, and both are settled by the accepted calls. -/

namespace ScriptBridge

/-- An entry that a name is looked up in. -/
structure AvailableType where
  name : String
  namespaceName : Option String
  isNative : Bool
  deriving DecidableEq

namespace AvailableType

def ofEngine (name namespaceName : String) : AvailableType := ⟨name, some namespaceName, true⟩

def ofProject (t : ProjectType) : AvailableType := ⟨t.name, t.namespaceName, false⟩

/-- The entry that an answer of a catalog stands for. -/
def ofFound : FoundType → AvailableType
  | .engine name namespaceName => ofEngine name namespaceName
  | .project t => ofProject t

end AvailableType

structure CatalogTables where
  engineNamespace : String := "Godot"
  rootType : String := "GodotObject"
  engineTypes : Std.TreeMap String EngineType := ∅
  engineEntries : Std.TreeMap String AvailableType := ∅
  projectTypes : Std.TreeMap String AvailableType := ∅

namespace CatalogTables

/-! ### Calls -/

/-- Puts a value under a key that is not taken. -/
def emplace {α : Type} (m : Std.TreeMap String α) (key : String) (value : α) :
    Std.TreeMap String α :=
  if key ∈ m then m else m.insert key value

def setNamespace (t : CatalogTables) (name : String) : CatalogTables :=
  { t with
    engineNamespace := name
    engineEntries := t.engineEntries.map fun _ entry => { entry with namespaceName := some name } }

def addEngineType (t : CatalogTables) (type : EngineType) : CatalogTables × Bool :=
  if type.name = "" ∨ type.name ∈ t.engineTypes then (t, false)
  else
    ({ t with
      engineEntries := emplace t.engineEntries type.name (.ofEngine type.name t.engineNamespace)
      engineTypes := emplace t.engineTypes type.name type.declared }, true)

def addProjectType (t : CatalogTables) (name namespaceName : String) : CatalogTables × Bool :=
  if name = "" then (t, false)
  else
    let entry : AvailableType :=
      ⟨name, if namespaceName = "" then none else some namespaceName, false⟩
    ({ t with projectTypes := emplace t.projectTypes name entry }, decide (name ∉ t.projectTypes))

/-- The tables behind a call, and whether it is accepted. -/
def apply (t : CatalogTables) : CatalogCall → CatalogTables × Bool
  | .setNamespace name => (t.setNamespace name, true)
  | .setRoot name => ({ t with rootType := name }, true)
  | .addEngineType type => t.addEngineType type
  | .addProjectType name namespaceName => t.addProjectType name namespaceName

def applyAll (t : CatalogTables) (calls : List CatalogCall) : CatalogTables :=
  calls.foldl (fun t x => (t.apply x).1) t

/-- The calls that are accepted when all are made one after another. -/
def accepted (t : CatalogTables) : List CatalogCall → List CatalogCall
  | [] => []
  | x :: calls =>
    if (t.apply x).2 then x :: accepted (t.apply x).1 calls else accepted (t.apply x).1 calls

/-! ### Answers -/

def findEngineType (t : CatalogTables) (name : String) : Option EngineType := t.engineTypes[name]?

/-- The entry of a name; a type of the project hides one of the engine. -/
def lookup (t : CatalogTables) (name : String) : Option AvailableType :=
  match t.projectTypes[name]? with
  | some entry => some entry
  | none => t.engineEntries[name]?

variable {t : CatalogTables} {c : Catalog} {x : CatalogCall} {calls : List CatalogCall}

section Emplace

variable {α : Type} {m : Std.TreeMap String α} {key : String} {value : α}

theorem emplace_of_mem (h : key ∈ m) : emplace m key value = m := if_pos h

theorem getElem?_emplace (h : key ∉ m) (n : String) :
    (emplace m key value)[n]? = if key = n then some value else m[n]? := by
  rw [emplace, if_neg h, Std.TreeMap.getElem?_insert]
  simp only [Std.compare_eq_iff_eq]

theorem size_emplace (h : key ∉ m) : (emplace m key value).size = m.size + 1 := by
  rw [emplace, if_neg h, Std.TreeMap.size_insert, if_neg (by simpa using h)]

end Emplace

/-! ### Tables in step with a catalog -/

/-- Tables that give the answers of a catalog. The entries of the engine's types are in step with
their descriptions, and all of them hold the namespace of now. -/
structure InStep (t : CatalogTables) (c : Catalog) : Prop where
  engineNamespace : t.engineNamespace = c.engineNamespace
  rootType : t.rootType = c.rootType
  engineTypes : ∀ n, t.engineTypes[n]? = c.findEngineType n
  engineEntries : ∀ n, t.engineEntries[n]? =
    (t.engineTypes[n]?).map fun _ => AvailableType.ofEngine n t.engineNamespace
  projectTypes : ∀ n, t.projectTypes[n]? = (c.findProjectType n).map AvailableType.ofProject
  engineCount : t.engineTypes.size = c.engineTypes.length
  entryCount : t.engineEntries.size = c.engineTypes.length
  projectCount : t.projectTypes.size = c.projectTypes.length

namespace InStep

theorem fresh : InStep {} {} where
  engineNamespace := rfl
  rootType := rfl
  engineTypes _ := Std.TreeMap.getElem?_emptyc
  engineEntries _ := by simp
  projectTypes _ := Std.TreeMap.getElem?_emptyc
  engineCount := rfl
  entryCount := rfl
  projectCount := rfl

theorem mem_engineTypes (h : t.InStep c) (n : String) :
    n ∈ t.engineTypes ↔ c.isEngineType n = true := by
  rw [Std.TreeMap.mem_iff_isSome_getElem?, h.engineTypes, Catalog.isEngineType]

theorem mem_engineEntries (h : t.InStep c) (n : String) :
    n ∈ t.engineEntries ↔ n ∈ t.engineTypes := by
  rw [Std.TreeMap.mem_iff_isSome_getElem?, h.engineEntries, Option.isSome_map,
    Std.TreeMap.mem_iff_isSome_getElem?]

theorem mem_projectTypes (h : t.InStep c) (n : String) :
    n ∈ t.projectTypes ↔ (c.findProjectType n).isSome = true := by
  rw [Std.TreeMap.mem_iff_isSome_getElem?, h.projectTypes, Option.isSome_map]

/-- A name stands for the last type of a list only if none before it has the name. -/
theorem find?_concat {α : Type} (name : α → String) {l : List α} (a : α)
    (hnew : l.find? (name · == name a) = none) (n : String) :
    (l ++ [a]).find? (name · == n) = if name a = n then some a else l.find? (name · == n) := by
  rw [List.find?_append]
  split_ifs with hn
  · subst hn
    simp [hnew]
  · simp [hn]

theorem setNamespace (h : t.InStep c) (name : String) :
    (t.setNamespace name).InStep { c with engineNamespace := name } where
  engineNamespace := rfl
  rootType := h.rootType
  engineTypes := h.engineTypes
  engineEntries n := by
    -- every entry is written anew, and so has the namespace of now whenever it was made
    rw [CatalogTables.setNamespace, Std.TreeMap.getElem?_map, h.engineEntries, Option.map_map]
    rfl
  projectTypes := h.projectTypes
  engineCount := h.engineCount
  entryCount := Std.TreeMap.size_map.trans h.entryCount
  projectCount := h.projectCount

theorem addEngineType (h : t.InStep c) (type : EngineType) :
    (t.addEngineType type).1.InStep ((c.addEngineType type).getD c) ∧
      (t.addEngineType type).2 = (c.addEngineType type).isSome := by
  rw [CatalogTables.addEngineType, Catalog.addEngineType]
  by_cases hrefused : type.name = "" ∨ type.name ∈ t.engineTypes
  · have hc : (type.name == "" || c.isEngineType type.name) = true := by
      simpa [← h.mem_engineTypes] using hrefused
    rw [if_pos hrefused, if_pos hc]
    exact ⟨h, rfl⟩
  · have hc : ¬(type.name == "" || c.isEngineType type.name) = true := by
      simpa [← h.mem_engineTypes] using hrefused
    have hnew : type.name ∉ t.engineTypes := fun hmem => hrefused (.inr hmem)
    have hentry : type.name ∉ t.engineEntries := mt (h.mem_engineEntries _).1 hnew
    have hfind : c.engineTypes.find? (·.name == type.name) = none := by
      rw [← Catalog.findEngineType, ← h.engineTypes]
      exact Std.TreeMap.getElem?_eq_none hnew
    rw [if_neg hrefused, if_neg hc]
    refine ⟨?_, rfl⟩
    constructor
    case engineTypes =>
      intro n
      rw [getElem?_emplace hnew, h.engineTypes]
      exact (find?_concat EngineType.name type.declared hfind n).symm
    case engineEntries =>
      intro n
      rw [getElem?_emplace hentry, getElem?_emplace hnew, h.engineEntries]
      split_ifs with hn
      · rw [hn]
        rfl
      · rfl
    case engineCount => simp [size_emplace hnew, h.engineCount]
    case entryCount => simp [size_emplace hentry, h.entryCount]
    all_goals first | exact h.engineNamespace | exact h.rootType | exact h.projectTypes |
      exact h.projectCount

theorem addProjectType (h : t.InStep c) (name namespaceName : String) :
    (t.addProjectType name namespaceName).1.InStep ((c.addProjectType name namespaceName).getD c) ∧
      (t.addProjectType name namespaceName).2 = (c.addProjectType name namespaceName).isSome := by
  rw [CatalogTables.addProjectType, Catalog.addProjectType]
  by_cases hempty : name = ""
  · rw [if_pos hempty, if_pos (by simp [hempty])]
    exact ⟨h, rfl⟩
  rw [if_neg hempty]
  by_cases hmem : name ∈ t.projectTypes
  · have hc : (name == "" || (c.findProjectType name).isSome) = true := by
      rw [(h.mem_projectTypes name).1 hmem, Bool.or_true]
    rw [if_pos hc]
    simp only [emplace_of_mem hmem, hmem, not_true_eq_false, decide_false]
    exact ⟨h, rfl⟩
  · have hc : ¬(name == "" || (c.findProjectType name).isSome) = true := by
      simpa [hempty, ← h.mem_projectTypes] using hmem
    have hfind : c.projectTypes.find? (·.name == name) = none := by
      rw [← Catalog.findProjectType, ← Option.map_eq_none_iff (f := AvailableType.ofProject),
        ← h.projectTypes]
      exact Std.TreeMap.getElem?_eq_none hmem
    rw [if_neg hc]
    refine ⟨?_, by simp [hmem]⟩
    constructor
    case projectTypes =>
      intro n
      have hconcat := find?_concat ProjectType.name (.ofNames name namespaceName) hfind n
      rw [getElem?_emplace hmem, h.projectTypes]
      refine Eq.trans ?_ (congrArg (Option.map AvailableType.ofProject) hconcat.symm)
      simp only [ProjectType.ofNames, apply_ite (Option.map AvailableType.ofProject), beq_iff_eq]
      rfl
    case projectCount => exact (size_emplace hmem).trans (by simp [h.projectCount])
    all_goals first | exact h.engineNamespace | exact h.rootType | exact h.engineTypes |
      exact h.engineEntries | exact h.engineCount | exact h.entryCount

/-- One call leaves tables in step, and they accept what the catalog accepts. -/
theorem apply (h : t.InStep c) (x : CatalogCall) :
    (t.apply x).1.InStep (x.apply c) ∧ (t.apply x).2 = x.isAccepted c := by
  cases x with
  | setNamespace name => exact ⟨h.setNamespace name, rfl⟩
  | setRoot name => exact ⟨{ h with rootType := rfl }, rfl⟩
  | addEngineType type => exact h.addEngineType type
  | addProjectType name namespaceName => exact h.addProjectType name namespaceName

/-- Any calls leave tables in step, and both accept the same of them. -/
theorem applyAll (h : t.InStep c) (calls : List CatalogCall) :
    (t.applyAll calls).InStep (CatalogCall.applyAll c calls) ∧
      t.accepted calls = CatalogCall.accepted c calls := by
  induction calls generalizing t c with
  | nil => exact ⟨h, rfl⟩
  | cons x calls ih =>
    obtain ⟨hstep, haccepted⟩ := h.apply x
    obtain ⟨hall, hcalls⟩ := ih hstep
    exact ⟨hall, by rw [accepted, CatalogCall.accepted, haccepted, hcalls]⟩

theorem lookup_eq (h : t.InStep c) (n : String) :
    t.lookup n = (c.find n).map AvailableType.ofFound := by
  rw [lookup, h.projectTypes, Catalog.find]
  cases c.findProjectType n with
  | some p => rfl
  | none =>
    rw [Option.map_none, h.engineEntries, h.engineTypes, h.engineNamespace, Option.map_map]
    refine Option.map_congr fun e he => ?_
    have hname : e.name = n := by simpa using List.find?_some he
    rw [Function.comp_apply, AvailableType.ofFound, hname]

end InStep

/-! ### Refused calls -/

/-- A refused call leaves the tables as they are. -/
theorem apply_of_refused (h : (t.apply x).2 = false) : (t.apply x).1 = t := by
  cases x with
  | setNamespace | setRoot => cases h
  | addEngineType type =>
    rw [apply, addEngineType] at h ⊢
    split_ifs at h ⊢
    rfl
  | addProjectType name namespaceName =>
    rw [apply, addProjectType] at h ⊢
    by_cases hempty : name = ""
    · rw [if_pos hempty]
    · rw [if_neg hempty] at h ⊢
      have hmem : name ∈ t.projectTypes := by simpa using h
      simp only [emplace_of_mem hmem]

/-- Without a refused call the tables and the accepted calls are the same. -/
theorem applyAll_of_refused {before : List CatalogCall}
    (h : ((t.applyAll before).apply x).2 = false) (after : List CatalogCall) :
    t.applyAll (before ++ x :: after) = t.applyAll (before ++ after) ∧
      t.accepted (before ++ x :: after) = t.accepted (before ++ after) := by
  induction before generalizing t with
  | nil =>
    have hx : (t.apply x).2 = false := h
    have hsame : (t.apply x).1 = t := apply_of_refused hx
    constructor
    · change ((t.apply x).1).applyAll after = t.applyAll after
      rw [hsame]
    · rw [List.nil_append, List.nil_append, accepted, hsame]
      exact if_neg (by simp [hx])
  | cons y before ih =>
    obtain ⟨hall, haccepted⟩ := ih (t := (t.apply y).1) h
    exact ⟨hall, by rw [List.cons_append, List.cons_append, accepted, accepted, haccepted]⟩

/-! ### Any calls on fresh tables -/

open CatalogCall (engineType? projectType? lastNamespace) in
/-- The answers of the tables behind any calls. An engine type is the first accepted one of its
name, with its members declared by it, and there is one for each name offered. A name has an entry
of the engine exactly if it has a description, and the entry holds the namespace set last; a type
of the project hides it. A type is refused for its name only, and a refused one makes no
difference. The tables hold as many types as were accepted, and the catalog of the same calls gives
the same answers. -/
theorem applyAll_answers (calls : List CatalogCall) :
    let t := applyAll {} calls
    let engineTypes := (accepted {} calls).filterMap engineType?
    let projectTypes := (accepted {} calls).filterMap projectType?
    (∀ n, t.findEngineType n = engineTypes.find? (·.name == n)) ∧
    (∀ n e, t.findEngineType n = some e → e.name = n ∧ ∀ m ∈ e.members, m.declaringType = n) ∧
    (∀ n, t.findEngineType n = none ↔
      ¬∃ e, CatalogCall.addEngineType e ∈ calls ∧ e.name = n ∧ n ≠ "") ∧
    (∀ n, t.engineEntries[n]? = (t.findEngineType n).map fun _ =>
      AvailableType.ofEngine n (lastNamespace {} calls)) ∧
    (∀ n, t.lookup n =
      match projectTypes.find? (·.name == n) with
      | some p => some (.ofProject p)
      | none => (t.findEngineType n).map fun _ => .ofEngine n (lastNamespace {} calls)) ∧
    (∀ x : CatalogCall, (t.apply x).2 = false ↔
      (∃ e, engineType? x = some e ∧ (e.name = "" ∨ ∃ u ∈ engineTypes, u.name = e.name)) ∨
        ∃ p, projectType? x = some p ∧ (p.name = "" ∨ ∃ q ∈ projectTypes, q.name = p.name)) ∧
    (∀ before x after, calls = before ++ x :: after → ((applyAll {} before).apply x).2 = false →
      applyAll {} (before ++ after) = t ∧ accepted {} (before ++ after) = accepted {} calls) ∧
    (t.engineTypes.size = engineTypes.length ∧ t.engineEntries.size = engineTypes.length ∧
      t.projectTypes.size = projectTypes.length) ∧
    t.InStep (CatalogCall.applyAll {} calls) ∧
    ∀ n, t.lookup n = ((CatalogCall.applyAll {} calls).find n).map AvailableType.ofFound := by
  intro t engineTypes projectTypes
  let c := CatalogCall.applyAll {} calls
  obtain ⟨hstep, haccepted⟩ : t.InStep c ∧ accepted {} calls = CatalogCall.accepted {} calls :=
    InStep.fresh.applyAll calls
  obtain ⟨hengine, hproject⟩ : c.engineTypes = engineTypes ∧ c.projectTypes = projectTypes := by
    simp only [engineTypes, projectTypes, haccepted]
    exact CatalogCall.types_accepted {} calls
  have hfind (n) : t.findEngineType n = c.findEngineType n := hstep.engineTypes n
  have hnamespace : t.engineNamespace = lastNamespace {} calls :=
    hstep.engineNamespace.trans (CatalogCall.engineNamespace_applyAll {} calls)
  refine ⟨fun n => ?_, fun n e he => ?_, fun n => ?_, fun n => ?_, fun n => ?_, fun x => ?_,
    fun before x after h hx => ?_, ⟨?_, ?_, ?_⟩, hstep, hstep.lookup_eq⟩
  · rw [hfind, Catalog.findEngineType, hengine]
  · exact CatalogCall.declared_of_findEngineType (hfind n ▸ he)
  · rw [hfind]
    exact CatalogCall.findEngineType_eq_none_iff calls n
  · rw [hstep.engineEntries, hnamespace]
    rfl
  · rw [lookup, hstep.projectTypes, Catalog.findProjectType, hproject]
    cases projectTypes.find? (·.name == n) with
    | some p => rfl
    | none => exact (hstep.engineEntries n).trans (by rw [hnamespace]; rfl)
  · rw [(hstep.apply x).2, CatalogCall.refused_iff, hengine, hproject]
  · subst h
    obtain ⟨htables, hcalls⟩ := applyAll_of_refused hx after
    exact ⟨htables.symm, hcalls.symm⟩
  · rw [hstep.engineCount, hengine]
  · rw [hstep.entryCount, hengine]
  · rw [hstep.projectCount, hproject]

end CatalogTables

end ScriptBridge
