import ScriptBridge.Engine.Kind
import ScriptBridge.Script.Token

/-! What a script declares at its top level. An empty type name stands for a
declaration without a type. -/

namespace ScriptBridge

/-- An annotation such as `@export_range(0, 10)`. -/
structure Tag where
  name : String
  arguments : List String := []
  span : Span := {}
  deriving DecidableEq

structure Parameter where
  name : String := ""
  typeName : String := ""
  hasDefault : Bool := false
  span : Span := {}
  deriving DecidableEq

structure VariableDecl where
  name : String := ""
  typeName : String := ""
  isStatic : Bool := false
  isInferred : Bool := false
  tags : List Tag := []
  span : Span := {}
  deriving DecidableEq

structure FunctionDecl where
  name : String := ""
  parameters : List Parameter := []
  returnType : Option String := none
  isStatic : Bool := false
  tags : List Tag := []
  span : Span := {}
  deriving DecidableEq

structure SignalDecl where
  name : String := ""
  parameters : List Parameter := []
  span : Span := {}
  deriving DecidableEq

/-- What a class extends: an engine class, a class of some name, or the class that
the script at a path declares. -/
inductive Base where
  | engine (kind : EngineKind)
  | named (name : String)
  | script (path : String)
  deriving DecidableEq

namespace Base

/-- The name of a class that is extended by name. -/
def ofName (name : String) : Base := (EngineKind.ofScriptName? name).elim (named name) engine

theorem ofName_eq_engine_iff {name : String} {kind : EngineKind} :
    ofName name = engine kind ↔ kind.scriptName = name := by
  rw [← EngineKind.ofScriptName?_eq_some_iff, ofName]
  cases EngineKind.ofScriptName? name <;> simp

/-- A name that no engine class has is the name of a class. -/
theorem ofName_eq_named_iff {name other : String} :
    ofName name = named other ↔ name = other ∧ ∀ kind : EngineKind, kind.scriptName ≠ other := by
  constructor
  · intro h
    have hk (kind : EngineKind) : kind.scriptName ≠ name := fun he => by
      rw [ofName_eq_engine_iff.2 he] at h
      cases h
    rw [ofName] at h
    cases ho : EngineKind.ofScriptName? name with
    | none =>
      rw [ho] at h
      obtain rfl : name = other := named.inj h
      exact ⟨rfl, hk⟩
    | some kind => exact absurd (EngineKind.ofScriptName?_eq_some_iff.1 ho) (hk kind)
  · rintro ⟨rfl, hk⟩
    rw [ofName]
    cases ho : EngineKind.ofScriptName? name with
    | none => rfl
    | some kind => exact absurd (EngineKind.ofScriptName?_eq_some_iff.1 ho) (hk kind)

/-- The text by which the script refers to its base. -/
def text : Base → String
  | engine kind => kind.scriptName
  | named name => name
  | script path => path

end Base

structure ScriptClass where
  name : String := ""
  path : String := ""
  base : Option (Base × Span) := none
  tags : List Tag := []
  vars : List VariableDecl := []
  functions : List FunctionDecl := []
  signals : List SignalDecl := []
  span : Span := {}
  deriving DecidableEq

end ScriptBridge
