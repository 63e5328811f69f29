import Mathlib.Data.List.DropRight
import Mathlib.Data.List.Forall2
import ScriptBridge.Proofs.Bridge.MemberNames
import ScriptBridge.Proofs.Text.Lines
import ScriptBridge.Proofs.Text.LiteralValues

/-! Overloads of a function. A caller may leave out parameters with a default from the end of the
list, and the script fills them in, so a function is forwarded by one method for each number of
parameters that can be given. Proved: a function whose longest run of defaults at the end has
length `k` is written as `k + 1` methods, one more parameter in each, and each method declares
and passes the same first parameters of the function. -/

namespace ScriptBridge

/-- The type and the identifier of a parameter in a bridge. -/
def Parameter.hosted (scope : TypeScope) (p : Parameter) : String × String :=
  (HostType.ofText scope p.typeName, identifier p.name)

/-! ### Methods -/

/-- A method that forwards its call to the script. A parameter has a type and an identifier. -/
structure ForwardingMethod where
  returns : String
  name : String
  key : String
  parameters : List (String × String)

namespace ForwardingMethod

def arity (m : ForwardingMethod) : Nat := m.parameters.length

/-- An argument of the call; all but a `Variant` is made one. -/
def passed (p : String × String) : String :=
  if p.1 = "Variant" then p.2 else "Variant.From(" ++ p.2 ++ ")"

def call (m : ForwardingMethod) : String :=
  "Wrapped.Call(" ++ ", ".intercalate (m.key :: m.parameters.map passed) ++ ")"

/-- The call with its result as the method returns it. -/
def result (m : ForwardingMethod) : String :=
  if m.returns = "void" ∨ m.returns = "Variant" then m.call
  else m.call ++ ".As<" ++ m.returns ++ ">()"

def text (m : ForwardingMethod) : String :=
  "public " ++ m.returns ++ " " ++ m.name ++ "(" ++
    ", ".intercalate (m.parameters.map fun p => p.1 ++ " " ++ p.2) ++ ") => " ++ m.result ++ ";"

/-- The lines of a method, with the empty one in front of it. -/
def lines (depth : Nat) (m : ForwardingMethod) : List String :=
  "" :: (Fragment.line m.text).lines depth

/-- The method of a function that takes the first parameters. -/
def ofFunction (scope : TypeScope) (f : FunctionDecl) (count : Nat) : ForwardingMethod where
  returns := HostType.ofReturn scope f.returnType
  name := identifier f.name
  key := Literal.quoted f.name
  parameters := (f.parameters.take count).map (Parameter.hosted scope)

end ForwardingMethod

/-- What a method takes over from a function: the types, the names, and as many parameters as
it has, from the first one on. It leaves out none that has no default. -/
structure Forwards (scope : TypeScope) (f : FunctionDecl) (m : ForwardingMethod) : Prop where
  returns : m.returns = HostType.ofReturn scope f.returnType
  name : m.name = identifier f.name
  key : Literal.value? m.key = some f.name
  arity_le : m.arity ≤ f.parameters.length
  parameters : m.parameters = (f.parameters.take m.arity).map (Parameter.hosted scope)
  leftOut : ∀ p ∈ f.parameters.drop m.arity, p.hasDefault = true

/-- The length of the longest run of parameters with defaults at the end. -/
structure IsDefaultRun (f : FunctionDecl) (k : Nat) : Prop where
  le : k ≤ f.parameters.length
  defaults : ∀ p ∈ f.parameters.drop (f.parameters.length - k), p.hasDefault = true
  longest : ∀ p, (f.parameters.take (f.parameters.length - k)).getLast? = some p →
    p.hasDefault = false

/-- The methods of a function: one for each number of parameters that a caller may give. -/
structure AreOverloads (scope : TypeScope) (f : FunctionDecl) (ms : List ForwardingMethod) :
    Prop where
  arities : ∃ k, IsDefaultRun f k ∧
    ms.map ForwardingMethod.arity = (List.range (k + 1)).map (f.parameters.length - k + ·)
  distinct : (ms.map ForwardingMethod.arity).Nodup
  forwards : ∀ m ∈ ms, Forwards scope f m

namespace FunctionDecl

variable {scope : TypeScope} {f : FunctionDecl}

theorem overload_eq (scope : TypeScope) (f : FunctionDecl) (count : Nat) :
    f.overload scope (f.parameters.take count) =
      .line (ForwardingMethod.ofFunction scope f count).text := by
  have hdeclared (ps : List Parameter) :
      ps.map (Parameter.declared scope) =
        (ps.map (Parameter.hosted scope)).map fun p => p.1 ++ " " ++ p.2 := by
    rw [List.map_map]
    rfl
  have hpassed (ps : List Parameter) :
      ps.map (Parameter.passed scope) =
        (ps.map (Parameter.hosted scope)).map ForwardingMethod.passed := by
    rw [List.map_map]
    apply List.map_congr_left
    intro p _
    by_cases h : HostType.ofText scope p.typeName = "Variant" <;>
      simp [Parameter.passed, toVariant, ForwardingMethod.passed, Parameter.hosted, HostType.any, h]
  rw [overload, hdeclared, hpassed, ForwardingMethod.text, ForwardingMethod.result,
    ForwardingMethod.call]
  simp only [ForwardingMethod.ofFunction, ofVariant, HostType.nothing, HostType.any, beq_iff_eq]
  split_ifs <;> simp_all

/-- The number of parameters with a default at the end. -/
def optionalCount (f : FunctionDecl) : Nat := (f.parameters.rtakeWhile Parameter.hasDefault).length

theorem requiredCount_add (f : FunctionDecl) :
    f.requiredCount + f.optionalCount = f.parameters.length := by
  have hsplit := congrArg List.length
    (List.rdropWhile_append_rtakeWhile (l := f.parameters) (p := Parameter.hasDefault))
  rw [List.length_append, List.rdropWhile, List.length_reverse] at hsplit
  exact hsplit

theorem split_requiredCount (f : FunctionDecl) :
    f.parameters.take f.requiredCount = f.parameters.rdropWhile Parameter.hasDefault ∧
      f.parameters.drop f.requiredCount = f.parameters.rtakeWhile Parameter.hasDefault := by
  let required := f.parameters.rdropWhile Parameter.hasDefault
  let optional := f.parameters.rtakeWhile Parameter.hasDefault
  have hsplit : required ++ optional = f.parameters := List.rdropWhile_append_rtakeWhile
  have hlength : f.requiredCount = required.length := (List.length_reverse ..).symm
  have htake : (required ++ optional).take required.length = required := List.take_left
  have hdrop : (required ++ optional).drop required.length = optional := List.drop_left
  rw [hsplit, ← hlength] at htake hdrop
  exact ⟨htake, hdrop⟩

theorem isDefaultRun_optionalCount (f : FunctionDecl) : IsDefaultRun f f.optionalCount := by
  have hadd := requiredCount_add f
  have hrequired : f.parameters.length - f.optionalCount = f.requiredCount := by omega
  obtain ⟨htake, hdrop⟩ := split_requiredCount f
  refine ⟨by omega, ?_, ?_⟩
  · rw [hrequired, hdrop]
    exact fun p hp => List.mem_rtakeWhile_imp hp
  · rw [hrequired, htake]
    intro p hp
    have hne : f.parameters.rdropWhile Parameter.hasDefault ≠ [] := by
      rintro he
      rw [he] at hp
      cases hp
    rw [List.getLast?_eq_some_getLast hne, Option.some.injEq] at hp
    exact hp ▸ Bool.eq_false_iff.2 (List.rdropWhile_last_not _ _ hne)

/-- The methods that a function is written as. -/
def overloads (scope : TypeScope) (f : FunctionDecl) : List ForwardingMethod :=
  (List.range' f.requiredCount (f.optionalCount + 1)).map (ForwardingMethod.ofFunction scope f)

theorem areOverloads_overloads (scope : TypeScope) (f : FunctionDecl) :
    AreOverloads scope f (f.overloads scope) := by
  have hadd := requiredCount_add f
  have hrequired : f.parameters.length - f.optionalCount = f.requiredCount := by omega
  have harity {count : Nat} (h : count ∈ List.range' f.requiredCount (f.optionalCount + 1)) :
      (ForwardingMethod.ofFunction scope f count).arity = count := by
    have hlt := (List.mem_range'_1.1 h).2
    rw [ForwardingMethod.arity, ForwardingMethod.ofFunction, List.length_map, List.length_take]
    omega
  have harities : (f.overloads scope).map ForwardingMethod.arity =
      List.range' f.requiredCount (f.optionalCount + 1) := by
    rw [overloads, List.map_map]
    exact (List.map_congr_left fun count h => harity h).trans (List.map_id _)
  constructor
  · refine ⟨f.optionalCount, isDefaultRun_optionalCount f, ?_⟩
    rw [harities, hrequired, List.range'_eq_map_range]
  · rw [harities]
    exact List.nodup_range'
  · intro m hm
    obtain ⟨count, hcount, rfl⟩ := List.mem_map.1 hm
    obtain ⟨hle, hlt⟩ := List.mem_range'_1.1 hcount
    have hdrop : ∀ p ∈ f.parameters.drop count, p.hasDefault = true := by
      intro p hp
      have hsub := (List.drop_sublist_drop_left f.parameters hle).subset hp
      rw [(split_requiredCount f).2] at hsub
      exact List.mem_rtakeWhile_imp hsub
    constructor
    · rfl
    · rfl
    · exact Literal.value?_quoted f.name
    · rw [harity hcount]
      omega
    · rw [harity hcount]
      rfl
    · rw [harity hcount]
      exact hdrop

theorem code_eq (scope : TypeScope) (f : FunctionDecl) :
    f.code scope = (f.overloads scope).flatMap fun m => [.blank 1, .line m.text] := by
  have hcount : f.parameters.length - f.requiredCount + 1 = f.optionalCount + 1 := by
    have hadd := requiredCount_add f
    omega
  rw [code, hcount, overloads, List.flatMap_map]
  apply List.flatMap_congr
  intro count _
  rw [overload_eq]

/-- A function adds the lines of its methods, and no blocks. -/
theorem lines_code (depth : Nat) (f : FunctionDecl) :
    linesFrom depth (f.code scope) =
        (f.overloads scope).flatMap (ForwardingMethod.lines depth) ∧
      depthBehind depth (f.code scope) = depth := by
  rw [code_eq]
  constructor
  · rw [linesFrom_flatMap depth fun _ _ => rfl]
    apply List.flatMap_congr
    intro m _
    simp [linesFrom, ForwardingMethod.lines, Fragment.lines, Fragment.depthAfter]
  · exact depthBehind_flatMap depth fun _ _ => rfl

end FunctionDecl

/-! ### Functions of a script -/

/-- The functions of a pass that are forwarded. -/
def Roster.forwarded (r : Roster) : List FunctionDecl → List FunctionDecl
  | [] => []
  | f :: fs =>
    (if r.fate (.method f) = .written then [f] else []) ++ (r.after (.method f)).forwarded fs

theorem code_forwardFunctions (scope : TypeScope) (r : Roster) (fs : List FunctionDecl) :
    (forwardFunctions scope r fs).code = (r.forwarded fs).flatMap (FunctionDecl.code scope) := by
  have hpass : forwardFunctions scope r fs = r.forwardAll scope (fs.map .method) :=
    Roster.run_eq r (.methods fs)
  rw [hpass]
  clear hpass
  induction fs generalizing r with
  | nil => rfl
  | cons f fs ih =>
    rw [List.map_cons, Roster.forwardAll_cons, Roster.forwarded, List.flatMap_append, ← ih]
    cases r.fate (.method f) <;> simp [Fate.code, MemberDecl.code]

/-- What a pass over functions appends: for each function that it forwards, the lines of its
overloads, from the one without the parameters that may be left out to the one with all. -/
theorem forwardFunctions_overloads (scope : TypeScope) (r : Roster) (fs : List FunctionDecl)
    (s : Sheet) :
    ∃ overloads : List (List ForwardingMethod),
      List.Forall₂ (AreOverloads scope) (r.forwarded fs) overloads ∧
      s.writeAll (forwardFunctions scope r fs).code =
        { s with text := s.text ++
            ofLines (overloads.flatten.flatMap (ForwardingMethod.lines s.depth)) } ∧
      ∀ m ∈ overloads.flatten, IsOneLine m.text →
        m.lines s.depth = ["", margin s.depth ++ m.text] := by
  refine ⟨(r.forwarded fs).map (FunctionDecl.overloads scope), ?_, ?_, ?_⟩
  · rw [List.forall₂_map_right_iff, List.forall₂_same]
    exact fun f _ => FunctionDecl.areOverloads_overloads scope f
  · have hlines : linesFrom s.depth (forwardFunctions scope r fs).code =
        ((r.forwarded fs).map (FunctionDecl.overloads scope)).flatten.flatMap
          (ForwardingMethod.lines s.depth) := by
      rw [code_forwardFunctions,
        linesFrom_flatMap s.depth fun f _ => (FunctionDecl.lines_code s.depth f).2,
        ← List.flatMap_def, List.flatMap_assoc]
      apply List.flatMap_congr
      exact fun f _ => (FunctionDecl.lines_code s.depth f).1
    have hdepth : depthBehind s.depth (forwardFunctions scope r fs).code = s.depth := by
      rw [code_forwardFunctions]
      exact depthBehind_flatMap s.depth fun f _ => (FunctionDecl.lines_code s.depth f).2
    rw [Sheet.writeAll_eq, hlines, hdepth]
  · intro m _ hm
    have hne : m.text ≠ "" := by
      intro he
      have hfirst := congrArg (·.toList.head?) he
      simp [ForwardingMethod.text, String.toList_append] at hfirst
    rw [ForwardingMethod.lines, Fragment.lines_line hm, atDepth, if_neg hne]

end ScriptBridge
