import ScriptBridge.Bridge.HostType
import ScriptBridge.Script.Declaration
import ScriptBridge.Script.Fault
import ScriptBridge.Text.Code

/-! The members of a bridge. Each declaration of the script claims its name in the
roster of the bridge and is written if the name is free; one that finds its name
taken is skipped with a reason. The overloads of a function share one claim. The
three name containers list what has been claimed, private names apart. -/

namespace ScriptBridge

inductive MemberSort where
  | property | method | signal
  deriving DecidableEq

namespace MemberSort

/-- The class of constants that lists the members of a sort. -/
def container : MemberSort → String
  | property => "PropertyName"
  | method => "MethodName"
  | signal => "SignalName"

end MemberSort

inductive SkipReason where
  | bridgeName | reserved | taken
  deriving DecidableEq

/-- A declaration that is not forwarded. -/
structure Skipped where
  name : String
  reason : SkipReason
  deriving DecidableEq

namespace Skipped

def reasonText : SkipReason → String
  | .bridgeName => "it matches the bridge type name"
  | .reserved => "the name is reserved by the generated bridge"
  | .taken => "another member already uses the name"

/-- The warning about a member of the bridge `typeName`, filed under `subject`. -/
def diagnostic (typeName subject : String) (s : Skipped) : Diagnostic :=
  { code := "GDB-W4001"
    message :=
      "Member '" ++ s.name ++ "' of '" ++ typeName ++ "' is not forwarded: " ++
        reasonText s.reason ++ "."
    subject
    isWarning := true }

end Skipped

/-- A name that a written member has claimed. -/
structure Claimed where
  sort : MemberSort
  name : String
  deriving DecidableEq

/-- The bridge's own name and the names claimed in it so far. -/
structure Roster where
  typeName : String
  claimed : List Claimed := []

namespace Roster

/-- The names that every bridge declares itself, or inherits from its proxy. -/
def reserved : List String :=
  ["GDClassName", "ScriptPath", "LoadScript", "Instantiate", "Wrapped", "ReplaceWrapped",
    "PropertyName", "MethodName", "SignalName", "ToString", "_wrapped"]

/-- Why a name is not free, if it is not. -/
def obstacle (r : Roster) (name : String) : Option SkipReason :=
  if name == r.typeName then some .bridgeName
  else if reserved.contains name then some .reserved
  else if r.claimed.any (·.name == name) then some .taken
  else none

/-- A leading underscore keeps a member out of the name containers. -/
def isPrivate (name : String) : Bool := name.toList.head? == some '_'

/-- The names for the container of a sort, in the order of writing. -/
def listed (r : Roster) (sort : MemberSort) : List String :=
  ((r.claimed.filter (·.sort == sort)).map Claimed.name).filter fun name => !isPrivate name

end Roster

/-- What one pass over declarations yields. -/
structure Forwarded where
  roster : Roster
  code : List Fragment := []
  skipped : List Skipped := []

/-- Forwards the declarations in order. `nameOf` gives no name to a declaration that
is no member of an object. -/
def forward {α : Type} (sort : MemberSort) (nameOf : α → Option String)
    (write : α → List Fragment) : Roster → List α → Forwarded
  | roster, [] => { roster }
  | roster, d :: ds =>
    match nameOf d with
    | none => forward sort nameOf write roster ds
    | some name =>
      match roster.obstacle name with
      | some reason =>
        let rest := forward sort nameOf write roster ds
        { rest with skipped := ⟨name, reason⟩ :: rest.skipped }
      | none =>
        let claimed := { roster with claimed := roster.claimed ++ [⟨sort, name⟩] }
        let rest := forward sort nameOf write claimed ds
        { rest with code := write d ++ rest.code }

/-! ### Values -/

/-- An expression of a C# type as an engine value. -/
def toVariant (expression host : String) : String :=
  if host == HostType.any then expression else "Variant.From(" ++ expression ++ ")"

/-- An engine value as an expression of a C# type. -/
def ofVariant (expression host : String) : String :=
  if host == HostType.any then expression else expression ++ ".As<" ++ host ++ ">()"

/-! ### Properties -/

def VariableDecl.memberName (v : VariableDecl) : Option String :=
  if v.isStatic || v.name == "" then none else some v.name

def VariableDecl.code (scope : TypeScope) (v : VariableDecl) : List Fragment :=
  let host := HostType.ofText scope v.typeName
  let key := Literal.quoted v.name
  [.blank 1,
    .openBlock ("public " ++ host ++ " " ++ identifier v.name),
    .line ("get => " ++ ofVariant ("Wrapped.Get(" ++ key ++ ")") host ++ ";"),
    .line ("set => Wrapped.Set(" ++ key ++ ", " ++ toVariant "value" host ++ ");"),
    .closeBlock ""]

def forwardVariables (scope : TypeScope) : Roster → List VariableDecl → Forwarded :=
  forward .property VariableDecl.memberName (VariableDecl.code scope)

/-! ### Methods -/

def FunctionDecl.memberName (f : FunctionDecl) : Option String :=
  if f.isStatic || f.name == "" then none else some f.name

def Parameter.declared (scope : TypeScope) (p : Parameter) : String :=
  HostType.ofText scope p.typeName ++ " " ++ identifier p.name

def Parameter.passed (scope : TypeScope) (p : Parameter) : String :=
  toVariant (identifier p.name) (HostType.ofText scope p.typeName)

/-- The method that takes the given parameters and leaves the others to the script. -/
def FunctionDecl.overload (scope : TypeScope) (f : FunctionDecl) (parameters : List Parameter) :
    Fragment :=
  let host := HostType.ofReturn scope f.returnType
  let passed := parameters.map (Parameter.passed scope)
  let call := "Wrapped.Call(" ++ ", ".intercalate (Literal.quoted f.name :: passed) ++ ")"
  let body := if host == HostType.nothing then call else ofVariant call host
  .line
    ("public " ++ host ++ " " ++ identifier f.name ++ "(" ++
      ", ".intercalate (parameters.map (Parameter.declared scope)) ++ ") => " ++ body ++ ";")

/-- The number of parameters without those with a default at the end. -/
def FunctionDecl.requiredCount (f : FunctionDecl) : Nat :=
  (f.parameters.reverse.dropWhile Parameter.hasDefault).length

/-- One method for each number of parameters that a caller may give. -/
def FunctionDecl.code (scope : TypeScope) (f : FunctionDecl) : List Fragment :=
  (List.range' f.requiredCount (f.parameters.length - f.requiredCount + 1)).flatMap fun count =>
    [.blank 1, f.overload scope (f.parameters.take count)]

def forwardFunctions (scope : TypeScope) : Roster → List FunctionDecl → Forwarded :=
  forward .method FunctionDecl.memberName (FunctionDecl.code scope)

/-! ### Signals -/

def SignalDecl.memberName (s : SignalDecl) : Option String :=
  if s.name == "" then none else some s.name

/-- The type of a handler, which takes the arguments of the signal. -/
def SignalDecl.handler (scope : TypeScope) (s : SignalDecl) : String :=
  if s.parameters.isEmpty then "Action"
  else
    "Action<" ++
      ", ".intercalate (s.parameters.map fun p => HostType.ofText scope p.typeName) ++ ">"

def SignalDecl.code (scope : TypeScope) (s : SignalDecl) : List Fragment :=
  let key := Literal.quoted s.name
  [.blank 1,
    .openBlock ("public event " ++ s.handler scope ++ " " ++ identifier s.name),
    .line ("add => Wrapped.Connect(" ++ key ++ ", Callable.From(value));"),
    .line ("remove => Wrapped.Disconnect(" ++ key ++ ", Callable.From(value));"),
    .closeBlock ""]

def forwardSignals (scope : TypeScope) : Roster → List SignalDecl → Forwarded :=
  forward .signal SignalDecl.memberName (SignalDecl.code scope)

/-! ### Name containers -/

/-- The class of constants for the members of a sort. It extends the one of the base. -/
def Roster.containerCode (r : Roster) (sort : MemberSort) (baseName : String) : List Fragment :=
  [.blank 1,
    .openBlock ("public new class " ++ sort.container ++ " : " ++ baseName ++ "." ++ sort.container)] ++
    (r.listed sort).map (fun name =>
      .line ("public const string " ++ identifier name ++ " = " ++ Literal.quoted name ++ ";")) ++
    [.closeBlock ""]

end ScriptBridge
