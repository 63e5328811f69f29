/-! Members of engine types, as the description of the engine lists them. Two
members with one signature are declarations of the same thing, and the one nearer
to a type hides the other. -/

namespace ScriptBridge

inductive MemberKind where
  | property | event | method
  deriving DecidableEq

namespace MemberKind

def name : MemberKind → String
  | property => "property"
  | event => "event"
  | method => "method"

def ofName? (text : String) : Option MemberKind := [property, event, method].find? (·.name == text)

end MemberKind

structure TypeParameter where
  name : String
  constraints : List String := []
  deriving DecidableEq

/-- A parameter of a method. The modifier is empty, or a word such as `ref`. -/
structure MemberParameter where
  name : String
  type : String
  modifier : String := ""
  default : Option String := none
  deriving DecidableEq

inductive MemberShape where
  | property (getter setter : Bool)
  | event (adder remover : Bool)
  | method (typeParameters : List TypeParameter) (parameters : List MemberParameter)
  deriving DecidableEq

/-- A member. `type` is the return type of a method, and `obsolete` holds the advice
given with an obsolete member, which may be empty. -/
structure Member where
  name : String
  shape : MemberShape
  type : String := ""
  declaringType : String := ""
  isPublic : Bool := true
  isStatic : Bool := false
  isAbstract : Bool := false
  obsolete : Option String := none
  deriving DecidableEq

namespace Member

def kind (m : Member) : MemberKind :=
  match m.shape with
  | .property .. => .property
  | .event .. => .event
  | .method .. => .method

/-- A parameter within a signature; `params` is no part of it. -/
def signaturePart (p : MemberParameter) : String :=
  if p.modifier == "" || p.modifier == "params" then p.type else p.modifier ++ " " ++ p.type

/-- What tells a member from all others of a type: its kind and its name and, for a
method, the number of its type parameters and the types of its parameters. -/
def signature (m : Member) : String :=
  match m.shape with
  | .property .. => "property " ++ m.name
  | .event .. => "event " ++ m.name
  | .method typeParameters parameters =>
    let arity := if typeParameters.isEmpty then "" else "`" ++ toString typeParameters.length
    "method " ++ m.name ++ arity ++ "(" ++ ",".intercalate (parameters.map signaturePart) ++ ")"

/-- Members that a proxy can forward; a leading underscore marks internal ones. -/
def isEligible (m : Member) : Bool :=
  m.isPublic && !m.isStatic && !m.isAbstract && m.name.toList.head? != some '_'

/-- The members without those whose signature is in `seen` or occurred before. -/
def keepFirst (seen : List String) : List Member → List Member
  | [] => []
  | m :: ms =>
    if seen.contains m.signature then keepFirst seen ms
    else m :: keepFirst (m.signature :: seen) ms

end Member

end ScriptBridge
