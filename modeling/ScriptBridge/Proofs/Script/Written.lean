import ScriptBridge.Script.Declaration
import ScriptBridge.Script.Piece

/-! Scripts in a plain written form, as data: a class name, a base, and variables,
signals and functions with types of any nesting. A written script has a text and stands
for a class. -/

namespace ScriptBridge

/-- A letter, an underscore or a character beyond ASCII, and after it also digits. -/
def IsWord (s : String) : Prop :=
  ∃ c cs, s.toList = c :: cs ∧ Cut.isNameStart c ∧ ∀ d ∈ cs, Cut.isNamePart d

/-- A word that is no keyword. -/
structure Identifier where
  text : String
  isWord : IsWord text
  not_keyword : Keyword.ofWord? text = none

/-- Identifiers with dots between them. -/
structure DottedName where
  first : Identifier
  more : List Identifier := []

def DottedName.text (n : DottedName) : String :=
  ".".intercalate (n.first.text :: n.more.map Identifier.text)

/-- A type in a script: a dotted name, or one with types in brackets after it. -/
inductive WrittenType where
  | name (n : DottedName)
  | applied (n : DottedName) (arguments : List WrittenType)

namespace WrittenType

def text : WrittenType → String
  | name n => n.text
  | applied n arguments => n.text ++ "[" ++ ", ".intercalate (arguments.map text) ++ "]"

/-- A type behind a mark, or nothing if there is no type. -/
def textAfter (mark : String) (type : Option WrittenType) : String :=
  type.elim "" fun t => mark ++ t.text

@[elab_as_elim] theorem induction {P : WrittenType → Prop} (name : ∀ n, P (name n))
    (applied : ∀ n arguments, (∀ a ∈ arguments, P a) → P (applied n arguments)) : ∀ t, P t
  | .name n => name n
  | .applied n arguments => applied n arguments fun a _ => induction name applied a

end WrittenType

/-- A parameter; the only default that is written is `null`. -/
structure WrittenParameter where
  name : Identifier
  type : Option WrittenType := none
  hasDefault : Bool := false

namespace WrittenParameter

def text (p : WrittenParameter) : String :=
  p.name.text ++ WrittenType.textAfter ": " p.type ++ if p.hasDefault then " = null" else ""

def toParameter (p : WrittenParameter) : Parameter where
  name := p.name.text
  typeName := p.type.elim "" WrittenType.text
  hasDefault := p.hasDefault

/-- Parameters as they stand between parentheses. -/
def listText (ps : List WrittenParameter) : String := "(" ++ ", ".intercalate (ps.map text) ++ ")"

end WrittenParameter

/-- A declaration. A signal may be without parentheses; a function has an empty body. -/
inductive WrittenDeclaration where
  | var (isStatic : Bool) (name : Identifier) (type : Option WrittenType)
  | signal (name : Identifier) (parameters : Option (List WrittenParameter))
  | func (isStatic : Bool) (name : Identifier) (parameters : List WrittenParameter)
      (returnType : Option WrittenType)

namespace WrittenDeclaration

/-- The word before a static declaration. -/
def staticText (isStatic : Bool) : String := if isStatic then "static " else ""

/-- The lines of a declaration. -/
def text : WrittenDeclaration → String
  | var isStatic name type =>
    staticText isStatic ++ "var " ++ name.text ++ WrittenType.textAfter ": " type ++ "\n"
  | signal name parameters =>
    "signal " ++ name.text ++ parameters.elim "" WrittenParameter.listText ++ "\n"
  | func isStatic name parameters returnType =>
    staticText isStatic ++ "func " ++ name.text ++ WrittenParameter.listText parameters ++
      WrittenType.textAfter " -> " returnType ++ ":\n\tpass\n"

def variableOf (isStatic : Bool) (name : Identifier) (type : Option WrittenType) :
    VariableDecl where
  name := name.text
  typeName := type.elim "" WrittenType.text
  isStatic

def signalOf (name : Identifier) (parameters : Option (List WrittenParameter)) : SignalDecl where
  name := name.text
  parameters := (parameters.getD []).map WrittenParameter.toParameter

def functionOf (isStatic : Bool) (name : Identifier) (ps : List WrittenParameter)
    (returnType : Option WrittenType) : FunctionDecl where
  name := name.text
  parameters := ps.map WrittenParameter.toParameter
  returnType := returnType.map WrittenType.text
  isStatic

def toVariable? : WrittenDeclaration → Option VariableDecl
  | var isStatic name type => some (variableOf isStatic name type)
  | _ => none

def toSignal? : WrittenDeclaration → Option SignalDecl
  | signal name parameters => some (signalOf name parameters)
  | _ => none

def toFunction? : WrittenDeclaration → Option FunctionDecl
  | func isStatic name ps returnType => some (functionOf isStatic name ps returnType)
  | _ => none

end WrittenDeclaration

structure WrittenScript where
  name : Identifier
  base : Option DottedName := none
  declarations : List WrittenDeclaration := []

namespace WrittenScript

def text (w : WrittenScript) : String :=
  "class_name " ++ w.name.text ++ "\n" ++ w.base.elim "" (fun n => "extends " ++ n.text ++ "\n") ++
    String.join (w.declarations.map WrittenDeclaration.text)

/-- The class that a written script at `path` stands for, at no place in particular. -/
def toClass (path : String) (w : WrittenScript) : ScriptClass where
  name := w.name.text
  path
  base := w.base.map fun n => (Base.ofName n.text, {})
  vars := w.declarations.filterMap WrittenDeclaration.toVariable?
  functions := w.declarations.filterMap WrittenDeclaration.toFunction?
  signals := w.declarations.filterMap WrittenDeclaration.toSignal?

end WrittenScript

end ScriptBridge
