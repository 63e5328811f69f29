import ScriptBridge.Bridge.Plan
import ScriptBridge.Engine.Catalog
import ScriptBridge.Text.Code

/-! The C# unit of a proxy: a class that wraps an object of an engine type and
forwards the members of the type. Warnings about obsolete members are switched off
around each of them alone. -/

namespace ScriptBridge

namespace Member

/-- Whether an argument is passed by reference, with its modifier. -/
def isByReference (modifier : String) : Bool := ["ref", "out", "in"].contains modifier

/-- The modifier that a call repeats. -/
def callModifier (p : MemberParameter) : String :=
  if isByReference p.modifier then p.modifier ++ " " else ""

def typeParameterList (opening closing : String) (ts : List TypeParameter) : String :=
  if ts.isEmpty then "" else opening ++ ", ".intercalate (ts.map TypeParameter.name) ++ closing

def constraintClause (t : TypeParameter) : String :=
  if t.constraints.isEmpty then ""
  else " where " ++ t.name ++ " : " ++ ", ".intercalate t.constraints

def parameterDeclaration (p : MemberParameter) : String :=
  (if p.modifier == "" then "" else p.modifier ++ " ") ++ p.type ++ " " ++ identifier p.name ++
    p.default.elim "" (" = " ++ ·)

def callArguments (ps : List MemberParameter) : String :=
  ", ".intercalate (ps.map fun p => callModifier p ++ identifier p.name)

/-- The member as documentation refers to it. -/
def documentationTarget (m : Member) : String :=
  m.declaringType ++ "." ++ m.name ++
    match m.shape with
    | .method typeParameters parameters =>
      typeParameterList "\x7b" "\x7d" typeParameters ++ "(" ++
        ", ".intercalate (parameters.map fun p => callModifier p ++ p.type) ++ ")"
    | _ => ""

/-- The method that every proxy overrides by itself. -/
def isToString (m : Member) : Bool :=
  match m.shape with
  | .method [] [] => m.name == "ToString"
  | _ => false

/-- A method after which the engine may hand out a new object for the same instance.
It is called within a lambda, which cannot take parameters by reference. -/
def replacesInstance (m : Member) : Bool :=
  match m.shape with
  | .method [] parameters =>
    m.name == "SetScript" && m.type == "void" &&
      !parameters.any fun p => isByReference p.modifier
  | _ => false

/-! ### The code of a member -/

/-- The reference to the documentation of a member. If the member is obsolete, warnings are
switched off before it, and the advice stands behind it. -/
def documentation (m : Member) : List Fragment :=
  (if m.obsolete.isSome then [.line "#pragma warning disable CS0618"] else []) ++
    [.line ("/// <inheritdoc cref=\"" ++ m.documentationTarget ++ "\"/>")] ++
    match m.obsolete with
    | none => []
    | some advice =>
      [.line (if advice == "" then "[Obsolete]" else "[Obsolete(" ++ Literal.quoted advice ++ ")]")]

def propertyCode (m : Member) (getter setter : Bool) : List Fragment :=
  [.openBlock ("public " ++ m.type ++ " " ++ identifier m.name)] ++
    (if getter then [.line ("get => _wrapped." ++ identifier m.name ++ ";")] else []) ++
    (if setter then [.line ("set => _wrapped." ++ identifier m.name ++ " = value;")] else []) ++
    [.closeBlock ""]

def eventCode (m : Member) : List Fragment :=
  [.openBlock ("public event " ++ m.type ++ " " ++ identifier m.name),
    .line ("add => _wrapped." ++ identifier m.name ++ " += value;"),
    .line ("remove => _wrapped." ++ identifier m.name ++ " -= value;"),
    .closeBlock ""]

def methodCode (m : Member) (typeParameters : List TypeParameter)
    (parameters : List MemberParameter) : List Fragment :=
  let generic := typeParameterList "<" ">" typeParameters
  let body :=
    if m.replacesInstance then
      "ReplaceWrapped(wrapped => wrapped." ++ identifier m.name ++ "(" ++
        callArguments parameters ++ "))"
    else "_wrapped." ++ identifier m.name ++ generic ++ "(" ++ callArguments parameters ++ ")"
  [.line
    ("public " ++ m.type ++ " " ++ identifier m.name ++ generic ++ "(" ++
      ", ".intercalate (parameters.map parameterDeclaration) ++ ")" ++
      String.join (typeParameters.map constraintClause) ++ " => " ++ body ++ ";")]

/-- The names that a proxy needs for itself. -/
def reservedInProxy : List String :=
  ["Wrapped", "ReplaceWrapped", "PropertyName", "MethodName", "SignalName", "_wrapped"]

/-! Each of the three sorts of members has a writer of its own, which switches warnings on
again behind an obsolete member. -/

def writeProperty (m : Member) (getter setter : Bool) : List Fragment :=
  [.blank 1] ++ m.documentation ++ m.propertyCode getter setter ++
    if m.obsolete.isSome then [.line "#pragma warning restore CS0618"] else []

def writeEvent (m : Member) : List Fragment :=
  [.blank 1] ++ m.documentation ++ m.eventCode ++
    if m.obsolete.isSome then [.line "#pragma warning restore CS0618"] else []

def writeMethod (m : Member) (typeParameters : List TypeParameter)
    (parameters : List MemberParameter) : List Fragment :=
  [.blank 1] ++ m.documentation ++ m.methodCode typeParameters parameters ++
    if m.obsolete.isSome then [.line "#pragma warning restore CS0618"] else []

/-- The code that forwards a member in the proxy of the given name. A property that can be
neither read nor set is left out, and so is an event that cannot be both joined and left. -/
def proxyCode (proxy : String) (m : Member) : List Fragment :=
  if reservedInProxy.contains m.name || m.name == proxy || m.isToString then []
  else match m.shape with
    | .property getter setter => if getter || setter then m.writeProperty getter setter else []
    | .event adder remover => if adder && remover then m.writeEvent else []
    | .method typeParameters parameters => m.writeMethod typeParameters parameters

end Member

namespace ProxyUnit

def preamble (engineType : String) : List Fragment :=
  [.line "// <auto-generated>",
    .line ("//     Generated by gdbridgegen for the engine type " ++ engineType ++ "."),
    .line "//     Changes to this file are lost when the proxy is regenerated.",
    .line "// </auto-generated>",
    .blank 1,
    .line "#nullable disable",
    .blank 1,
    .openBlock "namespace GDBridge",
    .line "using System;",
    .line "using Godot;",
    .blank 1]

/-- The wrapped object and the ways to get at it. -/
def wrapping (engineType : String) : List Fragment :=
  [.openBlock ("public class " ++ proxyName engineType),
    .line ("private " ++ engineType ++ " _wrapped;"),
    .blank 1,
    .openBlock ("public " ++ proxyName engineType ++ "(GodotObject gdObject)"),
    .line ("_wrapped = (" ++ engineType ++ ")gdObject;"),
    .closeBlock "",
    .blank 1,
    .line ("public " ++ engineType ++ " Wrapped => _wrapped;"),
    .blank 1,
    .openBlock ("protected void ReplaceWrapped(Action<" ++ engineType ++ "> mutation)"),
    .line "var instanceId = _wrapped.GetInstanceId();",
    .line "mutation(_wrapped);",
    .line ("_wrapped = (" ++ engineType ++ ")GodotObject.InstanceFromId(instanceId);"),
    .closeBlock ""]

def textOverride : List Fragment :=
  [.blank 1,
    .line "/// <inheritdoc cref=\"object.ToString()\"/>",
    .line "public override string ToString() => _wrapped.ToString();"]

/-- The empty name containers that the ones of bridges extend. -/
def containers : List Fragment :=
  ["PropertyName", "MethodName", "SignalName"].flatMap fun name =>
    [.blank 1, .openBlock ("public class " ++ name), .closeBlock ""]

def text (catalog : Catalog) (engineType : String) : String :=
  renderUnit
    (preamble engineType ++ wrapping engineType ++
      (catalog.membersOf engineType).flatMap (Member.proxyCode (proxyName engineType)) ++
      textOverride ++ containers)

end ProxyUnit

end ScriptBridge
