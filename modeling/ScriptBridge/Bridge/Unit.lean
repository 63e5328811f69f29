import ScriptBridge.Bridge.Lineage
import ScriptBridge.Bridge.Members

/-! The C# unit of a bridge: a partial class that wraps an instance of the script's
class. The path of the script stands in a comment and in one constant. -/

namespace ScriptBridge

/-- The path of a script as the engine's resource system writes it. -/
def resourcePath (path : String) : String :=
  let cs := (Lineage.slashed path).toList
  if "res://".toList.isPrefixOf cs then String.ofList cs
  else "res://" ++ String.ofList (cs.dropWhile (· == '/'))

/-- The text of a unit and the members it leaves out. -/
structure BridgeUnit where
  text : String
  diagnostics : List Diagnostic

namespace BridgeUnit

/-- What stands before the class. -/
def preamble (path : String) (l : Lineage) : List Fragment :=
  [.line "// <auto-generated>",
    .line ("//     Generated by gdbridgegen from " ++ path ++ "."),
    .line "//     Changes to this file are lost when the bridge is regenerated.",
    .line "// </auto-generated>",
    .blank 1,
    .line "#nullable disable",
    .blank 1] ++
    (if l.namespaceName == "" then [] else [.openBlock ("namespace " ++ l.namespaceName)]) ++
    [.line "using System;", .line "using GDBridge;", .line "using Godot;", .blank 1]

/-- What every bridge declares. The members hide those of a base that is a bridge. -/
def ownMembers (path className : String) (l : Lineage) : List Fragment :=
  let modifier := if l.baseIsNative then "" else "new "
  [.openBlock ("public partial class " ++ l.typeName ++ " : " ++ l.baseName),
    .openBlock ("public " ++ l.typeName ++ "(GodotObject gdObject) : base(gdObject)"),
    .closeBlock "",
    .blank 1,
    .line ("public " ++ modifier ++ "const string GDClassName = " ++ Literal.quoted className ++ ";"),
    .line ("public " ++ modifier ++ "const string ScriptPath = " ++ Literal.quoted path ++ ";"),
    .blank 1,
    .line ("public " ++ modifier ++ "static GDScript LoadScript() => GD.Load<GDScript>(ScriptPath);"),
    .blank 1,
    .line
      ("public " ++ modifier ++ "static " ++ l.typeName ++ " Instantiate() => new " ++ l.typeName ++
        "(LoadScript().New().AsGodotObject());")]

def ofScript (scope : TypeScope) (script : ScriptClass) (l : Lineage) : BridgeUnit :=
  let path := resourcePath script.path
  let vars := forwardVariables scope { typeName := l.typeName } script.vars
  let functions := forwardFunctions scope vars.roster script.functions
  let signals := forwardSignals scope functions.roster script.signals
  let containers := [MemberSort.property, .method, .signal].flatMap fun sort =>
    signals.roster.containerCode sort l.baseName
  { text :=
      renderUnit
        (preamble path l ++ ownMembers path script.name l ++ vars.code ++ functions.code ++
          signals.code ++ containers)
    diagnostics :=
      (vars.skipped ++ functions.skipped ++ signals.skipped).map
        (Skipped.diagnostic l.typeName script.path) }

end BridgeUnit

end ScriptBridge
