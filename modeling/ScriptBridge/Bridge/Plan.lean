import ScriptBridge.Engine.Catalog

/-! Names of generated types, and the plan of a bridge: its name, its namespace, and whether
it is written at all. A project type of the same name is the partial class that the bridge
completes, and it fixes the namespace. -/

namespace ScriptBridge

/-! ### Names -/

/-- The proxy of an engine type. -/
def proxyName (engineType : String) : String := engineType ++ "Proxy"

/-- A type as other files refer to it, from the global namespace if it has one. -/
def qualifiedName (typeName namespaceName : String) : String :=
  if namespaceName == "" then typeName else "global::" ++ namespaceName ++ "." ++ typeName

/-- Stands where a base could not be found. No type has this name, so that code with
an unknown base fails to compile instead of losing its base. -/
def unresolvedName : String := "GDBRIDGE_UNRESOLVED_BASE"

/-! ### Plans -/

structure Configuration where
  appendSuffix : Bool := false
  onlyExisting : Bool := false
  defaultNamespace : Option String := none
  deriving DecidableEq

namespace Configuration

def fileName : String := "GDBridgeConfiguration.json"

/-- A blank text configures nothing. -/
def isBlank (text : String) : Bool :=
  text.toList.all fun c => c == ' ' || c == '\t' || c == '\r' || c == '\n'

end Configuration

structure Plan where
  typeName : String
  namespaceName : String := ""
  emitted : Bool := true
  deriving DecidableEq

namespace Plan

def ofClass (catalog : Catalog) (configuration : Configuration) (className : String) : Plan :=
  let typeName := if configuration.appendSuffix then className ++ "Bridge" else className
  match catalog.findProjectType typeName with
  | some existing => { typeName, namespaceName := existing.namespaceName.getD "" }
  | none =>
    { typeName
      namespaceName := configuration.defaultNamespace.getD ""
      emitted := !configuration.onlyExisting }

end Plan

end ScriptBridge
