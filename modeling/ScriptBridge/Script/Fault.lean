import ScriptBridge.Text.Position

/-! What can be wrong with a script, and messages to the user. A fault is a cause; its code
and its wording are functions of the cause. -/

namespace ScriptBridge

inductive Fault where
  | unexpectedCharacter | missingTagName | unterminatedString
  | unexpectedStatement (text : String)
  | missingClassName | duplicateClassName | duplicateBase | strayStatic
  | trailingTokens | missingIconPath | missingBase | missingBaseSegment
  | missingVariableName | missingVariableType
  | missingFunctionName | missingParameterList | unclosedParameterList
  | missingReturnType | missingBodyColon
  | missingParameterName | missingParameterType | unclosedElementType
  | missingSignalName | unclosedSignalParameters
  | unclosedTag | unclosedExportHint
  deriving DecidableEq

namespace Fault

def code : Fault → String
  | unexpectedCharacter => "GDB-E2000"
  | missingTagName => "GDB-E2001"
  | unterminatedString => "GDB-E2002"
  | unexpectedStatement _ => "GDB-E2100"
  | missingClassName => "GDB-E2101"
  | duplicateClassName => "GDB-E2103"
  | duplicateBase => "GDB-E2104"
  | strayStatic => "GDB-E2105"
  | trailingTokens => "GDB-E2106"
  | missingIconPath => "GDB-E2107"
  | missingBase => "GDB-E2108"
  | missingBaseSegment => "GDB-E2108"
  | missingVariableName => "GDB-E2110"
  | missingVariableType => "GDB-E2111"
  | missingFunctionName => "GDB-E2120"
  | missingParameterList => "GDB-E2121"
  | unclosedParameterList => "GDB-E2122"
  | missingReturnType => "GDB-E2123"
  | missingBodyColon => "GDB-E2124"
  | missingParameterName => "GDB-E2125"
  | missingParameterType => "GDB-E2126"
  | unclosedElementType => "GDB-E2127"
  | missingSignalName => "GDB-E2130"
  | unclosedSignalParameters => "GDB-E2131"
  | unclosedTag => "GDB-E2140"
  | unclosedExportHint => "GDB-E2141"

def message : Fault → String
  | unexpectedCharacter => "Unexpected character in source."
  | missingTagName => "Expected annotation name after '@'."
  | unterminatedString => "Unterminated string literal."
  | unexpectedStatement text => "Unexpected top-level statement '" ++ text ++ "'."
  | missingClassName => "Expected class name after 'class_name'."
  | duplicateClassName => "Duplicate 'class_name' declaration."
  | duplicateBase => "Duplicate 'extends' declaration."
  | strayStatic => "Expected 'var' or 'func' after 'static'."
  | trailingTokens => "Unexpected tokens after declaration."
  | missingIconPath => "Expected icon path after ','."
  | missingBase => "Expected class name or script path after 'extends'."
  | missingBaseSegment => "Expected identifier segment after '.'."
  | missingVariableName => "Expected variable name after 'var'."
  | missingVariableType => "Expected type after ':' in variable declaration."
  | missingFunctionName => "Expected function name after 'func'."
  | missingParameterList => "Expected '(' after function name."
  | unclosedParameterList => "Expected ')' after parameters."
  | missingReturnType => "Expected return type after '->'."
  | missingBodyColon => "Expected ':' after function signature."
  | missingParameterName => "Expected parameter name."
  | missingParameterType => "Expected type after ':' in parameter."
  | unclosedElementType => "Expected ']' after element type."
  | missingSignalName => "Expected signal name after 'signal'."
  | unclosedSignalParameters => "Expected ')' after signal parameters."
  | unclosedTag => "Expected ')' after annotation arguments."
  | unclosedExportHint => "Expected ')' after export hint."

end Fault

/-- A fault and where it was found. -/
structure LocatedFault where
  fault : Fault
  span : Span
  deriving DecidableEq

/-- A message to the user about a script, a class or a file. -/
structure Diagnostic where
  code : String
  message : String
  subject : String
  isWarning : Bool := false
  deriving DecidableEq

end ScriptBridge
