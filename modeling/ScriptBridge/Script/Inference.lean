import ScriptBridge.Script.Reading

/-! The type of an initial value. It is read off the first tokens of the value, and
only where they show it: a literal that ends the value, or a call that constructs
an object. The empty text means that nothing is known. -/

namespace ScriptBridge.Inference

open Tokens

/-- Types whose values are written as a call of the type. -/
def constructible : List String :=
  ["Vector2", "Vector2i", "Vector3", "Vector3i", "Vector4", "Vector4i", "Color", "Rect2",
    "Rect2i", "Transform2D", "Transform3D", "Basis", "Quaternion", "Plane", "AABB", "Projection",
    "StringName", "NodePath", "Callable", "Signal", "PackedStringArray", "PackedInt32Array",
    "PackedFloat32Array", "PackedVector2Array"]

/-- Whether a value can end before this token: at the end of its line or statement,
before an accessor block, and between or after parameters. -/
def endsValue (t : Token) : Bool :=
  t.kind == .newline || t.kind == .endOfFile || t.kind == .colon || t.kind == .comma ||
    t.kind == .closing .paren || t.isSemicolon

/-- The type of a literal token. -/
def literal : TokenKind → String
  | .integer => "int"
  | .float => "float"
  | .text => "String"
  | .keyword .trueLiteral => "bool"
  | .keyword .falseLiteral => "bool"
  | _ => ""

/-- The type of a literal behind a sign. -/
def signed (sign : String) (kind : TokenKind) : String :=
  match kind with
  | .integer => if sign == "-" then "int" else ""
  | .float => if sign == "-" then "float" else ""
  | .text => if sign == "&" then "StringName" else if sign == "^" then "NodePath" else ""
  | _ => ""

/-- The type of the value that starts here. -/
def typeOf (ts : List Token) : String :=
  let value := next ts
  match value.kind with
  | .operator => if endsValue (ahead ts 2) then signed value.text (ahead ts 1).kind else ""
  | .identifier =>
    if (ahead ts 1).kind == .opening .paren && constructible.contains value.text then value.text
    else if (ahead ts 1).kind == .dot && (ahead ts 2).text == "new" &&
        (ahead ts 3).kind == .opening .paren then value.text
    else ""
  | kind => if endsValue (ahead ts 1) then literal kind else ""

end ScriptBridge.Inference
