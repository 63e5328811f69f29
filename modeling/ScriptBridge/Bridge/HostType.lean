import ScriptBridge.Engine.Catalog
import ScriptBridge.Engine.Kind

/-! The C# type for a type of a script. A name is looked up among the built-in types,
the classes of the scripts, the engine's types and the catalog, in this order; a
container maps its elements as well. What is not known is a `Variant`, and a
`Variant` is never an element of a container. -/

namespace ScriptBridge

/-- What the names of types are looked up in. -/
structure TypeScope where
  catalog : Catalog
  scriptClasses : List String

namespace HostType

/-- The type that can hold every value. -/
def any : String := "Variant"

def nothing : String := "void"

/-- The built-in types of scripts, with the older spellings at the end. -/
def builtin : List (String × String) :=
  [("Variant", "Variant"), ("void", "void"), ("bool", "bool"), ("int", "long"), ("float", "double"),
    ("String", "string"), ("StringName", "StringName"), ("NodePath", "NodePath"),
    ("Vector2", "Vector2"), ("Vector2i", "Vector2I"), ("Vector3", "Vector3"),
    ("Vector3i", "Vector3I"), ("Vector4", "Vector4"), ("Vector4i", "Vector4I"), ("Rect2", "Rect2"),
    ("Rect2i", "Rect2I"), ("Transform2D", "Transform2D"), ("Transform3D", "Transform3D"),
    ("Basis", "Basis"), ("Quaternion", "Quaternion"), ("Plane", "Plane"),
    ("Projection", "Projection"), ("AABB", "Aabb"), ("Color", "Color"), ("RID", "Rid"),
    ("Callable", "Callable"), ("Signal", "Signal"), ("Array", "Godot.Collections.Array"),
    ("Dictionary", "Godot.Collections.Dictionary"), ("PackedByteArray", "byte[]"),
    ("PackedInt32Array", "int[]"), ("PackedInt64Array", "long[]"),
    ("PackedFloat32Array", "float[]"), ("PackedFloat64Array", "double[]"),
    ("PackedStringArray", "string[]"), ("PackedVector2Array", "Vector2[]"),
    ("PackedVector3Array", "Vector3[]"), ("PackedVector4Array", "Vector4[]"),
    ("PackedColorArray", "Color[]"), ("PoolByteArray", "byte[]"), ("PoolIntArray", "int[]"),
    ("PoolRealArray", "float[]"), ("PoolStringArray", "string[]"),
    ("PoolVector2Array", "Vector2[]"), ("PoolColorArray", "Color[]")]

/-! ### Reading the text of a type -/

def isBlank (c : Char) : Bool := c == ' ' || c == '\t'

/-- The text without blanks at its ends. -/
def trim (cs : List Char) : List Char :=
  ((cs.dropWhile isBlank).reverse.dropWhile isBlank).reverse

/-- The parts between the commas that stand outside brackets. -/
def splitArguments : Nat → List Char → List (List Char)
  | _, [] => [[]]
  | depth, c :: cs =>
    if c == ',' && depth == 0 then [] :: splitArguments 0 cs
    else
      let depth' := if c == '[' then depth + 1 else if c == ']' then depth - 1 else depth
      match splitArguments depth' cs with
      | [] => [[c]]
      | part :: parts => (c :: part) :: parts

/-- The name and the text between the outer brackets of a container type. -/
def container? (cs : List Char) : Option (List Char × List Char) :=
  match cs.dropWhile (· != '[') with
  | _ :: inner => if cs.getLast? == some ']' then some (cs.takeWhile (· != '['), inner.dropLast)
    else none
  | [] => none

theorem length_trim_le (cs : List Char) : (trim cs).length ≤ cs.length := by
  have h₁ := (List.dropWhile_sublist isBlank (l := cs)).length_le
  have h₂ := (List.dropWhile_sublist isBlank (l := (cs.dropWhile isBlank).reverse)).length_le
  simp only [trim, List.length_reverse] at h₂ ⊢
  omega

theorem length_of_mem_splitArguments {depth : Nat} {cs part : List Char}
    (h : part ∈ splitArguments depth cs) : part.length ≤ cs.length := by
  induction cs generalizing depth part with
  | nil => simp_all [splitArguments]
  | cons c cs ih =>
    unfold splitArguments at h
    split at h
    · rcases List.mem_cons.1 h with rfl | h
      · simp
      · exact Nat.le_succ_of_le (ih h)
    · dsimp only at h
      split at h
      · simp_all
      · next p ps heq =>
        rcases List.mem_cons.1 h with rfl | h
        · exact Nat.succ_le_succ (ih (heq ▸ List.mem_cons_self))
        · exact Nat.le_succ_of_le (ih (heq ▸ List.mem_cons_of_mem _ h))

theorem length_of_container? {cs name inner : List Char} (h : container? cs = some (name, inner)) :
    inner.length < cs.length := by
  unfold container? at h
  split at h
  · next c r heq =>
    split at h
    · cases h
      have := (List.dropWhile_sublist (· != '[') (l := cs)).length_le
      rw [heq] at this
      simp only [List.length_cons, List.length_dropLast] at this ⊢
      omega
    · cases h
  · cases h

/-! ### Mapping -/

/-- The type for a name. An instance of a script's class is a plain engine object. -/
def ofName (scope : TypeScope) (name : String) : String :=
  match builtin.lookup name with
  | some host => host
  | none =>
    if scope.scriptClasses.contains name then scope.catalog.rootType
    else match EngineKind.ofScriptName? name, scope.catalog.find name with
      | some kind, _ => kind.typeName
      | none, some (.engine name _) => name
      | none, some (.project type) =>
        match type.namespaceName with
        | some namespaceName =>
          if namespaceName == "" then type.name else "global::" ++ namespaceName ++ "." ++ type.name
        | none => type.name
      | none, none => any

/-- The type for a container with mapped elements. One unknown element leaves all
elements open. -/
def ofContainer (name : String) (elements : List String) : String :=
  let known := if elements.contains any then [] else elements
  if name == "Array" then
    match known with
    | [element] => "Godot.Collections.Array<" ++ element ++ ">"
    | _ => "Godot.Collections.Array"
  else if name == "Dictionary" then
    match known with
    | [key, value] => "Godot.Collections.Dictionary<" ++ key ++ ", " ++ value ++ ">"
    | _ => "Godot.Collections.Dictionary"
  else any

/-- The type for a text without blanks at its ends; no text at all is untyped. -/
def ofTrimmed (scope : TypeScope) (cs : List Char) : String :=
  match _h : container? cs with
  | some (name, inner) =>
    ofContainer (String.ofList name)
      ((splitArguments 0 inner).attach.map fun part => ofTrimmed scope (trim part.1))
  | none => if cs = [] then any else ofName scope (String.ofList cs)
termination_by cs.length
decreasing_by
  exact Nat.lt_of_le_of_lt (length_trim_le part.1)
    (Nat.lt_of_le_of_lt (length_of_mem_splitArguments part.2) (length_of_container? _h))

def ofText (scope : TypeScope) (text : String) : String := ofTrimmed scope (trim text.toList)

/-- A function that states no type can return anything. -/
def ofReturn (scope : TypeScope) (text : Option String) : String := text.elim any (ofText scope)

end HostType

end ScriptBridge
