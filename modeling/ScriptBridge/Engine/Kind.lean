/-! The engine classes that a script can extend by bare name. Each has one name in
scripts and one on the C# side, and the two differ for the root only. -/

namespace ScriptBridge

inductive EngineKind where
  | object | refCounted | resource | node | node2D | node3D | canvasItem | canvasLayer
  | control | container | panel | label | button | window | sprite2D | sprite3D
  | animatedSprite2D | animationPlayer | area2D | area3D | characterBody2D
  | characterBody3D | rigidBody2D | rigidBody3D | staticBody2D | staticBody3D
  | collisionShape2D | collisionShape3D | camera2D | camera3D | meshInstance3D
  | marker2D | timer | audioStreamPlayer
  deriving DecidableEq

namespace EngineKind

def all : List EngineKind :=
  [object, refCounted, resource, node, node2D, node3D, canvasItem, canvasLayer, control,
    container, panel, label, button, window, sprite2D, sprite3D, animatedSprite2D,
    animationPlayer, area2D, area3D, characterBody2D, characterBody3D, rigidBody2D,
    rigidBody3D, staticBody2D, staticBody3D, collisionShape2D, collisionShape3D, camera2D,
    camera3D, meshInstance3D, marker2D, timer, audioStreamPlayer]

def scriptName : EngineKind → String
  | object => "Object"
  | refCounted => "RefCounted"
  | resource => "Resource"
  | node => "Node"
  | node2D => "Node2D"
  | node3D => "Node3D"
  | canvasItem => "CanvasItem"
  | canvasLayer => "CanvasLayer"
  | control => "Control"
  | container => "Container"
  | panel => "Panel"
  | label => "Label"
  | button => "Button"
  | window => "Window"
  | sprite2D => "Sprite2D"
  | sprite3D => "Sprite3D"
  | animatedSprite2D => "AnimatedSprite2D"
  | animationPlayer => "AnimationPlayer"
  | area2D => "Area2D"
  | area3D => "Area3D"
  | characterBody2D => "CharacterBody2D"
  | characterBody3D => "CharacterBody3D"
  | rigidBody2D => "RigidBody2D"
  | rigidBody3D => "RigidBody3D"
  | staticBody2D => "StaticBody2D"
  | staticBody3D => "StaticBody3D"
  | collisionShape2D => "CollisionShape2D"
  | collisionShape3D => "CollisionShape3D"
  | camera2D => "Camera2D"
  | camera3D => "Camera3D"
  | meshInstance3D => "MeshInstance3D"
  | marker2D => "Marker2D"
  | timer => "Timer"
  | audioStreamPlayer => "AudioStreamPlayer"

/-- The name of the class on the C# side. -/
def typeName : EngineKind → String
  | object => "GodotObject"
  | k => k.scriptName

def ofScriptName? (name : String) : Option EngineKind := all.find? (·.scriptName == name)

theorem ofScriptName?_scriptName (k : EngineKind) : ofScriptName? k.scriptName = some k := by
  cases k <;> decide

theorem ofScriptName?_eq_some_iff {name : String} {k : EngineKind} :
    ofScriptName? name = some k ↔ k.scriptName = name := by
  constructor
  · intro h
    rw [ofScriptName?] at h
    simpa using List.find?_some h
  · rintro rfl
    exact ofScriptName?_scriptName k

end EngineKind

end ScriptBridge
