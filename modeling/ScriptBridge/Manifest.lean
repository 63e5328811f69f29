import ScriptBridge.Generation
import ScriptBridge.Text.Code

/-! The manifest of a run: a JSON document that lists the classes, the proxies, the
units with the digests of their texts, and the scripts that were skipped. -/

namespace ScriptBridge

/-! ### Digests

A digest has 64 bits. Each byte is mixed in by an exclusive or and then spread by a
multiplication with an odd prime, modulo 2^64. -/

namespace Digest

def start : UInt64 := 14695981039346656037

def factor : UInt64 := 1099511628211

def mix (state : UInt64) (byte : UInt8) : UInt64 := (state ^^^ byte.toUInt64) * factor

def ofBytes (bytes : List UInt8) : UInt64 := bytes.foldl mix start

/-- The digest of the text's encoding in UTF-8. -/
def ofText (text : String) : UInt64 := ofBytes text.toUTF8.data.toList

/-- Sixteen lower-case hexadecimal digits. -/
def hex (digest : UInt64) : String :=
  String.ofList ((Nat.toDigits 16 digest.toNat).leftpad 16 '0')

end Digest

namespace Manifest

/-- Control characters are written by their number. -/
def escapeChar (c : Char) : List Char :=
  if c.val < 0x20 && !(['\n', '\r', '\t'].contains c) then
    "\\u00".toList ++ [Nat.digitChar (c.toNat / 16), Nat.digitChar (c.toNat % 16)]
  else Literal.escapeChar c

def quoted (text : String) : String :=
  "\"" ++ String.ofList (text.toList.flatMap escapeChar) ++ "\""

def boolean (b : Bool) : String := if b then "true" else "false"

/-- An object on lines of its own, from the names and the written values of its fields. -/
def object (fields : List (String × String)) : String :=
  "    \x7b\n" ++
    ",\n".intercalate (fields.map fun f => "      \"" ++ f.1 ++ "\": " ++ f.2) ++ "\n    \x7d"

/-- A list of objects, one below the other. -/
def objects (items : List String) : String :=
  "[\n" ++ (if items.isEmpty then "" else ",\n".intercalate items ++ "\n") ++ "  ]"

/-- A list of texts on one line. -/
def texts (items : List String) : String := "[" ++ ", ".intercalate (items.map quoted) ++ "]"

def classEntry (r : ClassReport) : String :=
  object
    [("class", quoted r.className), ("script", quoted r.scriptPath), ("bridge", quoted r.bridgeName),
      ("namespace", quoted r.namespaceName), ("base", quoted r.baseName),
      ("nativeRoot", quoted r.rootName), ("status", quoted r.status.name),
      ("emitted", boolean r.emitted)]

def unitEntry (u : GeneratedUnit) : String :=
  object
    [("file", quoted u.fileName), ("kind", quoted u.kind.name), ("type", quoted u.typeName),
      ("hash", quoted ("0x" ++ Digest.hex (Digest.ofText u.text)))]

def render (g : Generation) : String :=
  "\x7b\n  \"classes\": " ++ objects (g.classes.map classEntry) ++
    ",\n  \"proxies\": " ++ texts g.proxies ++
    ",\n  \"units\": " ++ objects (g.units.map unitEntry) ++
    ",\n  \"skipped\": " ++ texts g.skipped ++ "\n\x7d\n"

end Manifest

end ScriptBridge
