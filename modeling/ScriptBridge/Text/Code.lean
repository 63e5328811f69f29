import ScriptBridge.Lists

/-! Code as text: names as identifiers, quoted literals, and units of nested blocks. A unit
is a list of fragments: lines, blank lines, and the two ends of a block. Writing a fragment
indents it by the number of open blocks, four blanks for each, and leaves blank lines
without trailing blanks. -/

namespace ScriptBridge

/-! ### Identifiers -/

def reservedWords : List String :=
  ["abstract", "as", "base", "bool", "break", "byte", "case", "catch", "char", "checked", "class",
    "const", "continue", "decimal", "default", "delegate", "do", "double", "else", "enum", "event",
    "explicit", "extern", "false", "finally", "fixed", "float", "for", "foreach", "goto", "if",
    "implicit", "in", "int", "interface", "internal", "is", "lock", "long", "namespace", "new",
    "null", "object", "operator", "out", "override", "params", "private", "protected", "public",
    "readonly", "ref", "return", "sbyte", "sealed", "short", "sizeof", "stackalloc", "static",
    "string", "struct", "switch", "this", "throw", "true", "try", "typeof", "uint", "ulong",
    "unchecked", "unsafe", "ushort", "using", "virtual", "void", "volatile", "while"]

/-- A reserved word is an identifier only behind an at sign. -/
def identifier (name : String) : String :=
  if reservedWords.contains name then "@" ++ name else name

/-! ### Literals

Five characters are written as a backslash and a letter or the character itself; all others
stand for themselves. -/

namespace Literal

def escapeChar : Char → List Char
  | '\\' => ['\\', '\\']
  | '"' => ['\\', '"']
  | '\n' => ['\\', 'n']
  | '\r' => ['\\', 'r']
  | '\t' => ['\\', 't']
  | c => [c]

def escape (text : String) : String := String.ofList (text.toList.flatMap escapeChar)

def quoted (text : String) : String := "\"" ++ escape text ++ "\""

end Literal

/-! ### Blocks -/

inductive Fragment where
  | line (text : String)
  | blank (count : Nat)
  | openBlock (header : String)
  | closeBlock (suffix : String)
  deriving DecidableEq

/-- One line at a depth, with its line feed. -/
def indented (depth : Nat) (line : String) : String :=
  if line == "" then "\n"
  else String.ofList (List.replicate (4 * depth) ' ') ++ line ++ "\n"

namespace Fragment

/-- A text of several lines is indented line by line; a header is not divided. -/
def text (depth : Nat) : Fragment → String
  | line t => String.join ((splitOn '\n' t.toList).map fun l => indented depth (String.ofList l))
  | blank count => String.ofList (List.replicate count '\n')
  | openBlock header =>
    (if header == "" then "" else indented depth header) ++ indented depth "\x7b"
  | closeBlock suffix => indented (depth - 1) ("\x7d" ++ suffix)

/-- The number of open blocks after a fragment. There is no closing below none. -/
def depthAfter (depth : Nat) : Fragment → Nat
  | openBlock _ => depth + 1
  | closeBlock _ => depth - 1
  | _ => depth

end Fragment

/-- The text written so far, and the number of open blocks. -/
structure Sheet where
  text : String := ""
  depth : Nat := 0

namespace Sheet

def write (s : Sheet) (f : Fragment) : Sheet :=
  { text := s.text ++ f.text s.depth, depth := f.depthAfter s.depth }

def writeAll (s : Sheet) (fs : List Fragment) : Sheet := fs.foldl write s

/-- The fragments that close every open block. -/
def closing (s : Sheet) : List Fragment := List.replicate s.depth (.closeBlock "")

end Sheet

/-- The text of a list of fragments, with its open blocks closed. -/
def renderUnit (fs : List Fragment) : String :=
  let s := Sheet.writeAll {} fs
  (s.writeAll s.closing).text

end ScriptBridge
