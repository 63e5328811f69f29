import ScriptBridge.Text.Position

/-! Tokens of a script. Only the words that introduce declarations, and the three
literal words, are keywords; words of statements stay identifiers, because bodies
are never read. -/

namespace ScriptBridge

inductive Keyword where
  | className | extending | var | const | func | signal | static
  | enumeration | innerClass | trueLiteral | falseLiteral | nullLiteral
  deriving DecidableEq

namespace Keyword

def all : List Keyword :=
  [className, extending, var, const, func, signal, static,
    enumeration, innerClass, trueLiteral, falseLiteral, nullLiteral]

/-- The spelling in a script. -/
def word : Keyword → String
  | className => "class_name"
  | extending => "extends"
  | var => "var"
  | const => "const"
  | func => "func"
  | signal => "signal"
  | static => "static"
  | enumeration => "enum"
  | innerClass => "class"
  | trueLiteral => "true"
  | falseLiteral => "false"
  | nullLiteral => "null"

def ofWord? (text : String) : Option Keyword := all.find? (·.word == text)

end Keyword

inductive Bracket where
  | paren | square | brace
  deriving DecidableEq

inductive TokenKind where
  | endOfFile | newline | indent | identifier | integer | float | text | tag
  | keyword (k : Keyword)
  | opening (b : Bracket)
  | closing (b : Bracket)
  | comma | colon | colonEquals | equals | arrow | dot | operator
  deriving DecidableEq

structure Token where
  kind : TokenKind
  span : Span := {}
  text : String := ""
  deriving DecidableEq

namespace Token

/-- The token at which every script ends. -/
def endOfFile : Token := { kind := .endOfFile }

/-- A logical line ends at a line end and at the end of the script. -/
def endsLine (t : Token) : Bool := t.kind == .endOfFile || t.kind == .newline

/-- The semicolon, which separates statements on one line. -/
def isSemicolon (t : Token) : Bool := t.kind == .operator && t.text == ";"

end Token

end ScriptBridge
