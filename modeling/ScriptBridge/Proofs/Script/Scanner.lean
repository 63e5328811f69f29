import ScriptBridge.Script.Piece

/-! A scanner over the bytes of a script. It has a cursor, and it keeps the line and the column of
the cursor beside it: every byte that is taken moves the column on, a line feed does not, and where
one is taken the line is moved on by itself. The parts of the scanner stand here one by one, down
to the taking of single bytes, and one turn of its loop over the script. -/

namespace ScriptBridge

/-- A place in a script, counted in words of 32 bits. -/
structure Location where
  line : UInt32 := 1
  column : UInt32 := 1
  deriving DecidableEq

structure ScannedToken where
  kind : TokenKind
  start : Location
  stop : Location
  text : List Char := []
  deriving DecidableEq

structure ScannedFault where
  fault : Fault
  start : Location
  stop : Location
  deriving DecidableEq

/-- A scanner with what it has found so far. The source is the bytes of a script, each as the
character of its number. -/
structure Scanner where
  source : List Char
  current : Nat := 0
  location : Location := {}
  tokens : List ScannedToken := []
  faults : List ScannedFault := []
  depth : Nat := 0
  atLineStart : Bool := true

namespace Scanner

open Cut (isBlank isQuote isNameStart isNamePart isHexDigit)

/-! ### Single bytes -/

def isAtEnd (s : Scanner) : Bool := s.source.length ≤ s.current

/-- A byte ahead of the cursor; behind the end of the script there are zeros. -/
def peekAt (s : Scanner) (offset : Nat) : Char := s.source.getD (s.current + offset) '\x00'

def peek (s : Scanner) : Char := s.peekAt 0

def peekNext (s : Scanner) : Char := s.peekAt 1

/-- Takes a byte. The column stays where it is at a line feed. -/
def advance (s : Scanner) : Scanner :=
  { s with
    current := s.current + 1
    location :=
      if s.peek = '\n' then s.location else { s.location with column := s.location.column + 1 } }

/-- Moves on to the next line, behind its line feed. -/
def advanceLine (s : Scanner) : Scanner :=
  { s with location := { line := s.location.line + 1, column := 1 } }

/-- Takes so many bytes. -/
def advances : Nat → Scanner → Scanner
  | 0, s => s
  | count + 1, s => advances count s.advance

/-- Takes bytes of a sort. The zeros behind the end of the script are of none of the sorts. -/
def advanceWhile (p : Char → Bool) (s : Scanner) : Scanner :=
  if _h : s.current < s.source.length then
    if p s.peek then advanceWhile p s.advance else s
  else s
termination_by s.source.length - s.current
decreasing_by exact Nat.sub_succ_lt_self _ _ _h

/-- The bytes from a place up to the cursor. -/
def slice (s : Scanner) (start : Nat) : List Char := (s.source.drop start).take (s.current - start)

def push (s : Scanner) (kind : TokenKind) (start stop : Location) (text : List Char) : Scanner :=
  { s with tokens := s.tokens ++ [⟨kind, start, stop, text⟩] }

/-- A fault from a place up to the cursor. -/
def report (s : Scanner) (fault : Fault) (start : Location) : Scanner :=
  { s with faults := s.faults ++ [⟨fault, start, s.location⟩] }

/-! ### Lines -/

def skipComment (s : Scanner) : Scanner := s.advanceWhile (· != '\n')

def endLogicalLine (s : Scanner) (location : Location) : Scanner :=
  { s.push .newline location location [] with atLineStart := true }

/-- A comment and a carriage return behind the blanks at the start of a line. -/
def skipMargin (s : Scanner) : Scanner :=
  let s := if s.peek = '#' then s.skipComment else s
  if s.peek = '\r' then s.advance else s

/-- What stands behind the margin of a line that starts at a place. -/
def enterLine (s : Scanner) (indented : Bool) (start : Location) : Scanner :=
  if s.peek = '\n' then s.advance.advanceLine
  else if s.isAtEnd then s
  else
    let s := if indented then s.push .indent start s.location [] else s
    { s with atLineStart := false }

/-- The start of a line. A line with nothing but blanks and a comment has no tokens. -/
def lineStart (s : Scanner) : Scanner :=
  let behind := s.advanceWhile isBlank
  if behind.isAtEnd then behind else behind.skipMargin.enterLine (isBlank s.peek) s.location

/-! ### Words and numbers -/

def wordKind (text : List Char) : TokenKind :=
  (Keyword.ofWord? (String.ofList text)).elim .identifier .keyword

def word (s : Scanner) : Scanner :=
  let r := s.advance.advanceWhile isNamePart
  r.push (wordKind (r.slice s.current)) s.location r.location (r.slice s.current)

def tag (s : Scanner) : Scanner :=
  let name := s.advance
  let r := name.advanceWhile isNamePart
  if r.current = name.current then r.report .missingTagName s.location
  else r.push .tag s.location r.location (r.slice name.current)

/-- The part of a number from the decimal point on, and whether there is one. -/
def fraction (s : Scanner) : Scanner × Bool :=
  if s.peek = '.' ∧ s.peekNext.isDigit then
    (s.advance.advanceWhile (fun d => d.isDigit || d == '_'), true)
  else if s.peek = '.' ∧ ¬isNameStart s.peekNext then (s.advance, true)
  else (s, false)

/-- The exponent of a number, and whether there is one. -/
def exponent (s : Scanner) : Scanner × Bool :=
  if s.peek = 'e' ∨ s.peek = 'E' then
    let s := s.advance
    let s := if s.peek = '+' ∨ s.peek = '-' then s.advance else s
    (s.advanceWhile Char.isDigit, true)
  else (s, false)

/-- A number, and whether it has a fraction or an exponent. -/
def digits (s : Scanner) : Scanner × Bool :=
  if s.peek = '0' ∧ (s.peekNext = 'x' ∨ s.peekNext = 'X') then
    (s.advance.advance.advanceWhile (fun d => isHexDigit d || d == '_'), false)
  else if s.peek = '0' ∧ (s.peekNext = 'b' ∨ s.peekNext = 'B') then
    (s.advance.advance.advanceWhile (fun d => d == '0' || d == '1' || d == '_'), false)
  else
    let f := (s.advanceWhile (fun d => d.isDigit || d == '_')).fraction
    let e := f.1.exponent
    (e.1, f.2 || e.2)

def number (s : Scanner) : Scanner :=
  let r := s.digits
  r.1.push (if r.2 then .float else .integer) s.location r.1.location (r.1.slice s.current)

/-! ### Text literals -/

/-- Whether the mark that closes a literal stands here. -/
def closes (s : Scanner) (quote : Char) (triple : Bool) : Bool :=
  s.peek == quote && (!triple || (s.peekNext == quote && s.peekAt 2 == quote))

theorem lt_advance {s : Scanner} (h : s.current < s.source.length) :
    s.source.length - s.advance.current < s.source.length - s.current :=
  Nat.sub_succ_lt_self _ _ h

/-- The content of a literal, and whether its closing mark stands behind it. A line feed ends a
literal of one quote, unless a backslash hides it. -/
def content (quote : Char) (triple raw : Bool) (s : Scanner) : Scanner × Bool :=
  if _h : s.current < s.source.length then
    if s.closes quote triple then (s, true)
    else if s.peek = '\n' then
      if triple then content quote triple raw s.advance.advanceLine else (s, false)
    else if s.peek = '\\' ∧ raw = false ∧ s.advance.isAtEnd = false then
      if s.advance.peek = '\n' then content quote triple raw s.advance.advance.advanceLine
      else content quote triple raw s.advance.advance
    else content quote triple raw s.advance
  else (s, false)
termination_by s.source.length - s.current
decreasing_by
  · exact lt_advance _h
  · exact Nat.lt_of_le_of_lt (Nat.sub_le_sub_left (Nat.le_succ _) _) (lt_advance _h)
  · exact Nat.lt_of_le_of_lt (Nat.sub_le_sub_left (Nat.le_succ _) _) (lt_advance _h)
  · exact lt_advance _h

def string (s : Scanner) (raw : Bool) : Scanner :=
  let quote := s.peek
  let triple := s.peekNext == quote && s.peekAt 2 == quote
  let length := if triple then 3 else 1
  let opened := advances length s
  let r := opened.content quote triple raw
  if r.2 then
    let closed := advances length r.1
    closed.push .text s.location closed.location (r.1.slice opened.current)
  else r.1.report .unterminatedString s.location

/-! ### Signs -/

/-- A token of one byte. -/
def single (s : Scanner) (kind : TokenKind) : Scanner :=
  let r := s.advance
  r.push kind s.location r.location (r.slice s.current)

def openBracket (s : Scanner) (b : Bracket) : Scanner :=
  { s with depth := s.depth + 1 }.single (.opening b)

/-- A bracket that was never opened closes nothing. -/
def closeBracket (s : Scanner) (b : Bracket) : Scanner :=
  { s with depth := s.depth - 1 }.single (.closing b)

/-- Takes a byte if it is the one that is looked for. -/
def accepts (s : Scanner) (expected : Char) : Bool := !s.isAtEnd && s.peek == expected

/-- A colon, alone or with an equals sign. -/
def colon (s : Scanner) : Scanner :=
  let r := s.advance
  if r.accepts '=' then
    r.advance.push .colonEquals s.location r.advance.location [':', '=']
  else r.push .colon s.location r.location [':']

def equals (s : Scanner) : Scanner :=
  let r := s.advance
  if r.accepts '=' then
    r.advance.push .operator s.location r.advance.location ['=', '=']
  else r.push .equals s.location r.location ['=']

def minus (s : Scanner) : Scanner :=
  let r := s.advance
  if r.accepts '>' then r.advance.push .arrow s.location r.advance.location ['-', '>']
  else if r.accepts '=' then
    r.advance.push .operator s.location r.advance.location ['-', '=']
  else r.push .operator s.location r.location ['-']

/-- An operator: with an equals sign, doubled, or alone. -/
def operator (s : Scanner) : Scanner :=
  let first := s.peek
  let r := s.advance
  let r :=
    if r.peek = '=' ∧ first ∉ ['$', '?', ';', '~'] then r.advance
    else if r.peek = first ∧ first ∈ ['<', '>', '*', '&', '|'] then
      if r.advance.peek = '=' then r.advance.advance else r.advance
    else r
  r.push .operator s.location r.location (r.slice s.current)

/-- A sign, by its first byte. -/
def sign (s : Scanner) : Scanner :=
  match s.peek with
  | '@' => s.tag
  | '(' => s.openBracket .paren
  | ')' => s.closeBracket .paren
  | '[' => s.openBracket .square
  | ']' => s.closeBracket .square
  | '{' => s.openBracket .brace
  | '}' => s.closeBracket .brace
  | ',' => s.single .comma
  | '.' => s.single .dot
  | ':' => s.colon
  | '=' => s.equals
  | '-' => s.minus
  | c =>
    if c ∈ ['+', '*', '/', '%', '<', '>', '!', '&', '|', '^', '~', '$', '?', ';'] then s.operator
    else s.advance.report .unexpectedCharacter s.location

/-! ### One turn -/

/-- A line feed. It ends a logical line outside brackets. -/
def lineFeed (s : Scanner) : Scanner :=
  let r := s.advance
  (if r.depth = 0 then r.endLogicalLine s.location else r).advanceLine

/-- A backslash with the line break behind it. -/
def continuation (s : Scanner) : Scanner :=
  let r := s.advance
  let r := if r.peek = '\r' then r.advance else r
  r.advance.advanceLine

/-- One turn inside a line. -/
def inLine (s : Scanner) : Scanner :=
  if s.peek = '\n' then s.lineFeed
  else if s.peek = ' ' ∨ s.peek = '\t' ∨ s.peek = '\r' then s.advance
  else if s.peek = '#' then s.skipComment
  else if s.peek = '\\' ∧ (s.peekNext = '\n' ∨ s.peekNext = '\r' ∧ s.peekAt 2 = '\n') then
    s.continuation
  else if s.peek = 'r' ∧ isQuote s.peekNext then s.advance.string true
  else if isNameStart s.peek then s.word
  else if s.peek.isDigit ∨ s.peek = '.' ∧ s.peekNext.isDigit then s.number
  else if isQuote s.peek then s.string false
  else s.sign

/-- One turn of the loop over a script, which is not at its end. -/
def step (s : Scanner) : Scanner :=
  if s.atLineStart ∧ s.depth = 0 then s.lineStart else s.inLine

/-- What is found behind the last turn: the end of a line that is open, and that of the script. -/
def finish (s : Scanner) : Scanner :=
  let s :=
    match s.tokens.getLast? with
    | some t => if t.kind = TokenKind.newline then s else s.endLogicalLine s.location
    | none => s
  s.push .endOfFile s.location s.location []

end Scanner

end ScriptBridge
