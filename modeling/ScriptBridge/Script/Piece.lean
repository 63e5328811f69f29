import ScriptBridge.Script.Fault
import ScriptBridge.Script.Token

/-! Cutting a script into pieces. A piece is a stretch of the source: blank matter,
a token, the end of a logical line, or text that is no token. A cut at the start of
a line removes blank and comment lines and marks indentation; inside a line,
brackets are counted, because a line end within brackets is blank matter. Every
cut shortens the text, so cutting ends. -/

namespace ScriptBridge

/-- The source of a token is its opening mark, its text and its closing mark. -/
inductive Piece where
  | gap (source : List Char)
  | lineEnd
  | token (kind : TokenKind) (opening text closing : List Char)
  | broken (fault : Fault) (source : List Char)

namespace Piece

def source : Piece → List Char
  | gap s => s
  | lineEnd => ['\n']
  | token _ a t b => a ++ t ++ b
  | broken _ s => s

/-- A token that is its own text. -/
def plain (kind : TokenKind) (text : List Char) : Piece := token kind [] text []

end Piece

/-- Where cutting stands: before the first character of a logical line, or inside
one with a number of open brackets. -/
inductive Stand where
  | lineStart
  | inLine (depth : Nat)
  deriving DecidableEq

/-- The outcome of one cut. -/
structure Cut where
  pieces : List Piece
  stand : Stand
  rest : List Char

namespace Cut

/-! ### Character classes -/

def isBlank (c : Char) : Bool := c == ' ' || c == '\t'

def isQuote (c : Char) : Bool := c == '"' || c == '\''

/-- Every character beyond ASCII may stand in a name. -/
def isNameStart (c : Char) : Bool := c.isAlpha || c == '_' || 0x80 ≤ c.val

def isNamePart (c : Char) : Bool := c.isAlphanum || c == '_' || 0x80 ≤ c.val

def isHexDigit (c : Char) : Bool :=
  c.isDigit || ('a' ≤ c && c ≤ 'f') || ('A' ≤ c && c ≤ 'F')

/-! ### Numbers -/

/-- The part from the decimal point on. A point that ends the number belongs to it
unless a name follows, as in a method call. -/
def fraction : List Char → List Char × List Char
  | '.' :: c :: cs =>
    if c.isDigit then
      ('.' :: (c :: cs).takeWhile (fun d => d.isDigit || d == '_'),
        (c :: cs).dropWhile (fun d => d.isDigit || d == '_'))
    else if isNameStart c then ([], '.' :: c :: cs)
    else (['.'], c :: cs)
  | ['.'] => (['.'], [])
  | cs => ([], cs)

/-- The sign that may stand after an exponent mark. -/
def sign : List Char → List Char × List Char
  | c :: cs => if c == '+' || c == '-' then ([c], cs) else ([], c :: cs)
  | [] => ([], [])

def exponent : List Char → List Char × List Char
  | c :: cs =>
    if c == 'e' || c == 'E' then
      (c :: (sign cs).1 ++ (sign cs).2.takeWhile Char.isDigit, (sign cs).2.dropWhile Char.isDigit)
    else ([], c :: cs)
  | [] => ([], [])

/-- A decimal number is a float exactly if it has a fraction or an exponent. -/
def decimal (cs : List Char) : TokenKind × List Char × List Char :=
  let whole := cs.takeWhile (fun d => d.isDigit || d == '_')
  let f := fraction (cs.dropWhile (fun d => d.isDigit || d == '_'))
  let e := exponent f.2
  (if f.1.isEmpty && e.1.isEmpty then .integer else .float, whole ++ f.1 ++ e.1, e.2)

def number (cs : List Char) : TokenKind × List Char × List Char :=
  match cs with
  | '0' :: c :: r =>
    if c == 'x' || c == 'X' then
      (.integer, '0' :: c :: r.takeWhile (fun d => isHexDigit d || d == '_'),
        r.dropWhile (fun d => isHexDigit d || d == '_'))
    else if c == 'b' || c == 'B' then
      (.integer, '0' :: c :: r.takeWhile (fun d => d == '0' || d == '1' || d == '_'),
        r.dropWhile (fun d => d == '0' || d == '1' || d == '_'))
    else decimal cs
  | cs => decimal cs

/-! ### Text literals -/

/-- The content of a text literal and what follows it: the closing mark, or the
place where the literal breaks off. A literal in single marks ends with its line; a
backslash hides the character after it, except in a raw literal. -/
def content (mark : List Char) (raw : Bool) : List Char → List Char × List Char
  | [] => ([], [])
  | c :: cs =>
    if mark.isPrefixOf (c :: cs) || (c == '\n' && mark.length == 1) then ([], c :: cs)
    else if c == '\\' && !raw then
      match cs with
      | [] => ([c], [])
      | d :: ds => (c :: d :: (content mark raw ds).1, (content mark raw ds).2)
    else (c :: (content mark raw cs).1, (content mark raw cs).2)

section Content

variable {mark : List Char} {raw : Bool} {c : Char} {cs : List Char}

theorem content_stop (h : mark.isPrefixOf (c :: cs) || (c == '\n' && mark.length == 1)) :
    content mark raw (c :: cs) = ([], c :: cs) := by
  rw [content.eq_def]
  exact if_pos h

theorem content_last (h : ¬(mark.isPrefixOf [c] || (c == '\n' && mark.length == 1))) :
    content mark raw [c] = ([c], []) := by
  rw [content.eq_def]
  simp only [if_neg h]
  split <;> rfl

theorem content_hidden {d : Char} {ds : List Char}
    (h : ¬(mark.isPrefixOf (c :: d :: ds) || (c == '\n' && mark.length == 1)))
    (he : c == '\\' && !raw) :
    content mark raw (c :: d :: ds) =
      (c :: d :: (content mark raw ds).1, (content mark raw ds).2) := by
  rw [content.eq_def]
  simp only [if_neg h, if_pos he]

theorem content_kept (h : ¬(mark.isPrefixOf (c :: cs) || (c == '\n' && mark.length == 1)))
    (he : ¬(c == '\\' && !raw)) :
    content mark raw (c :: cs) = (c :: (content mark raw cs).1, (content mark raw cs).2) := by
  rw [content.eq_def]
  simp only [if_neg h, if_neg he]

end Content

/-- One quote, or three of the same. -/
def markOf (quote : Char) (cs : List Char) : List Char :=
  if [quote, quote].isPrefixOf cs then [quote, quote, quote] else [quote]

/-- A text literal after its first quote. -/
def textLiteral (raw : Bool) (quote : Char) (cs : List Char) : Piece × List Char :=
  let mark := markOf quote cs
  let body := content mark raw (cs.drop (mark.length - 1))
  if mark.isPrefixOf body.2 then
    (.token .text mark body.1 mark, body.2.drop mark.length)
  else (.broken .unterminatedString (mark ++ body.1), body.2)

/-! ### Signs -/

/-- An operator that starts with `c`: with an equals sign, doubled, or alone. -/
def operator (c : Char) (cs : List Char) : List Char × List Char :=
  match cs with
  | d :: r =>
    if d == '=' && !(['$', '?', ';', '~'].contains c) then ([c, d], r)
    else if d == c && ['<', '>', '*', '&', '|'].contains c then
      match r with
      | '=' :: r' => ([c, d, '='], r')
      | r => ([c, d], r)
    else ([c], d :: r)
  | [] => ([c], [])

/-- A sign of one or two characters. -/
def mark? (c : Char) (cs : List Char) : Option (TokenKind × List Char × List Char) :=
  match c, cs with
  | ',', r => some (.comma, [','], r)
  | '.', r => some (.dot, ['.'], r)
  | ':', '=' :: r => some (.colonEquals, [':', '='], r)
  | ':', r => some (.colon, [':'], r)
  | '=', '=' :: r => some (.operator, ['=', '='], r)
  | '=', r => some (.equals, ['='], r)
  | '-', '>' :: r => some (.arrow, ['-', '>'], r)
  | '-', '=' :: r => some (.operator, ['-', '='], r)
  | '-', r => some (.operator, ['-'], r)
  | c, r =>
    if ['+', '*', '/', '%', '<', '>', '!', '&', '|', '^', '~', '$', '?', ';'].contains c then
      some (.operator, (operator c r).1, (operator c r).2)
    else none

def opening? : Char → Option Bracket
  | '(' => some .paren
  | '[' => some .square
  | '{' => some .brace
  | _ => none

def closing? : Char → Option Bracket
  | ')' => some .paren
  | ']' => some .square
  | '}' => some .brace
  | _ => none

/-! ### Cuts -/

/-- A comment, up to the end of its line. -/
def comment (cs : List Char) : List Char × List Char :=
  if cs.head? == some '#' then (cs.takeWhile (· != '\n'), cs.dropWhile (· != '\n')) else ([], cs)

def carriageReturn : List Char → List Char × List Char
  | '\r' :: cs => (['\r'], cs)
  | cs => ([], cs)

/-- The blank matter that opens a line: blanks, a comment, a carriage return. -/
def margin (cs : List Char) : List Char × List Char :=
  let body := comment (cs.dropWhile isBlank)
  let tail := carriageReturn body.2
  (cs.takeWhile isBlank ++ body.1 ++ tail.1, tail.2)

/-- A line with nothing but a margin is blank matter; any other is entered, and an
indented one is marked. -/
def enter (indented : Bool) (margin : List Char) : List Char → Cut
  | [] => ⟨[.gap margin], .lineStart, []⟩
  | '\n' :: cs => ⟨[.gap (margin ++ ['\n'])], .lineStart, cs⟩
  | cs => ⟨[if indented then .token .indent margin [] [] else .gap margin], .inLine 0, cs⟩

def atLineStart (cs : List Char) : Cut :=
  enter (cs.takeWhile isBlank != []) (margin cs).1 (margin cs).2

/-- A name or a keyword. -/
def word (cs : List Char) : Piece × List Char :=
  let text := cs.takeWhile isNamePart
  let kind := (Keyword.ofWord? (String.ofList text)).elim .identifier .keyword
  (.plain kind text, cs.dropWhile isNamePart)

def numeral (cs : List Char) : Piece × List Char :=
  (.plain (number cs).1 (number cs).2.1, (number cs).2.2)

/-- An annotation after its sign. -/
def tag (cs : List Char) : Piece × List Char :=
  match cs.takeWhile isNamePart with
  | [] => (.broken .missingTagName ['@'], cs)
  | name => (.token .tag ['@'] name [], cs.dropWhile isNamePart)

/-- A cut of one piece that leaves the brackets as they are. -/
def one (depth : Nat) (p : Piece × List Char) : Cut := ⟨[p.1], .inLine depth, p.2⟩

/-- A bracket, another sign, or a character that has no place in a script. -/
def punctuation (depth : Nat) (c : Char) (cs : List Char) : Cut :=
  match opening? c, closing? c, mark? c cs with
  | some b, _, _ => ⟨[.plain (.opening b) [c]], .inLine (depth + 1), cs⟩
  | none, some b, _ => ⟨[.plain (.closing b) [c]], .inLine (depth - 1), cs⟩
  | none, none, some m => one depth (.plain m.1 m.2.1, m.2.2)
  | none, none, none => one depth (.broken .unexpectedCharacter [c], cs)

/-- One cut inside a line. -/
def inLine (depth : Nat) (c : Char) (cs : List Char) : Cut :=
  if c == '\n' then
    if depth = 0 then ⟨[.lineEnd], .lineStart, cs⟩ else one depth (.gap [c], cs)
  else if c == ' ' || c == '\t' || c == '\r' then one depth (.gap [c], cs)
  else if c == '#' then
    one depth (.gap (c :: cs.takeWhile (· != '\n')), cs.dropWhile (· != '\n'))
  else if c == '\\' && ['\n'].isPrefixOf cs then one depth (.gap (c :: cs.take 1), cs.drop 1)
  else if c == '\\' && ['\r', '\n'].isPrefixOf cs then
    one depth (.gap (c :: cs.take 2), cs.drop 2)
  else if c == 'r' && (cs.head?.map isQuote).getD false then
    ⟨[.gap [c], (textLiteral true (cs.headD c) cs.tail).1], .inLine depth,
      (textLiteral true (cs.headD c) cs.tail).2⟩
  else if isNameStart c then one depth (word (c :: cs))
  else if c.isDigit || (c == '.' && (cs.head?.map Char.isDigit).getD false) then
    one depth (numeral (c :: cs))
  else if isQuote c then one depth (textLiteral false c cs)
  else if c == '@' then one depth (tag cs)
  else punctuation depth c cs

/-! ### Every cut shortens the text -/

theorem length_dropWhile_le {α : Type} (p : α → Bool) (l : List α) :
    (l.dropWhile p).length ≤ l.length := (List.dropWhile_sublist p).length_le

theorem fraction_length (cs : List Char) : (fraction cs).2.length ≤ cs.length := by
  unfold fraction
  split
  · next c cs =>
    split
    · have := length_dropWhile_le (fun d => d.isDigit || d == '_') (c :: cs)
      simp only [List.length_cons] at this ⊢
      omega
    · split <;> simp
  · simp
  · simp

theorem fraction_length_of_isDigit {c : Char} (cs : List Char) (h : c.isDigit) :
    (fraction ('.' :: c :: cs)).2.length ≤ (c :: cs).length := by
  simp only [fraction, h, if_true]
  exact length_dropWhile_le _ _

theorem sign_length (cs : List Char) : (sign cs).2.length ≤ cs.length := by
  unfold sign
  split
  · split <;> simp
  · simp

theorem exponent_length (cs : List Char) : (exponent cs).2.length ≤ cs.length := by
  unfold exponent
  split
  · next c cs =>
    split
    · have h₁ := length_dropWhile_le Char.isDigit (sign cs).2
      have h₂ := sign_length cs
      simp only [List.length_cons]
      omega
    · simp
  · simp

theorem decimal_length {c : Char} {cs : List Char}
    (h : c.isDigit || (c == '.' && (cs.head?.map Char.isDigit).getD false)) :
    (decimal (c :: cs)).2.2.length ≤ cs.length := by
  have he := exponent_length (fraction ((c :: cs).dropWhile (fun d => d.isDigit || d == '_'))).2
  refine Nat.le_trans he ?_
  by_cases hc : c.isDigit
  · rw [List.dropWhile_cons_of_pos (by simp [hc])]
    exact Nat.le_trans (fraction_length _) (length_dropWhile_le _ _)
  · obtain ⟨hd, ho⟩ : c = '.' ∧ (cs.head?.map Char.isDigit).getD false = true := by
      simpa [hc] using h
    subst hd
    cases cs with
    | nil => simp at ho
    | cons d ds =>
      rw [List.dropWhile_cons_of_neg (by decide)]
      exact fraction_length_of_isDigit ds (by simpa using ho)

theorem number_length {c : Char} {cs : List Char}
    (h : c.isDigit || (c == '.' && (cs.head?.map Char.isDigit).getD false)) :
    (number (c :: cs)).2.2.length ≤ cs.length := by
  unfold number
  split
  · next d r heq =>
    obtain ⟨rfl, rfl⟩ := List.cons.inj heq
    split
    · exact Nat.le_trans (length_dropWhile_le _ _) (by simp)
    · split
      · exact Nat.le_trans (length_dropWhile_le _ _) (by simp)
      · exact decimal_length h
  · exact decimal_length h

theorem content_length (mark : List Char) (raw : Bool) (cs : List Char) :
    (content mark raw cs).2.length ≤ cs.length := by
  fun_induction content mark raw cs <;> simp_all <;> omega

theorem textLiteral_length (raw : Bool) (quote : Char) (cs : List Char) :
    (textLiteral raw quote cs).2.length ≤ cs.length := by
  have h := content_length (markOf quote cs) raw (cs.drop ((markOf quote cs).length - 1))
  simp only [List.length_drop] at h
  simp only [textLiteral]
  split <;> simp only [List.length_drop] <;> omega

theorem operator_length (c : Char) (cs : List Char) : (operator c cs).2.length ≤ cs.length := by
  unfold operator
  split
  · split
    · simp
    · split
      · split <;> simp
        omega
      · simp
  · simp

theorem mark?_length {c : Char} {cs : List Char} {m : TokenKind × List Char × List Char}
    (h : mark? c cs = some m) : m.2.2.length ≤ cs.length := by
  unfold mark? at h
  split at h <;> try (cases h; simp)
  split at h
  · cases h
    exact operator_length _ _
  · cases h

theorem punctuation_length (depth : Nat) (c : Char) (cs : List Char) :
    (punctuation depth c cs).rest.length ≤ cs.length := by
  unfold punctuation
  split
  · exact Nat.le_refl _
  · exact Nat.le_refl _
  · exact mark?_length ‹_›
  · exact Nat.le_refl _

theorem isNamePart_of_isNameStart {c : Char} (h : isNameStart c) : isNamePart c := by
  simp only [isNameStart, isNamePart, Char.isAlphanum, Bool.or_eq_true] at h ⊢
  rcases h with (h | h) | h <;> simp [h]

theorem word_length {c : Char} {cs : List Char} (h : isNameStart c) :
    (word (c :: cs)).2.length ≤ cs.length := by
  simp only [word]
  rw [List.dropWhile_cons_of_pos (isNamePart_of_isNameStart h)]
  exact length_dropWhile_le _ _

theorem tag_length (cs : List Char) : (tag cs).2.length ≤ cs.length := by
  unfold tag
  split
  · exact Nat.le_refl _
  · exact length_dropWhile_le _ _

theorem inLine_length (depth : Nat) (c : Char) (cs : List Char) :
    (inLine depth c cs).rest.length ≤ cs.length := by
  unfold inLine
  split
  · split <;> exact Nat.le_refl _
  · split
    · exact Nat.le_refl _
    · split
      · exact length_dropWhile_le _ _
      · split
        · simp [one]
        · split
          · simp [one]
          · split
            · exact Nat.le_trans (textLiteral_length _ _ _) (by simp)
            · split
              · exact word_length ‹_›
              · split
                · exact number_length ‹_›
                · split
                  · exact textLiteral_length _ _ _
                  · split
                    · exact tag_length _
                    · exact punctuation_length _ _ _

theorem comment_length (cs : List Char) : (comment cs).2.length ≤ cs.length := by
  unfold comment
  split
  · exact length_dropWhile_le _ _
  · exact Nat.le_refl _

theorem carriageReturn_length (cs : List Char) : (carriageReturn cs).2.length ≤ cs.length := by
  unfold carriageReturn
  split <;> simp

theorem margin_length (cs : List Char) : (margin cs).2.length ≤ cs.length :=
  Nat.le_trans (carriageReturn_length _)
    (Nat.le_trans (comment_length _) (length_dropWhile_le _ _))

/-- A cut at a line start shortens the text or enters the line. -/
theorem atLineStart_length (c : Char) (cs : List Char) :
    (atLineStart (c :: cs)).rest.length < (c :: cs).length ∨
      ((atLineStart (c :: cs)).rest.length ≤ (c :: cs).length ∧
        (atLineStart (c :: cs)).stand = .inLine 0) := by
  have h := margin_length (c :: cs)
  unfold atLineStart enter
  split
  · exact .inl (by simp)
  · next r heq =>
    rw [heq] at h
    exact .inl h
  · exact .inr ⟨h, rfl⟩

end Cut

/-! ### The whole text -/

/-- What is left to cut: the text, and whether its line is still to be entered. -/
def Stand.toNat : Stand → Nat
  | .lineStart => 1
  | .inLine _ => 0

/-- The pieces of a text, and where cutting stands at its end. -/
def cutAll : Stand → List Char → List Piece × Stand
  | stand, [] => ([], stand)
  | .lineStart, c :: cs =>
    let k := Cut.atLineStart (c :: cs)
    let r := cutAll k.stand k.rest
    (k.pieces ++ r.1, r.2)
  | .inLine depth, c :: cs =>
    let k := Cut.inLine depth c cs
    let r := cutAll k.stand k.rest
    (k.pieces ++ r.1, r.2)
termination_by stand cs => (cs.length, stand.toNat)
decreasing_by
  · rcases Cut.atLineStart_length c cs with h | ⟨h, hs⟩
    · exact Prod.Lex.left _ _ h
    · rcases Nat.lt_or_eq_of_le h with h | h
      · exact Prod.Lex.left _ _ h
      · rw [hs, h]
        exact Prod.Lex.right _ (by decide)
  · exact Prod.Lex.left _ _ (Nat.lt_succ_of_le (Cut.inLine_length depth c cs))

end ScriptBridge
