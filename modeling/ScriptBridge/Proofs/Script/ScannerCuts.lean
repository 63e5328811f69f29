import Mathlib
import ScriptBridge.Proofs.Script.CutCases
import ScriptBridge.Proofs.Script.LineBreaks
import ScriptBridge.Proofs.Script.Scanner

/-! Readers of a scanner. Proved: a reader of words, numbers or text literals takes from a script
what is cut from it, and moves the place of the scanner over all that it takes, line feeds within
literals among it. -/

namespace ScriptBridge

namespace Location

/-- The place behind a byte. -/
def advance (l : Location) (c : Char) : Location :=
  if c = '\n' then { line := l.line + 1, column := 1 } else { l with column := l.column + 1 }

/-- The place behind bytes. -/
def after (l : Location) (cs : List Char) : Location := cs.foldl advance l

@[simp] theorem after_nil (l : Location) : l.after [] = l := rfl

@[simp] theorem after_cons (l : Location) (c : Char) (cs : List Char) :
    l.after (c :: cs) = (l.advance c).after cs := rfl

theorem after_append (l : Location) (a b : List Char) : l.after (a ++ b) = (l.after a).after b :=
  List.foldl_append

end Location

namespace Scanner

open Cut (isBlank isQuote isNameStart isNamePart isHexDigit)

variable {s : Scanner} {c : Char} {cs xs ys : List Char}

/-! ### Before and behind the cursor -/

/-- The bytes from the cursor to the end of the script. -/
structure Faces (s : Scanner) (cs : List Char) : Prop where
  within : s.current ≤ s.source.length
  rest : s.source.drop s.current = cs

/-- The scanner behind bytes that it has before it. -/
def moved (s : Scanner) (xs : List Char) : Scanner :=
  { s with current := s.current + xs.length, location := s.location.after xs }

@[simp] theorem moved_nil (s : Scanner) : s.moved [] = s := rfl

theorem moved_moved (s : Scanner) (xs ys : List Char) :
    (s.moved xs).moved ys = s.moved (xs ++ ys) := by
  simp only [moved, List.length_append, Nat.add_assoc, Location.after_append]

@[simp] theorem location_moved (s : Scanner) (xs : List Char) :
    (s.moved xs).location = s.location.after xs := rfl

@[simp] theorem current_moved (s : Scanner) (xs : List Char) :
    (s.moved xs).current = s.current + xs.length := rfl

namespace Faces

theorem length_eq (h : s.Faces cs) : s.source.length = s.current + cs.length := by
  have hwithin := h.within
  have hlength := congrArg List.length h.rest
  rw [List.length_drop] at hlength
  omega

protected theorem moved (h : s.Faces (xs ++ ys)) : (s.moved xs).Faces ys where
  within := by
    have hlength := h.length_eq
    rw [List.length_append] at hlength
    change s.current + xs.length ≤ s.source.length
    omega
  rest := by
    change s.source.drop (s.current + xs.length) = ys
    rw [← List.drop_drop, h.rest, List.drop_left]

theorem peekAt (h : s.Faces cs) (offset : Nat) : s.peekAt offset = cs.getD offset '\x00' := by
  rw [Scanner.peekAt, List.getD_eq_getElem?_getD, List.getD_eq_getElem?_getD, ← h.rest,
    List.getElem?_drop]

theorem peek (h : s.Faces cs) : s.peek = cs.headD '\x00' := by
  rw [Scanner.peek, h.peekAt]
  cases cs <;> rfl

theorem isAtEnd (h : s.Faces cs) : s.isAtEnd = cs.isEmpty := by
  have hlength := h.length_eq
  rw [Scanner.isAtEnd, hlength]
  cases cs <;> simp

theorem lt_iff (h : s.Faces cs) : s.current < s.source.length ↔ cs ≠ [] := by
  rw [h.length_eq, ← List.length_pos_iff]
  omega

/-- A byte that is no line feed. -/
theorem advance (h : s.Faces (c :: cs)) (hc : c ≠ '\n') : s.advance = s.moved [c] := by
  have hpeek : s.peek ≠ '\n' := by rwa [h.peek]
  rw [Scanner.advance, if_neg hpeek, moved, Location.after_cons, Location.after_nil,
    Location.advance, if_neg hc]
  rfl

/-- A line feed, with the line moved on behind it. -/
theorem advanceLine (h : s.Faces ('\n' :: cs)) : s.advance.advanceLine = s.moved ['\n'] := by
  have hpeek : s.peek = '\n' := h.peek
  rw [Scanner.advance, if_pos hpeek]
  rfl

theorem moved_of_append (h : s.Faces cs) (hcs : xs ++ ys = cs) : (s.moved xs).Faces ys :=
  Faces.moved (hcs ▸ h)

/-- The bytes that the cursor has passed. -/
theorem slice (h : s.Faces cs) (hcs : xs ++ ys = cs) : (s.moved xs).slice s.current = xs := by
  rw [Scanner.slice]
  change (s.source.drop s.current).take (s.current + xs.length - s.current) = xs
  rw [h.rest, ← hcs, Nat.add_sub_cancel_left, List.take_left]

theorem advanceWhile {p : Char → Bool} (hp : p '\n' = false) (h : s.Faces cs) :
    s.advanceWhile p = s.moved (cs.takeWhile p) := by
  induction cs generalizing s with
  | nil =>
    rw [Scanner.advanceWhile, dif_neg (by simp [h.lt_iff])]
    rfl
  | cons c cs ih =>
    rw [Scanner.advanceWhile, dif_pos (by simp [h.lt_iff]), h.peek, List.headD_cons]
    by_cases hc : p c
    · have hline : c ≠ '\n' := by
        rintro rfl
        rw [hp] at hc
        cases hc
      have hbehind : (s.moved [c]).Faces cs := Faces.moved h
      rw [if_pos hc, h.advance hline, ih hbehind, moved_moved, List.takeWhile_cons_of_pos hc]
      rfl
    · rw [if_neg hc, List.takeWhile_cons_of_neg hc, moved_nil]

end Faces

/-! ### Pieces -/

/-- The scanner behind a piece, with the token or the fault of it. -/
def pass (s : Scanner) : Piece → Scanner
  | .gap source => s.moved source
  | .lineEnd => (s.push .newline s.location s.location []).moved ['\n']
  | .token kind a t b =>
    (s.moved (a ++ t ++ b)).push kind s.location (s.location.after (a ++ t ++ b)) t
  | .broken fault source => (s.moved source).report fault s.location

theorem source_pass (s : Scanner) (p : Piece) : (s.pass p).source = s.source := by
  cases p <;> rfl

theorem current_pass (s : Scanner) (p : Piece) :
    (s.pass p).current = s.current + p.source.length := by
  cases p <;> rfl

theorem Faces.pass {p : Piece} (h : s.Faces (p.source ++ cs)) : (s.pass p).Faces cs where
  within := by
    rw [source_pass, current_pass]
    exact h.moved.within
  rest := by
    rw [source_pass, current_pass]
    exact h.moved.rest

/-- The scanner behind pieces. -/
def passAll (s : Scanner) (ps : List Piece) : Scanner := ps.foldl pass s

@[simp] theorem passAll_nil (s : Scanner) : s.passAll [] = s := rfl

@[simp] theorem passAll_cons (s : Scanner) (p : Piece) (ps : List Piece) :
    s.passAll (p :: ps) = (s.pass p).passAll ps := rfl

theorem pass_plain (s : Scanner) (kind : TokenKind) (t : List Char) :
    s.pass (.plain kind t) = (s.moved t).push kind s.location (s.location.after t) t := by
  rw [Piece.plain, pass, List.nil_append, List.append_nil]

/-! ### Words -/

theorem word_eq (h : s.Faces (c :: cs)) (hc : isNameStart c) :
    s.word = s.pass (Cut.word (c :: cs)).1 := by
  have hline : c ≠ '\n' := by
    rintro rfl
    cases hc
  have hpart : isNamePart c := Cut.isNamePart_of_isNameStart hc
  have hrun : s.advance.advanceWhile isNamePart = s.moved ((c :: cs).takeWhile isNamePart) := by
    rw [h.advance hline, Faces.advanceWhile (by decide) (Faces.moved h : (s.moved [c]).Faces cs),
      moved_moved, List.takeWhile_cons_of_pos hpart]
    rfl
  have htext : (s.moved ((c :: cs).takeWhile isNamePart)).slice s.current =
      (c :: cs).takeWhile isNamePart :=
    h.slice List.takeWhile_append_dropWhile
  rw [word, hrun, htext, Cut.word, pass_plain]
  rfl

theorem tag_eq (h : s.Faces ('@' :: cs)) : s.tag = s.pass (Cut.tag cs).1 := by
  have hname : (s.moved ['@']).Faces cs := Faces.moved h
  have htext : ((s.moved ['@']).moved (cs.takeWhile isNamePart)).slice (s.moved ['@']).current =
      cs.takeWhile isNamePart :=
    hname.slice List.takeWhile_append_dropWhile
  rw [tag, h.advance (by decide), hname.advanceWhile (by decide), htext, Cut.tag]
  cases cs.takeWhile isNamePart with
  | nil =>
    rw [moved_nil, if_pos rfl]
    rfl
  | cons d ds => simp [moved_moved, pass]

/-! ### Numbers -/

theorem fraction_eq (h : s.Faces cs) :
    s.fraction = (s.moved (Cut.fraction cs).1, !(Cut.fraction cs).1.isEmpty) := by
  cases cs with
  | nil =>
    have hpeek : s.peek ≠ '.' := by rw [h.peek]; decide
    rw [fraction, if_neg (mt And.left hpeek), if_neg (mt And.left hpeek)]
    rfl
  | cons c cs =>
    have hpeek : s.peek = c := h.peek
    by_cases hc : c = '.'
    · subst hc
      have hpoint : s.advance = s.moved ['.'] := h.advance (by decide)
      have hbehind : (s.moved ['.']).Faces cs := Faces.moved h
      cases cs with
      | nil =>
        have hnext : s.peekNext = '\x00' := h.peekAt 1
        have hdigit : ¬(s.peekNext.isDigit : Bool) := by rw [hnext]; decide
        have hname : ¬(isNameStart s.peekNext : Bool) := by rw [hnext]; decide
        rw [fraction, if_neg (mt And.right hdigit), if_pos ⟨hpeek, hname⟩, hpoint]
        rfl
      | cons d ds =>
        have hnext : s.peekNext = d := h.peekAt 1
        rw [fraction, Cut.fraction, hnext, hpeek, hpoint,
          hbehind.advanceWhile (by decide), moved_moved]
        by_cases hdigit : d.isDigit
        · simp [hdigit]
        · by_cases hname : isNameStart d <;> simp [hdigit, hname]
    · rw [fraction, if_neg (hpeek ▸ mt And.left hc), if_neg (hpeek ▸ mt And.left hc),
        Cut.fraction_of_ne hc]
      rfl

/-- The sign that may stand behind an exponent mark. -/
theorem exponentSign_eq (h : s.Faces cs) :
    (if s.peek = '+' ∨ s.peek = '-' then s.advance else s) = s.moved (Cut.sign cs).1 := by
  cases cs with
  | nil =>
    have hpeek : s.peek = '\x00' := h.peek
    simp [hpeek, Cut.sign]
  | cons d ds =>
    have hpeek : s.peek = d := h.peek
    by_cases hd : d = '+' ∨ d = '-'
    · have hline : d ≠ '\n' := by rintro rfl; simp at hd
      rw [hpeek, if_pos hd, h.advance hline, Cut.sign, if_pos (by simpa using hd)]
    · rw [hpeek, if_neg hd, Cut.sign, if_neg (by simpa using hd)]
      rfl

theorem exponent_eq (h : s.Faces cs) :
    s.exponent = (s.moved (Cut.exponent cs).1, !(Cut.exponent cs).1.isEmpty) := by
  cases cs with
  | nil =>
    have hpeek : s.peek = '\x00' := h.peek
    simp [exponent, hpeek, Cut.exponent]
  | cons c cs =>
    have hpeek : s.peek = c := h.peek
    by_cases hc : c = 'e' ∨ c = 'E'
    · have hline : c ≠ '\n' := by rintro rfl; simp at hc
      have hbehind : (s.moved [c]).Faces cs := Faces.moved h
      have hdigits : ((s.moved [c]).moved (Cut.sign cs).1).Faces (Cut.sign cs).2 :=
        Faces.moved (by rwa [Cut.sign_source])
      have hmark : (c == 'e' || c == 'E') = true := by simpa using hc
      simp only [exponent, hpeek, if_pos hc, h.advance hline, exponentSign_eq hbehind]
      rw [hdigits.advanceWhile (by decide), moved_moved, moved_moved, Cut.exponent, if_pos hmark]
      rfl
    · rw [exponent, hpeek, if_neg hc, Cut.exponent, if_neg (by simpa using hc)]
      rfl

/-- The kind of a number. -/
def numberKind (isFloat : Bool) : TokenKind := if isFloat then .float else .integer

theorem decimal_eq (h : s.Faces cs) :
    let f := (s.advanceWhile fun d => d.isDigit || d == '_').fraction
    f.1.exponent.1 = s.moved (Cut.decimal cs).2.1 ∧
      numberKind (f.2 || f.1.exponent.2) = (Cut.decimal cs).1 := by
  have hwhole : (s.moved (cs.takeWhile fun d => d.isDigit || d == '_')).Faces
      (cs.dropWhile fun d => d.isDigit || d == '_') :=
    h.moved_of_append List.takeWhile_append_dropWhile
  have hfraction := fraction_eq hwhole
  have hbehind := hwhole.moved_of_append (Cut.fraction_source _)
  have hexponent := exponent_eq hbehind
  rw [h.advanceWhile (by decide), hfraction]
  dsimp only
  rw [hexponent]
  constructor
  · simp only [moved_moved, Cut.decimal, List.append_assoc]
  · simp only [Cut.decimal]
    generalize (Cut.fraction _).1.isEmpty = noFraction
    generalize (Cut.exponent _).1.isEmpty = noExponent
    cases noFraction <;> cases noExponent <;> rfl

/-- A number behind a zero and a letter. -/
theorem prefixed_eq {d : Char} {ds : List Char} {p : Char → Bool} (h : s.Faces ('0' :: d :: ds))
    (hd : d ≠ '\n') (hp : p '\n' = false) :
    s.advance.advance.advanceWhile p = s.moved ('0' :: d :: ds.takeWhile p) := by
  have hletter : (s.moved ['0']).Faces (d :: ds) := Faces.moved h
  have hbehind : (s.moved ['0', d]).Faces ds := Faces.moved h
  rw [h.advance (by decide), hletter.advance hd, moved_moved]
  exact (hbehind.advanceWhile hp).trans (moved_moved s _ _)

theorem digits_eq (h : s.Faces cs) :
    s.digits.1 = s.moved (Cut.number cs).2.1 ∧ numberKind s.digits.2 = (Cut.number cs).1 := by
  have hdecimal := decimal_eq h
  -- without a letter behind a zero the number is a decimal one
  have hother (hx : ¬(s.peek = '0' ∧ (s.peekNext = 'x' ∨ s.peekNext = 'X')))
      (hb : ¬(s.peek = '0' ∧ (s.peekNext = 'b' ∨ s.peekNext = 'B')))
      (hcut : Cut.number cs = Cut.decimal cs) :
      s.digits.1 = s.moved (Cut.number cs).2.1 ∧ numberKind s.digits.2 = (Cut.number cs).1 := by
    rw [digits, if_neg hx, if_neg hb, hcut]
    exact hdecimal
  match cs, h with
  | [], h =>
    have hpeek : s.peek ≠ '0' := by rw [h.peek]; decide
    exact hother (mt And.left hpeek) (mt And.left hpeek) rfl
  | [c], h =>
    have hnext : s.peekNext = '\x00' := h.peekAt 1
    have hcut : Cut.number [c] = Cut.decimal [c] := by
      by_cases hc : c = '0'
      · subst hc
        rfl
      · exact Cut.number_of_ne hc []
    exact hother (by simp [hnext]) (by simp [hnext]) hcut
  | c :: d :: ds, h =>
    have hpeek : s.peek = c := h.peek
    have hnext : s.peekNext = d := h.peekAt 1
    by_cases hc : c = '0'
    · subst hc
      by_cases hx : d = 'x' ∨ d = 'X'
      · have hne : d ≠ '\n' := by rintro rfl; simp at hx
        rw [digits, if_pos ⟨hpeek, hnext ▸ hx⟩, prefixed_eq h hne (by decide), Cut.number,
          if_pos (by simpa using hx)]
        exact ⟨rfl, rfl⟩
      by_cases hb : d = 'b' ∨ d = 'B'
      · have hne : d ≠ '\n' := by rintro rfl; simp at hb
        rw [digits, if_neg (hnext ▸ mt And.right hx), if_pos ⟨hpeek, hnext ▸ hb⟩,
          prefixed_eq h hne (by decide), Cut.number, if_neg (by simpa using hx),
          if_pos (by simpa using hb)]
        exact ⟨rfl, rfl⟩
      · refine hother (hnext ▸ mt And.right hx) (hnext ▸ mt And.right hb) ?_
        rw [Cut.number, if_neg (by simpa using hx), if_neg (by simpa using hb)]
    · exact hother (hpeek ▸ mt And.left hc) (hpeek ▸ mt And.left hc) (Cut.number_of_ne hc _)

theorem number_eq (h : s.Faces cs) : s.number = s.pass (Cut.numeral cs).1 := by
  obtain ⟨hrun, hkind⟩ := digits_eq h
  have htext : (s.moved (Cut.number cs).2.1).slice s.current = (Cut.number cs).2.1 :=
    h.slice (Cut.number_source cs)
  rw [numberKind] at hkind
  rw [number, hrun, hkind, htext, Cut.numeral, pass_plain]
  rfl

/-! ### Text literals -/

theorem advances_eq {c : Char} (hc : c ≠ '\n') {count : Nat} {cs : List Char}
    (h : s.Faces (List.replicate count c ++ cs)) :
    advances count s = s.moved (List.replicate count c) := by
  induction count generalizing s with
  | zero => rfl
  | succ count ih =>
    rw [List.replicate_succ, List.cons_append] at h
    have hbehind : (s.moved [c]).Faces (List.replicate count c ++ cs) := Faces.moved h
    rw [advances, h.advance hc, ih hbehind, moved_moved]
    rfl

/-- The mark of a literal, by whether it is three quotes. -/
def quotes (quote : Char) (triple : Bool) : List Char :=
  List.replicate (if triple then 3 else 1) quote

section Literal

variable {quote : Char} {triple raw : Bool}

theorem length_quotes : ((quotes quote triple).length == 1) = !triple := by cases triple <;> rfl

theorem ne_zero_of_isQuote (h : isQuote quote) : quote ≠ '\x00' := by
  rintro rfl
  cases h

theorem closes_eq (triple : Bool) (hquote : isQuote quote) (h : s.Faces cs) :
    s.closes quote triple = (quotes quote triple).isPrefixOf cs := by
  have hzero : (quote == '\x00') = false := beq_eq_false_iff_ne.2 (ne_zero_of_isQuote hquote)
  have hpeek : s.peek = cs.getD 0 '\x00' := h.peekAt 0
  have hnext : s.peekNext = cs.getD 1 '\x00' := h.peekAt 1
  rw [closes, hpeek, hnext, h.peekAt 2]
  match cs with
  | [] => cases triple <;> simp [quotes, Bool.beq_comm, hzero, List.replicate]
  | [c] => cases triple <;> simp [quotes, Bool.beq_comm, hzero, List.isPrefixOf, List.replicate]
  | [c, d] => cases triple <;> simp [quotes, Bool.beq_comm, hzero, List.isPrefixOf, List.replicate]
  | c :: d :: e :: cs =>
    cases triple <;> simp [quotes, Bool.beq_comm, List.isPrefixOf, List.replicate]

/-- Whether a literal stops before a byte, at its closing mark or at the end of its line. -/
abbrev StopsAt (quote : Char) (triple : Bool) (c : Char) (cs : List Char) : Prop :=
  ((quotes quote triple).isPrefixOf (c :: cs) || (c == '\n' && (quotes quote triple).length == 1)) =
    true

theorem content_nil (h : s.Faces []) : s.content quote triple raw = (s, false) := by
  rw [content, dif_neg (by simp [h.lt_iff])]

theorem content_of_stopsAt (hquote : isQuote quote) (h : s.Faces (c :: cs))
    (hstop : StopsAt quote triple c cs) :
    s.content quote triple raw = (s, (quotes quote triple).isPrefixOf (c :: cs)) := by
  have hpeek : s.peek = c := h.peek
  rw [content, dif_pos (by simp [h.lt_iff]), closes_eq triple hquote h, hpeek]
  by_cases hcloses : (quotes quote triple).isPrefixOf (c :: cs) = true
  · rw [if_pos hcloses, hcloses]
  · rw [StopsAt, Bool.or_eq_true, Bool.and_eq_true, length_quotes, beq_iff_eq] at hstop
    obtain ⟨hline, htriple⟩ := hstop.resolve_left hcloses
    rw [if_neg hcloses, if_pos hline, if_neg (by simpa using htriple), Bool.eq_false_iff.2 hcloses]

/-- A byte at which a literal goes on is taken, and with it the byte that a backslash hides. -/
theorem content_cons (hquote : isQuote quote) (h : s.Faces (c :: cs))
    (hstop : ¬StopsAt quote triple c cs) :
    let taken := if c = '\\' ∧ raw = false then c :: cs.take 1 else [c]
    s.content quote triple raw = (s.moved taken).content quote triple raw := by
  dsimp only
  rw [StopsAt, length_quotes, Bool.or_eq_true, not_or, Bool.and_eq_true, beq_iff_eq,
    Bool.not_eq_true'] at hstop
  have hpeek : s.peek = c := h.peek
  have hcloses : ¬s.closes quote triple = true := by
    rw [closes_eq triple hquote h]
    exact hstop.1
  rw [content, dif_pos (by simp [h.lt_iff]), if_neg hcloses, hpeek]
  by_cases hline : c = '\n'
  · have htriple : triple = true := by simpa using fun ht => hstop.2 ⟨hline, ht⟩
    subst hline
    have hslash : ¬('\n' = '\\' ∧ raw = false) := by simp
    rw [if_pos rfl, if_pos htriple, h.advanceLine, if_neg hslash]
  · have hbehind : (s.moved [c]).Faces cs := Faces.moved h
    rw [if_neg hline, h.advance hline, hbehind.isAtEnd]
    by_cases hslash : c = '\\' ∧ raw = false
    · rw [if_pos hslash]
      cases cs with
      | nil => rw [if_neg (by simp)]; rfl
      | cons d ds =>
        have hhidden : (s.moved [c]).peek = d := hbehind.peek
        rw [if_pos ⟨hslash.1, hslash.2, rfl⟩, hhidden]
        split_ifs with hd
        · subst hd
          rw [hbehind.advanceLine, moved_moved]
          rfl
        · rw [hbehind.advance hd, moved_moved]
          rfl
    · rw [if_neg hslash, if_neg fun hand => hslash ⟨hand.1, hand.2.1⟩]

theorem content_eq (triple raw : Bool) (hquote : isQuote quote) (h : s.Faces cs) :
    s.content quote triple raw =
      (s.moved (Cut.content (quotes quote triple) raw cs).1,
        (quotes quote triple).isPrefixOf (Cut.content (quotes quote triple) raw cs).2) := by
  fun_induction Cut.content (quotes quote triple) raw cs generalizing s with
  | case1 =>
    rw [content_nil h]
    cases triple <;> rfl
  | case2 c cs hstop => exact content_of_stopsAt hquote h hstop
  | case3 c hslash hstop =>
    have hbehind : (s.moved [c]).Faces [] := Faces.moved h
    rw [content_cons hquote h hstop, if_pos (by simpa using hslash)]
    exact (content_nil hbehind).trans (by cases triple <;> rfl)
  | case4 c hslash d ds hstop ih =>
    have hbehind : (s.moved [c, d]).Faces ds := Faces.moved h
    rw [content_cons hquote h hstop, if_pos (by simpa using hslash), List.take_succ_cons,
      List.take_zero, ih hbehind, moved_moved]
    rfl
  | case5 c cs hstop hslash ih =>
    have hbehind : (s.moved [c]).Faces cs := Faces.moved h
    rw [content_cons hquote h hstop, if_neg (by simpa using hslash), ih hbehind, moved_moved]
    rfl

theorem markOf_eq (hquote : isQuote quote) (h : s.Faces (quote :: cs)) :
    quotes quote (s.peekNext == quote && s.peekAt 2 == quote) = Cut.markOf quote cs := by
  have hbehind := closes_eq true hquote h
  have hpeek : s.peek = quote := h.peek
  rw [closes, hpeek, beq_self_eq_true, Bool.true_and, Bool.not_true, Bool.false_or] at hbehind
  rw [hbehind, Cut.markOf]
  have htail : (quotes quote true).isPrefixOf (quote :: cs) = [quote, quote].isPrefixOf cs := by
    simp [quotes, List.replicate]
  rw [htail]
  cases [quote, quote].isPrefixOf cs <;> rfl

/-- A literal, from its first quote on. -/
theorem string_eq (hquote : isQuote quote) (h : s.Faces (quote :: cs)) :
    s.string raw = s.pass (Cut.textLiteral raw quote cs).1 := by
  have hpeek : s.peek = quote := h.peek
  have hmark := markOf_eq hquote h
  have hline : quote ≠ '\n' := by
    rintro rfl
    cases hquote
  generalize htriple : (s.peekNext == quote && s.peekAt 2 == quote) = triple at hmark
  have hsplit := Cut.markOf_append_drop quote cs
  rw [← hmark] at hsplit
  generalize hbody : cs.drop ((quotes quote triple).length - 1) = body at hsplit
  rw [← hsplit] at h
  have hopened : advances (if triple then 3 else 1) s = s.moved (quotes quote triple) :=
    advances_eq hline h
  have hbehind : (s.moved (quotes quote triple)).Faces body := Faces.moved h
  have hcontent := content_eq triple raw hquote hbehind
  have hsource := Cut.content_source (quotes quote triple) raw body
  simp only [string, hpeek, htriple, hopened, hcontent, Cut.textLiteral, ← hmark, hbody]
  generalize Cut.content (quotes quote triple) raw body = found at hsource
  obtain ⟨text, rest⟩ := found
  subst hsource
  dsimp only
  by_cases hcloses : (quotes quote triple).isPrefixOf rest = true
  · rw [if_pos hcloses, if_pos hcloses]
    obtain ⟨more, rfl⟩ := List.isPrefixOf_iff_prefix.1 hcloses
    have hclosing : ((s.moved (quotes quote triple)).moved text).Faces
        (quotes quote triple ++ more) := Faces.moved hbehind
    have hclosed : advances (if triple then 3 else 1) ((s.moved (quotes quote triple)).moved text) =
        ((s.moved (quotes quote triple)).moved text).moved (quotes quote triple) :=
      advances_eq hline hclosing
    rw [hclosed, hbehind.slice rfl, moved_moved, moved_moved, ← List.append_assoc]
    rfl
  · rw [if_neg hcloses, if_neg hcloses, moved_moved]
    rfl

end Literal

end Scanner

end ScriptBridge
