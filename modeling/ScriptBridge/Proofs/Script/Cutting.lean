import ScriptBridge.Proofs.Script.LineBreaks
import ScriptBridge.Proofs.Script.Places
import ScriptBridge.Script.Lexed

/-! What cutting yields from the front of a text. The views of a text are its tokens and
faults in order, without their places. Proved: how the views of a text begin when it
begins with a name, a blank, a sign, a bracket or a line end. -/

namespace ScriptBridge

/-! ### Views -/

/-- What a piece yields: a token, a fault, or nothing. -/
def Piece.view : Piece → Option (Token ⊕ Fault)
  | gap _ => none
  | lineEnd => some (.inl { kind := .newline })
  | token kind _ t _ => some (.inl { kind, text := String.ofList t })
  | broken fault _ => some (.inr fault)

/-- What a text yields when it is cut from a stand. -/
def views (stand : Stand) (cs : List Char) : List (Token ⊕ Fault) :=
  (cutAll stand cs).1.filterMap Piece.view

theorem bareTokens_layOut (p : Position) (xs : List Piece) :
    bareTokens (layOut Piece.token? p xs) = (xs.filterMap Piece.view).filterMap Sum.getLeft? := by
  induction xs generalizing p with
  | nil => rfl
  | cons x xs ih =>
    rw [layOut, bareTokens_append, ih]
    cases x <;> rfl

theorem map_fault_layOut (p : Position) (xs : List Piece) :
    (layOut Piece.fault? p xs).map LocatedFault.fault =
      (xs.filterMap Piece.view).filterMap Sum.getRight? := by
  induction xs generalizing p with
  | nil => rfl
  | cons x xs ih =>
    rw [layOut, List.map_append, ih]
    cases x <;> rfl

/-- A change that keeps kinds, and moves the end of the text, moves the line end that closes it. -/
theorem closingLine_map (f : Token → Token) {stop stop' : Position}
    (hk : ∀ t, (f t).kind = t.kind)
    (hf : f { kind := .newline, span := ⟨stop, stop⟩ } =
      { kind := .newline, span := ⟨stop', stop'⟩ }) (ts : List Token) :
    closingLine stop' (ts.map f) = (closingLine stop ts).map f := by
  unfold closingLine
  rw [List.getLast?_map]
  cases ts.getLast? with
  | none => rfl
  | some t =>
    simp only [Option.map_some, hk]
    split_ifs
    · rfl
    · rw [List.map_singleton, hf]

theorem bareTokens_closingLine (stop : Position) (ts : List Token) :
    bareTokens (closingLine stop ts) = closingLine {} (bareTokens ts) :=
  (closingLine_map Token.bare (fun _ => rfl) rfl ts).symm

theorem bareTokens_ofText (source : String) :
    let tokens := (views .lineStart source.toList).filterMap Sum.getLeft?
    bareTokens (Lexed.ofText source).tokens =
      tokens ++ (closingLine {} tokens ++ [Token.endOfFile]) := by
  simp only [Lexed.ofText, Lexed.ofChars]
  rw [List.append_assoc, bareTokens_append, bareTokens_append, bareTokens_closingLine,
    bareTokens_layOut]
  rfl

theorem map_fault_ofText (source : String) :
    (Lexed.ofText source).faults.map LocatedFault.fault =
      (views .lineStart source.toList).filterMap Sum.getRight? := map_fault_layOut _ _

namespace Cut

/-- A text after which a name ends and no literal begins. -/
def Stops (cs : List Char) : Prop := ∀ c ∈ cs.head?, isNamePart c = false ∧ isQuote c = false

theorem stops_nil : Stops [] := by simp [Stops]

@[simp] theorem stops_cons {c : Char} {cs : List Char} :
    Stops (c :: cs) ↔ isNamePart c = false ∧ isQuote c = false := by simp [Stops]

theorem stops_blank (cs : List Char) : Stops (' ' :: cs) := stops_cons.2 (by decide)

theorem stops_lineEnd (cs : List Char) : Stops ('\n' :: cs) := stops_cons.2 (by decide)

theorem Stops.append {cs ds : List Char} (h : Stops cs) (k : Stops ds) : Stops (cs ++ ds) := by
  cases cs with
  | nil => exact k
  | cons c cs => exact stops_cons.2 (stops_cons.1 h)

theorem stops_flatMap {α : Type} {f : α → List Char} (h : ∀ x, Stops (f x)) (l : List α) :
    Stops (l.flatMap f) := by
  induction l with
  | nil => exact stops_nil
  | cons x l ih => exact (h x).append ih

/-! ### Characters of names -/

variable {c : Char} {cs rest : List Char}

theorem ne_of_isNameStart (h : isNameStart c) {d : Char} (hd : isNameStart d = false) : c ≠ d := by
  rintro rfl
  exact absurd h (by simp [hd])

theorem isQuote_of_isNamePart (h : isNamePart c) : isQuote c = false := by
  cases hq : isQuote c with
  | false => rfl
  | true =>
    simp only [isQuote, Bool.or_eq_true, beq_iff_eq] at hq
    rcases hq with rfl | rfl <;> exact absurd h (by decide)

theorem le_toNat_of_isAlpha (h : c.isAlpha) : 'A'.toNat ≤ c.toNat := by
  have h : (c.isUpper || c.isLower) = true := h
  rcases Bool.or_eq_true_iff.1 h with h | h
  · have hA : 'A'.val ≤ c.val ∧ c.val ≤ 'Z'.val := of_decide_eq_true h
    exact UInt32.le_iff_toNat_le.1 hA.1
  · have h : (decide ('a'.val ≤ c.val) && decide (c.val ≤ 'z'.val)) = true := h
    have ha : 'a'.val ≤ c.val := of_decide_eq_true (Bool.and_eq_true_iff.1 h).1
    exact Nat.le_trans (by decide) (UInt32.le_iff_toNat_le.1 ha)

/-- A name does not start with a digit. -/
theorem isDigit_of_isNameStart (h : isNameStart c) : c.isDigit = false := by
  cases hd : c.isDigit with
  | false => rfl
  | true =>
    have h9 : c.toNat ≤ '9'.toNat := (Char.isDigit_iff_toNat.1 hd).2
    simp only [isNameStart, Bool.or_eq_true, beq_iff_eq, decide_eq_true_eq] at h
    rcases h with (h | rfl) | h
    · have hA := le_toNat_of_isAlpha h
      exact absurd (Nat.le_trans hA h9) (by decide)
    · exact absurd h9 (by decide)
    · have h80 : 0x80 ≤ c.toNat := UInt32.le_iff_toNat_le.1 h
      exact absurd (Nat.le_trans h80 h9) (by decide)

/-- One cut takes a whole name or keyword from a text after which it ends. -/
theorem inLine_word (depth : Nat) (hc : isNameStart c) (hcs : ∀ d ∈ cs, isNamePart d)
    (hr : Stops rest) : inLine depth c (cs ++ rest) = one depth (word (c :: (cs ++ rest))) := by
  have hq : ((cs ++ rest).head?.map isQuote).getD false = false := by
    cases cs with
    | nil =>
      cases rest with
      | nil => rfl
      | cons d rest => exact (stops_cons.1 hr).2
    | cons d cs => exact isQuote_of_isNamePart (hcs d List.mem_cons_self)
  have hn (d : Char) (hd : isNameStart d = false) : (c == d) = false :=
    beq_eq_false_iff_ne.2 (ne_of_isNameStart hc hd)
  simp only [inLine, hn '\n' (by decide), hn ' ' (by decide), hn '\t' (by decide),
    hn '\r' (by decide), hn '#' (by decide), hn '\\' (by decide), hq, hc, Bool.false_and,
    Bool.and_false, Bool.or_false, Bool.false_eq_true, if_false, if_true]

theorem takeWhile_of_stops (hr : Stops rest) : rest.takeWhile isNamePart = [] := by
  cases rest with
  | nil => rfl
  | cons c rest => rw [List.takeWhile_cons, (stops_cons.1 hr).1, if_neg Bool.false_ne_true]

theorem dropWhile_of_stops (hr : Stops rest) : rest.dropWhile isNamePart = rest := by
  cases rest with
  | nil => rfl
  | cons c rest => rw [List.dropWhile_cons, (stops_cons.1 hr).1, if_neg Bool.false_ne_true]

theorem word_append (hcs : ∀ d ∈ cs, isNamePart d) (hr : Stops rest) :
    word (cs ++ rest) =
      (.plain ((Keyword.ofWord? (String.ofList cs)).elim .identifier .keyword) cs, rest) := by
  rw [word, List.takeWhile_append_of_pos hcs, List.dropWhile_append_of_pos hcs,
    takeWhile_of_stops hr, dropWhile_of_stops hr, List.append_nil]

/-! ### The start of a line -/

theorem notMem_ends_of_isNameStart (hc : isNameStart c) : c ∉ ends := fun h =>
  absurd hc (by simp [isNameStart_of_mem_ends h])

theorem isBlank_of_notMem_ends (hc : c ∉ ends) : ¬ isBlank c := by
  simp only [ends, List.mem_cons, List.not_mem_nil, or_false, not_or] at hc
  simp [isBlank, hc.2.2.1, hc.2.2.2.1]

/-- Blanks before the first character of a line are its margin. -/
theorem margin_append (blanks : List Char) (hb : ∀ d ∈ blanks, isBlank d) (hc : c ∉ ends)
    (cs : List Char) : margin (blanks ++ c :: cs) = (blanks, c :: cs) := by
  have hblank := isBlank_of_notMem_ends hc
  have hh : c ≠ '#' := fun h => hc (h ▸ by decide)
  have hr : c ≠ '\r' := fun h => hc (h ▸ by decide)
  have hm : comment (c :: cs) = ([], c :: cs) := by simp [comment, hh]
  have hm' : carriageReturn (c :: cs) = ([], c :: cs) := by simp [carriageReturn, hr]
  rw [margin, List.takeWhile_append_of_pos hb, List.dropWhile_append_of_pos hb,
    List.takeWhile_cons_of_neg hblank, List.dropWhile_cons_of_neg hblank, hm, hm']
  simp

theorem atLineStart_append (blanks : List Char) (hb : ∀ d ∈ blanks, isBlank d) (hc : c ∉ ends)
    (cs : List Char) :
    atLineStart (blanks ++ c :: cs) =
      ⟨[if blanks = [] then .gap [] else .token .indent blanks [] []], .inLine 0, c :: cs⟩ := by
  have hn : c ≠ '\n' := fun h => hc (h ▸ by decide)
  have ht : (blanks ++ c :: cs).takeWhile isBlank = blanks := by
    rw [List.takeWhile_append_of_pos hb,
      List.takeWhile_cons_of_neg (isBlank_of_notMem_ends hc), List.append_nil]
  rw [atLineStart, ht, margin_append blanks hb hc]
  by_cases h : blanks = [] <;> simp [enter, hn, h]

end Cut

open Cut

variable {c : Char} {cs rest : List Char}

/-! ### Cuts inside a line -/

theorem views_inLine (depth : Nat) (c : Char) (cs : List Char) :
    views (.inLine depth) (c :: cs) =
      (Cut.inLine depth c cs).pieces.filterMap Piece.view ++
        views (Cut.inLine depth c cs).stand (Cut.inLine depth c cs).rest := by
  rw [views, cutAll, List.filterMap_append]
  rfl

theorem views_blank (depth : Nat) (cs : List Char) :
    views (.inLine depth) (' ' :: cs) = views (.inLine depth) cs := by
  rw [views_inLine]
  rfl

theorem views_lineEnd (cs : List Char) :
    views (.inLine 0) ('\n' :: cs) = .inl { kind := .newline } :: views .lineStart cs := by
  rw [views_inLine]
  rfl

theorem views_paren (depth : Nat) (cs : List Char) :
    views (.inLine depth) ('(' :: cs) =
      .inl { kind := .opening .paren, text := "(" } :: views (.inLine (depth + 1)) cs := by
  rw [views_inLine]
  rfl

theorem views_closeParen (depth : Nat) (cs : List Char) :
    views (.inLine (depth + 1)) (')' :: cs) =
      .inl { kind := .closing .paren, text := ")" } :: views (.inLine depth) cs := by
  rw [views_inLine]
  rfl

theorem views_square (depth : Nat) (cs : List Char) :
    views (.inLine depth) ('[' :: cs) =
      .inl { kind := .opening .square, text := "[" } :: views (.inLine (depth + 1)) cs := by
  rw [views_inLine]
  rfl

theorem views_closeSquare (depth : Nat) (cs : List Char) :
    views (.inLine (depth + 1)) (']' :: cs) =
      .inl { kind := .closing .square, text := "]" } :: views (.inLine depth) cs := by
  rw [views_inLine]
  rfl

theorem views_comma (depth : Nat) (cs : List Char) :
    views (.inLine depth) (',' :: cs) =
      .inl { kind := .comma, text := "," } :: views (.inLine depth) cs := by
  rw [views_inLine]
  rfl

theorem views_arrow (depth : Nat) (cs : List Char) :
    views (.inLine depth) ('-' :: '>' :: cs) =
      .inl { kind := .arrow, text := "->" } :: views (.inLine depth) cs := by
  rw [views_inLine]
  rfl

/-- A colon before a character that makes no other sign with it. -/
theorem views_colon (depth : Nat) (hc : c ≠ '=') (cs : List Char) :
    views (.inLine depth) (':' :: c :: cs) =
      .inl { kind := .colon, text := ":" } :: views (.inLine depth) (c :: cs) := by
  have hm : mark? ':' (c :: cs) = some (.colon, [':'], c :: cs) := by simp [mark?, hc]
  have hi : Cut.inLine depth ':' (c :: cs) = punctuation depth ':' (c :: cs) := rfl
  rw [views_inLine, hi, punctuation, hm]
  rfl

theorem views_equals (depth : Nat) (hc : c ≠ '=') (cs : List Char) :
    views (.inLine depth) ('=' :: c :: cs) =
      .inl { kind := .equals, text := "=" } :: views (.inLine depth) (c :: cs) := by
  have hm : mark? '=' (c :: cs) = some (.equals, ['='], c :: cs) := by simp [mark?, hc]
  have hi : Cut.inLine depth '=' (c :: cs) = punctuation depth '=' (c :: cs) := rfl
  rw [views_inLine, hi, punctuation, hm]
  rfl

/-- A dot before a name is no part of a number. -/
theorem views_dot (depth : Nat) (hc : isNameStart c) (cs : List Char) :
    views (.inLine depth) ('.' :: c :: cs) =
      .inl { kind := .dot, text := "." } :: views (.inLine depth) (c :: cs) := by
  have hi : Cut.inLine depth '.' (c :: cs) =
      if c.isDigit then one depth (numeral ('.' :: c :: cs)) else punctuation depth '.' (c :: cs) :=
    rfl
  rw [views_inLine, hi, isDigit_of_isNameStart hc]
  rfl

/-- A name or a keyword. -/
theorem views_word (depth : Nat) (hc : isNameStart c) (hcs : ∀ d ∈ cs, isNamePart d)
    (hr : Stops rest) :
    views (.inLine depth) (c :: (cs ++ rest)) =
      .inl
        { kind := (Keyword.ofWord? (String.ofList (c :: cs))).elim .identifier .keyword
          text := String.ofList (c :: cs) } :: views (.inLine depth) rest := by
  have hp : ∀ d ∈ c :: cs, isNamePart d :=
    List.forall_mem_cons.2 ⟨isNamePart_of_isNameStart hc, hcs⟩
  rw [views_inLine, inLine_word depth hc hcs hr, ← List.cons_append, word_append hp hr]
  rfl

/-! ### Cuts at the start of a line -/

theorem views_atLineStart (hcs : cs ≠ []) :
    views .lineStart cs =
      (atLineStart cs).pieces.filterMap Piece.view ++
        views (atLineStart cs).stand (atLineStart cs).rest := by
  obtain ⟨c, cs, rfl⟩ := List.exists_cons_of_ne_nil hcs
  rw [views, cutAll, List.filterMap_append]
  rfl

theorem views_lineStart (hc : isNameStart c) (cs : List Char) :
    views .lineStart (c :: cs) = views (.inLine 0) (c :: cs) := by
  have h := atLineStart_append [] (by simp) (notMem_ends_of_isNameStart hc) cs
  rw [views_atLineStart (List.cons_ne_nil c cs), ← List.nil_append (c :: cs), h]
  rfl

/-- A line that starts with a tab is marked as indented. -/
theorem views_tab (hc : isNameStart c) (cs : List Char) :
    views .lineStart ('\t' :: c :: cs) =
      .inl { kind := .indent } :: views (.inLine 0) (c :: cs) := by
  have hb : ∀ d ∈ ['\t'], isBlank d := List.all_eq_true.1 (by decide)
  have h := atLineStart_append ['\t'] hb (notMem_ends_of_isNameStart hc) cs
  rw [views_atLineStart (List.cons_ne_nil '\t' (c :: cs)), ← List.singleton_append, h]
  rfl

end ScriptBridge
