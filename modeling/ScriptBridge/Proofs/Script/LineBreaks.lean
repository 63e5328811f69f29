import ScriptBridge.Proofs.Script.PieceSources

/-! Reading up to an end. The readers of numbers, names and signs take no line end, no blank and
no mark of a comment, and see no more of what stands behind them than its first character.
Proved: to each of them such a character is what the end of the text is, and so is a line feed
and the carriage return before it. -/

namespace ScriptBridge.Cut

variable {c : Char} {cs more : List Char}

/-! ### Ends -/

/-- The characters that stand in no number, name or sign: line ends, blanks, the mark of a
comment. -/
def ends : List Char := ['\n', '\r', ' ', '\t', '#']

/-- A reader to which each of the ends is what the end of the text is. -/
def StopsAtEnd {α : Type} (read : List Char → α × List Char) : Prop :=
  ∀ front c rest, c ∈ ends →
    read (front ++ c :: rest) = ((read front).1, (read front).2 ++ c :: rest)

/-- A line end stands in the text, or an end stands right behind it. -/
def ClosedBy (more cs : List Char) : Prop := '\n' ∈ cs ∨ ∃ c ∈ more.head?, c ∈ ends

theorem ClosedBy.tail (h : ClosedBy more (c :: cs)) (hc : c ≠ '\n') : ClosedBy more cs :=
  h.imp_left fun hn => (List.mem_cons.1 hn).resolve_left hc.symm

theorem ClosedBy.cons (h : ClosedBy more cs) (c : Char) : ClosedBy more (c :: cs) :=
  h.imp_left (List.mem_cons_of_mem c)

/-- What such a reader takes does not depend on what stands behind a closed text. -/
theorem StopsAtEnd.append {α : Type} {read : List Char → α × List Char} (h : StopsAtEnd read)
    (hcs : ClosedBy more cs) : read (cs ++ more) = ((read cs).1, (read cs).2 ++ more) := by
  rcases hcs with hcs | ⟨c, hc, hend⟩
  · obtain ⟨front, rest, rfl⟩ := List.append_of_mem hcs
    rw [List.append_assoc, List.cons_append, h front '\n' (rest ++ more) (by decide),
      h front '\n' rest (by decide), List.append_assoc, List.cons_append]
  · obtain ⟨rest, rfl⟩ := List.head?_eq_some_iff.1 hc
    exact h cs c rest hend

theorem ne_of_mem_ends (hc : c ∈ ends) {d : Char} (hd : d ∉ ends) : c ≠ d := by
  rintro rfl
  exact hd hc

theorem eq_false_of_mem_ends {p : Char → Bool} (hp : ends.any p = false) (hc : c ∈ ends) :
    p c = false := Bool.eq_false_iff.2 (List.any_eq_false.1 hp c hc)

theorem isDigit_of_mem_ends (hc : c ∈ ends) : c.isDigit = false :=
  eq_false_of_mem_ends (by decide) hc

theorem isNameStart_of_mem_ends (hc : c ∈ ends) : isNameStart c = false :=
  eq_false_of_mem_ends (by decide) hc

theorem isQuote_of_mem_ends (hc : c ∈ ends) : isQuote c = false :=
  eq_false_of_mem_ends (by decide) hc

section Ends

variable {p : Char → Bool} (hp : ends.any p = false)

include hp

theorem takeWhile_end (front : List Char) (hc : c ∈ ends) (rest : List Char) :
    (front ++ c :: rest).takeWhile p = front.takeWhile p := by
  induction front with
  | nil => simp [eq_false_of_mem_ends hp hc]
  | cons d front ih => rw [List.cons_append, List.takeWhile_cons, List.takeWhile_cons, ih]

theorem dropWhile_end (front : List Char) (hc : c ∈ ends) (rest : List Char) :
    (front ++ c :: rest).dropWhile p = front.dropWhile p ++ c :: rest := by
  induction front with
  | nil => simp [eq_false_of_mem_ends hp hc]
  | cons d front ih =>
    rw [List.cons_append, List.dropWhile_cons, List.dropWhile_cons, ih]
    split <;> rfl

end Ends

/-! ### Numbers and names -/

theorem fraction_of_ne (hc : c ≠ '.') (cs : List Char) : fraction (c :: cs) = ([], c :: cs) := by
  unfold fraction
  split
  · exact absurd (List.cons.inj ‹_›).1 hc
  · exact absurd (List.cons.inj ‹_›).1 hc
  · rfl

theorem fraction_stopsAtEnd : StopsAtEnd fraction := by
  intro front c rest hc
  match front with
  | [] => exact fraction_of_ne (ne_of_mem_ends hc (by decide)) rest
  | a :: front =>
    by_cases ha : a = '.'
    · subst ha
      match front with
      | [] =>
        simp [fraction, isDigit_of_mem_ends hc, isNameStart_of_mem_ends hc]
      | d :: ds =>
        simp only [List.cons_append, fraction]
        split_ifs
        · rw [← List.cons_append, takeWhile_end (by decide) (d :: ds) hc,
            dropWhile_end (by decide) (d :: ds) hc]
        · rfl
        · rfl
    · exact (fraction_of_ne ha _).trans (by rw [fraction_of_ne ha]; rfl)

theorem sign_stopsAtEnd : StopsAtEnd sign := by
  intro front c rest hc
  match front with
  | [] =>
    have hplus : (c == '+') = false := beq_eq_false_iff_ne.2 (ne_of_mem_ends hc (by decide))
    have hminus : (c == '-') = false := beq_eq_false_iff_ne.2 (ne_of_mem_ends hc (by decide))
    simp [sign, hplus, hminus]
  | a :: front =>
    simp only [List.cons_append, sign]
    split_ifs <;> rfl

theorem exponent_stopsAtEnd : StopsAtEnd exponent := by
  intro front c rest hc
  match front with
  | [] =>
    have hlower : (c == 'e') = false := beq_eq_false_iff_ne.2 (ne_of_mem_ends hc (by decide))
    have hupper : (c == 'E') = false := beq_eq_false_iff_ne.2 (ne_of_mem_ends hc (by decide))
    simp [exponent, hlower, hupper]
  | a :: front =>
    simp only [List.cons_append, exponent]
    split_ifs
    · rw [sign_stopsAtEnd front c rest hc, takeWhile_end (by decide) _ hc,
        dropWhile_end (by decide) _ hc]
    · rfl

theorem decimal_end (front : List Char) (hc : c ∈ ends) (rest : List Char) :
    decimal (front ++ c :: rest) =
      ((decimal front).1, (decimal front).2.1, (decimal front).2.2 ++ c :: rest) := by
  simp only [decimal]
  rw [takeWhile_end (by decide) front hc,
    dropWhile_end (by decide) front hc, fraction_stopsAtEnd _ c rest hc,
    exponent_stopsAtEnd _ c rest hc]

theorem number_of_ne (hc : c ≠ '0') (cs : List Char) : number (c :: cs) = decimal (c :: cs) := by
  unfold number
  split
  · exact absurd (List.cons.inj ‹_›).1 hc
  · rfl

theorem number_end (front : List Char) (hc : c ∈ ends) (rest : List Char) :
    number (front ++ c :: rest) =
      ((number front).1, (number front).2.1, (number front).2.2 ++ c :: rest) := by
  have hdecimal := decimal_end front hc rest
  match front with
  | [] =>
    rw [List.nil_append, number_of_ne (ne_of_mem_ends hc (by decide))]
    exact hdecimal
  | a :: front =>
    by_cases ha : a = '0'
    · subst ha
      match front with
      | [] =>
        have hhex : (c == 'x' || c == 'X') = false :=
          eq_false_of_mem_ends (p := fun c => c == 'x' || c == 'X') (by decide) hc
        have hbinary : (c == 'b' || c == 'B') = false :=
          eq_false_of_mem_ends (p := fun c => c == 'b' || c == 'B') (by decide) hc
        simp only [List.cons_append, List.nil_append, number, hhex, hbinary, Bool.false_eq_true,
          if_false]
        exact hdecimal
      | d :: ds =>
        simp only [List.cons_append, number]
        split_ifs
        · rw [takeWhile_end (by decide) ds hc,
            dropWhile_end (by decide) ds hc]
        · rw [takeWhile_end (by decide) ds hc,
            dropWhile_end (by decide) ds hc]
        · exact hdecimal
    · rw [List.cons_append, number_of_ne ha, number_of_ne ha]
      exact hdecimal

theorem numeral_stopsAtEnd : StopsAtEnd numeral := by
  intro front c rest hc
  simp only [numeral, number_end front hc rest]

theorem word_stopsAtEnd : StopsAtEnd word := by
  intro front c rest hc
  simp only [word, takeWhile_end (p := isNamePart) (by decide) front hc,
    dropWhile_end (p := isNamePart) (by decide) front hc]

theorem tag_stopsAtEnd : StopsAtEnd tag := by
  intro front c rest hc
  unfold tag
  rw [takeWhile_end (by decide) front hc,
    dropWhile_end (by decide) front hc]
  split <;> rfl

/-! ### Signs -/

theorem operator_end (hc : c ∈ ends) (d : Char) (rest : List Char) :
    operator d (c :: rest) = ([d], c :: rest) := by
  have hequals : (c == '=') = false := beq_eq_false_iff_ne.2 (ne_of_mem_ends hc (by decide))
  have hdouble : (c == d && ['<', '>', '*', '&', '|'].contains d) = false := by
    refine Bool.eq_false_iff.2 fun h => ?_
    obtain ⟨hcd, hd⟩ := Bool.and_eq_true_iff.1 h
    have hnone : ['<', '>', '*', '&', '|'].contains c = false :=
      eq_false_of_mem_ends (p := fun c => ['<', '>', '*', '&', '|'].contains c) (by decide) hc
    rw [← beq_iff_eq.1 hcd, hnone] at hd
    cases hd
  simp only [operator, hequals, hdouble, Bool.false_and, Bool.false_eq_true, if_false]

theorem operator_stopsAtEnd (d : Char) : StopsAtEnd (operator d) := by
  intro front c rest hc
  match front with
  | [] => exact operator_end hc d rest
  | a :: front =>
    simp only [List.cons_append, operator]
    split_ifs
    · rfl
    · match front with
      | [] => simp [ne_of_mem_ends hc (d := '=') (by decide)]
      | b :: front =>
        by_cases hb : b = '='
        · subst hb
          rfl
        · simp [hb]
    · rfl

/-- All other characters that open a sign open an operator. -/
theorem mark?_eq_operator (hc : c ∉ [',', '.', ':', '=', '-']) (cs : List Char) :
    mark? c cs =
      if ['+', '*', '/', '%', '<', '>', '!', '&', '|', '^', '~', '$', '?', ';'].contains c then
        some (.operator, (operator c cs).1, (operator c cs).2)
      else none := by
  simp only [List.mem_cons, List.not_mem_nil, or_false, not_or] at hc
  obtain ⟨hcomma, hdot, hcolon, hequals, hminus⟩ := hc
  unfold mark?
  split
  case h_10 => rfl
  all_goals contradiction

theorem mark?_end (d : Char) (front : List Char) (hc : c ∈ ends) (rest : List Char) :
    mark? d (front ++ c :: rest) =
      (mark? d front).map fun m => (m.1, m.2.1, m.2.2 ++ c :: rest) := by
  by_cases hd : d ∈ [',', '.', ':', '=', '-']
  · simp only [List.mem_cons, List.not_mem_nil, or_false] at hd
    match front with
    | [] =>
      have hequals : c ≠ '=' := ne_of_mem_ends hc (by decide)
      have hgreater : c ≠ '>' := ne_of_mem_ends hc (by decide)
      rcases hd with rfl | rfl | rfl | rfl | rfl <;> simp [mark?, hequals, hgreater]
    | a :: front =>
      by_cases hequals : a = '='
      · subst hequals
        rcases hd with rfl | rfl | rfl | rfl | rfl <;> rfl
      by_cases hgreater : a = '>'
      · subst hgreater
        rcases hd with rfl | rfl | rfl | rfl | rfl <;> rfl
      rcases hd with rfl | rfl | rfl | rfl | rfl <;> simp [mark?, hequals, hgreater]
  · rw [mark?_eq_operator hd, mark?_eq_operator hd, operator_stopsAtEnd d front c rest hc]
    split_ifs <;> rfl

end ScriptBridge.Cut
