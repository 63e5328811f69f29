import ScriptBridge.Proofs.Script.ScannerCuts

/-! Turns of a scanner. A turn takes a word, a number, a literal, a sign, a line end or the margin
of a line, and moves the line on wherever it takes a line feed. Proved: a turn takes what one cut
takes, with the place moved over it; every turn but that which enters a line takes something; and
all turns take the pieces of the script. -/

namespace ScriptBridge

namespace Scanner

open Cut (isBlank isQuote isNameStart)

variable {s : Scanner} {c : Char} {cs : List Char}

/-! ### Signs -/

theorem single_eq (h : s.Faces (c :: cs)) (hc : c ≠ '\n') (kind : TokenKind) :
    s.single kind = s.pass (.plain kind [c]) := by
  have htext : (s.moved [c]).slice s.current = [c] := h.slice rfl
  rw [single, h.advance hc, htext, pass_plain]
  rfl

theorem accepts_eq (h : s.Faces cs) (expected : Char) :
    s.accepts expected = (cs.head? == some expected) := by
  rw [accepts, h.isAtEnd, h.peek]
  cases cs <;> rfl

/-- The second byte of a sign. -/
theorem second_eq {d : Char} (h : s.Faces (c :: cs)) (hcs : (cs.head? == some d) = true)
    (hd : d ≠ '\n') : (s.moved [c]).advance = s.moved [c, d] := by
  obtain ⟨ds, rfl⟩ := List.head?_eq_some_iff.1 (beq_iff_eq.1 hcs)
  have hbehind : (s.moved [c]).Faces (d :: ds) := Faces.moved h
  rw [hbehind.advance hd, moved_moved]
  rfl

/-- The bytes of an operator. -/
theorem operator_run_eq (h : s.Faces (c :: cs)) :
    (if (s.moved [c]).peek = '=' ∧ c ∉ ['$', '?', ';', '~'] then (s.moved [c]).advance
      else if (s.moved [c]).peek = c ∧ c ∈ ['<', '>', '*', '&', '|'] then
        if (s.moved [c]).advance.peek = '=' then (s.moved [c]).advance.advance
        else (s.moved [c]).advance
      else s.moved [c]) = s.moved (Cut.operator c cs).1 := by
  have hbehind : (s.moved [c]).Faces cs := Faces.moved h
  have hnone : ¬('\x00' = c ∧ c ∈ ['<', '>', '*', '&', '|']) := by
    rintro ⟨rfl, hc⟩
    exact absurd hc (by decide)
  rw [hbehind.peek]
  rcases cs with _ | ⟨d, ds⟩
  · rw [List.headD_nil, if_neg (by simp), if_neg hnone]
    rfl
  have hpair : (s.moved [c, d]).Faces ds := Faces.moved h
  have hsecond : d ≠ '\n' → (s.moved [c]).advance = s.moved [c, d] := second_eq h (by simp)
  have hthird : (s.moved [c, d]).peek = '=' ↔ ds.head? = some '=' := by
    rw [hpair.peek]
    cases ds <;> simp
  rw [List.headD_cons, Cut.operator_cons]
  by_cases hequals : d = '=' ∧ c ∉ ['$', '?', ';', '~']
  · rw [if_pos hequals, if_pos hequals, hsecond (by simp [hequals.1])]
  rw [if_neg hequals, if_neg hequals]
  by_cases hdouble : d = c ∧ c ∈ ['<', '>', '*', '&', '|']
  · have hd : d ≠ '\n' := by
      rintro rfl
      exact absurd (hdouble.1 ▸ hdouble.2) (by decide)
    rw [if_pos hdouble, if_pos hdouble, hsecond hd]
    simp only [hthird]
    split_ifs with he
    · obtain ⟨es, rfl⟩ := List.head?_eq_some_iff.1 he
      rw [hpair.advance (by decide), moved_moved]
      rfl
    · rfl
  · rw [if_neg hdouble, if_neg hdouble]

theorem operator_eq (h : s.Faces (c :: cs)) (hc : c ≠ '\n') :
    s.operator = s.pass (.plain .operator (Cut.operator c cs).1) := by
  have hpeek : s.peek = c := h.peek
  have htext : (s.moved (Cut.operator c cs).1).slice s.current = (Cut.operator c cs).1 :=
    h.slice (Cut.operator_source c cs)
  simp only [operator, hpeek, h.advance hc]
  rw [operator_run_eq h, htext, pass_plain]
  rfl

/-! ### Cuts -/

/-- The scanner with other brackets, and perhaps at a line start. -/
def put (s : Scanner) (depth : Nat) (atLineStart : Bool) : Scanner := { s with depth, atLineStart }

theorem Faces.put (h : s.Faces cs) (depth : Nat) (atLineStart : Bool) :
    (s.put depth atLineStart).Faces cs := ⟨h.within, h.rest⟩

/-- The scanner behind a cut inside a line. -/
def take (s : Scanner) (k : Cut) : Scanner :=
  (s.passAll k.pieces).put k.stand.depth (s.atLineStart || k.stand.isLineStart)

/-- Pieces leave the brackets and the line start as they are. -/
theorem put_passAll (s : Scanner) (ps : List Piece) (depth : Nat) (atLineStart : Bool) :
    (s.passAll ps).put depth atLineStart = (s.put depth atLineStart).passAll ps := by
  induction ps generalizing s with
  | nil => rfl
  | cons p ps ih =>
    have hpass : (s.pass p).put depth atLineStart = (s.put depth atLineStart).pass p := by
      cases p <;> rfl
    rw [passAll_cons, ih, hpass, passAll_cons]

theorem take_inLine (s : Scanner) (ps : List Piece) (rest : List Char) :
    s.take ⟨ps, .inLine s.depth, rest⟩ = s.passAll ps := by
  have hmark : (s.atLineStart || (Stand.inLine s.depth).isLineStart) = s.atLineStart :=
    Bool.or_false _
  rw [take, hmark, put_passAll]
  rfl

theorem take_one (s : Scanner) (p : Piece × List Char) :
    s.take (Cut.one s.depth p) = s.pass p.1 := take_inLine s [p.1] p.2

theorem openBracket_eq (h : s.Faces (c :: cs)) (hc : c ≠ '\n') (b : Bracket) :
    s.openBracket b = s.take ⟨[.plain (.opening b) [c]], .inLine (s.depth + 1), cs⟩ := by
  have hbehind : (s.put (s.depth + 1) s.atLineStart).Faces (c :: cs) := h.put _ _
  have hmark : (s.atLineStart || (Stand.inLine (s.depth + 1)).isLineStart) = s.atLineStart :=
    Bool.or_false _
  rw [take, hmark]
  exact single_eq hbehind hc _

theorem closeBracket_eq (h : s.Faces (c :: cs)) (hc : c ≠ '\n') (b : Bracket) :
    s.closeBracket b = s.take ⟨[.plain (.closing b) [c]], .inLine (s.depth - 1), cs⟩ := by
  have hbehind : (s.put (s.depth - 1) s.atLineStart).Faces (c :: cs) := h.put _ _
  have hmark : (s.atLineStart || (Stand.inLine (s.depth - 1)).isLineStart) = s.atLineStart :=
    Bool.or_false _
  rw [take, hmark]
  exact single_eq hbehind hc _

theorem take_mark (s : Scanner) {m : TokenKind × List Char × List Char}
    (hopening : Cut.opening? c = none) (hclosing : Cut.closing? c = none)
    (hm : Cut.mark? c cs = some m) :
    s.take (Cut.punctuation s.depth c cs) = s.pass (.plain m.1 m.2.1) := by
  simp only [Cut.punctuation, hopening, hclosing, hm, take_one]

theorem colon_eq (h : s.Faces (':' :: cs)) :
    s.colon = s.take (Cut.punctuation s.depth ':' cs) := by
  have hbehind : (s.moved [':']).Faces cs := Faces.moved h
  rw [take_mark s rfl rfl (Cut.mark?_colon cs)]
  simp only [colon, h.advance (by decide), accepts_eq hbehind]
  split_ifs with hequals
  · rw [second_eq h hequals (by decide)]
    rfl
  · rfl

theorem equals_eq (h : s.Faces ('=' :: cs)) :
    s.equals = s.take (Cut.punctuation s.depth '=' cs) := by
  have hbehind : (s.moved ['=']).Faces cs := Faces.moved h
  rw [take_mark s rfl rfl (Cut.mark?_equals cs)]
  simp only [equals, h.advance (by decide), accepts_eq hbehind]
  split_ifs with hequals
  · rw [second_eq h hequals (by decide)]
    rfl
  · rfl

theorem minus_eq (h : s.Faces ('-' :: cs)) :
    s.minus = s.take (Cut.punctuation s.depth '-' cs) := by
  have hbehind : (s.moved ['-']).Faces cs := Faces.moved h
  rw [take_mark s rfl rfl (Cut.mark?_minus cs)]
  simp only [minus, h.advance (by decide), accepts_eq hbehind]
  split_ifs with hgreater hequals
  · rw [second_eq h hgreater (by decide)]
    rfl
  · rw [second_eq h hequals (by decide)]
    rfl
  · rfl

theorem sign_eq (h : s.Faces (c :: cs)) (hc : c ≠ '\n') :
    s.sign =
      s.take (if c == '@' then Cut.one s.depth (Cut.tag cs) else Cut.punctuation s.depth c cs) := by
  have hpeek : s.peek = c := h.peek
  rw [sign, hpeek]
  split
  · exact (tag_eq h).trans (take_one s _).symm
  · exact openBracket_eq h hc _
  · exact closeBracket_eq h hc _
  · exact openBracket_eq h hc _
  · exact closeBracket_eq h hc _
  · exact openBracket_eq h hc _
  · exact closeBracket_eq h hc _
  · have hm : Cut.mark? ',' cs = some (.comma, [','], cs) := rfl
    exact (single_eq h hc _).trans (take_mark s rfl rfl hm).symm
  · have hm : Cut.mark? '.' cs = some (.dot, ['.'], cs) := rfl
    exact (single_eq h hc _).trans (take_mark s rfl rfl hm).symm
  · exact colon_eq h
  · exact equals_eq h
  · exact minus_eq h
  · next hat hparen hcloseParen hsquare hcloseSquare hbrace hcloseBrace hcomma hdot hcolon hequals
      hminus =>
    have hopening : Cut.opening? c = none := by simp [Cut.opening?, *]
    have hclosing : Cut.closing? c = none := by simp [Cut.closing?, *]
    have hother : c ∉ [',', '.', ':', '=', '-'] := by
      simp only [List.mem_cons, List.not_mem_nil, or_false, not_or]
      exact ⟨hcomma, hdot, hcolon, hequals, hminus⟩
    have hmark := Cut.mark?_eq_operator hother cs
    have hsign : ¬(c == '@') = true := by simpa using hat
    rw [if_neg hsign]
    split_ifs with hoperator
    · rw [if_pos (List.contains_iff_mem.2 hoperator)] at hmark
      exact (operator_eq h hc).trans (take_mark s hopening hclosing hmark).symm
    · rw [if_neg (mt List.contains_iff_mem.1 hoperator)] at hmark
      simp only [Cut.punctuation, hopening, hclosing, hmark, take_one, h.advance hc]
      rfl

theorem skipComment_eq (h : s.Faces cs) : s.skipComment = s.moved (cs.takeWhile (· != '\n')) :=
  h.advanceWhile (by decide)

theorem lineFeed_eq (h : s.Faces ('\n' :: cs)) :
    s.lineFeed = s.take (Cut.inLine s.depth '\n' cs) := by
  have hpeek : s.peek = '\n' := h.peek
  simp only [lineFeed, advance, if_pos hpeek]
  cases hdepth : s.depth with
  | zero =>
    have hmark : (s.atLineStart || Stand.lineStart.isLineStart) = true := Bool.or_true _
    have hcut : Cut.inLine 0 '\n' cs = ⟨[.lineEnd], .lineStart, cs⟩ := rfl
    rw [if_pos rfl, hcut, take, hmark]
    cases s
    cases hdepth
    rfl
  | succ depth =>
    have hcut : Cut.inLine (depth + 1) '\n' cs = Cut.one (depth + 1) (.gap ['\n'], cs) := rfl
    have hmoved : s.advance.advanceLine = s.moved ['\n'] := h.advanceLine
    rw [advance, if_pos hpeek] at hmoved
    rw [if_neg (Nat.succ_ne_zero depth), hcut, ← hdepth, take_one]
    exact hmoved

theorem continuation_eq (h : s.Faces ('\\' :: '\n' :: cs)) :
    s.continuation = s.moved ['\\', '\n'] := by
  have hbehind : (s.moved ['\\']).Faces ('\n' :: cs) := Faces.moved h
  have hbreak : (s.moved ['\\']).peek = '\n' := hbehind.peek
  have hreturn : ¬ '\n' = '\r' := by decide
  simp only [continuation, h.advance (by decide), hbreak, if_neg hreturn]
  rw [hbehind.advanceLine, moved_moved]
  rfl

theorem continuation_return_eq (h : s.Faces ('\\' :: '\r' :: '\n' :: cs)) :
    s.continuation = s.moved ['\\', '\r', '\n'] := by
  have hbehind : (s.moved ['\\']).Faces ('\r' :: '\n' :: cs) := Faces.moved h
  have hbreak : (s.moved ['\\', '\r']).Faces ('\n' :: cs) := Faces.moved h
  have hreturn : (s.moved ['\\']).peek = '\r' := hbehind.peek
  have hpair : (s.moved ['\\']).advance = s.moved ['\\', '\r'] := second_eq h rfl (by decide)
  simp only [continuation, h.advance (by decide), hreturn, if_true, hpair]
  rw [hbreak.advanceLine, moved_moved]
  rfl

theorem getD_map_head? {p : Char → Bool} (hp : p '\x00' = false) (cs : List Char) :
    (cs.head?.map p).getD false = p (cs.getD 0 '\x00') := by
  cases cs <;> simp [hp]

theorem isPrefixOf_break (cs : List Char) :
    ['\n'].isPrefixOf cs = true ↔ cs.getD 0 '\x00' = '\n' := by
  rcases cs with _ | ⟨d, ds⟩
  · simp
  · simpa using eq_comm

theorem isPrefixOf_breaks (cs : List Char) :
    ['\r', '\n'].isPrefixOf cs = true ↔
      cs.getD 0 '\x00' = '\r' ∧ cs.getD 1 '\x00' = '\n' := by
  rcases cs with _ | ⟨d, _ | ⟨e, es⟩⟩
  · simp
  · simp
  · simpa using and_congr eq_comm eq_comm

/-- One turn inside a line takes one cut. -/
theorem inLine_eq (h : s.Faces (c :: cs)) : s.inLine = s.take (Cut.inLine s.depth c cs) := by
  have hpeek : s.peek = c := h.peek
  have hnext : s.peekNext = cs.getD 0 '\x00' := h.peekAt 1
  have hthird : s.peekAt 2 = cs.getD 1 '\x00' := h.peekAt 2
  by_cases hline : c = '\n'
  · subst hline
    rw [inLine, if_pos hpeek]
    exact lineFeed_eq h
  have hmoved : s.advance = s.moved [c] := h.advance hline
  have hbehind : (s.moved [c]).Faces cs := Faces.moved h
  simp only [inLine, hpeek, hnext, hthird, if_neg hline, Cut.inLine, beq_iff_eq, Bool.or_eq_true,
    Bool.and_eq_true, or_assoc, and_or_left, getD_map_head? (p := isQuote) rfl,
    getD_map_head? (p := Char.isDigit) rfl, isPrefixOf_break, isPrefixOf_breaks]
  by_cases hblank : c = ' ' ∨ c = '\t' ∨ c = '\r'
  · rw [if_pos hblank, if_pos hblank, take_one, hmoved]
    rfl
  rw [if_neg hblank, if_neg hblank]
  by_cases hcomment : c = '#'
  · subst hcomment
    rw [if_pos rfl, if_pos rfl, take_one, skipComment_eq h]
    rfl
  -- the two line ends that a backslash hides are one case of the scanner
  rw [if_neg hcomment, if_neg hcomment, ite_or]
  by_cases hfirst : c = '\\' ∧ cs.getD 0 '\x00' = '\n'
  · rw [if_pos hfirst, if_pos hfirst]
    obtain ⟨rfl, hcs⟩ := hfirst
    obtain ⟨ds, rfl⟩ := List.isPrefixOf_iff_prefix.1 ((isPrefixOf_break cs).2 hcs)
    rw [take_one, continuation_eq h]
    rfl
  rw [if_neg hfirst, if_neg hfirst]
  by_cases hsecond : c = '\\' ∧ cs.getD 0 '\x00' = '\r' ∧ cs.getD 1 '\x00' = '\n'
  · rw [if_pos hsecond, if_pos hsecond]
    obtain ⟨rfl, hcs⟩ := hsecond
    obtain ⟨ds, rfl⟩ := List.isPrefixOf_iff_prefix.1 ((isPrefixOf_breaks cs).2 hcs)
    rw [take_one, continuation_return_eq h]
    rfl
  rw [if_neg hsecond, if_neg hsecond]
  by_cases hraw : c = 'r' ∧ isQuote (cs.getD 0 '\x00') = true
  · rw [if_pos hraw, if_pos hraw]
    obtain ⟨rfl, hquote⟩ := hraw
    rcases cs with _ | ⟨quote, rest⟩
    · cases hquote
    rw [hmoved, string_eq hquote hbehind, take_inLine]
    rfl
  rw [if_neg hraw, if_neg hraw]
  by_cases hname : isNameStart c = true
  · rw [if_pos hname, if_pos hname, take_one, word_eq h hname]
  rw [if_neg hname, if_neg hname]
  by_cases hdigit : c.isDigit = true ∨ c = '.' ∧ (cs.getD 0 '\x00').isDigit = true
  · rw [if_pos hdigit, if_pos hdigit, take_one, number_eq h]
  rw [if_neg hdigit, if_neg hdigit]
  by_cases hquote : isQuote c = true
  · rw [if_pos hquote, if_pos hquote, take_one, string_eq hquote h]
  rw [if_neg hquote, if_neg hquote, sign_eq h hline]
  simp only [beq_iff_eq]

/-! ### The start of a line -/

theorem comment_eq (h : s.Faces cs) :
    (if s.peek = '#' then s.skipComment else s) = s.moved (Cut.comment cs).1 := by
  have hpeek : s.peek = '#' ↔ (cs.head? == some '#') = true := by
    rw [h.peek]
    cases cs <;> simp
  simp only [hpeek, Cut.comment]
  split_ifs
  · exact skipComment_eq h
  · rfl

theorem carriageReturn_eq (h : s.Faces cs) :
    (if s.peek = '\r' then s.advance else s) = s.moved (Cut.carriageReturn cs).1 := by
  have hpeek : s.peek = cs.headD '\x00' := h.peek
  fun_cases Cut.carriageReturn cs with
  | case1 cs => rw [hpeek, List.headD_cons, if_pos rfl, h.advance (by decide)]
  | case2 _ hother =>
    have hreturn : s.peek ≠ '\r' := by
      rw [hpeek]
      rcases cs with _ | ⟨c, cs⟩
      · decide
      · exact fun hc => hother cs (congrArg (· :: cs) hc)
    rw [if_neg hreturn, moved_nil]

theorem enterLine_eq {margin : List Char} (h : s.Faces (margin ++ cs)) (indented : Bool) :
    (s.moved margin).enterLine indented s.location =
      (s.passAll (Cut.enter indented margin cs).pieces).put s.depth
        (s.atLineStart && (Cut.enter indented margin cs).stand.isLineStart) := by
  have hbehind : (s.moved margin).Faces cs := Faces.moved h
  have hpeek : (s.moved margin).peek = cs.headD '\x00' := hbehind.peek
  have hblank : (s.atLineStart && Stand.lineStart.isLineStart) = s.atLineStart := Bool.and_true _
  have hentered : (s.atLineStart && (Stand.inLine 0).isLineStart) = false := Bool.and_false _
  rw [enterLine, hpeek, hbehind.isAtEnd]
  fun_cases Cut.enter indented margin cs with
  | case1 =>
    rw [hblank]
    rfl
  | case2 cs =>
    rw [List.headD_cons, if_pos rfl, hbehind.advanceLine, moved_moved, hblank]
    rfl
  | case3 _ hnil hline =>
    obtain ⟨c, cs, rfl⟩ := List.exists_cons_of_ne_nil hnil
    have hc : c ≠ '\n' := fun hc => hline cs (congrArg (· :: cs) hc)
    rw [List.headD_cons, if_neg hc, List.isEmpty_cons, if_neg Bool.false_ne_true, hentered]
    cases indented with
    | false => rfl
    | true => simp [pass, put, push, moved]

/-- One turn at the start of a line takes one cut. -/
theorem lineStart_eq (h : s.Faces cs) :
    s.lineStart = (s.passAll (Cut.atLineStart cs).pieces).put s.depth
      (s.atLineStart && (Cut.atLineStart cs).stand.isLineStart) := by
  have hindented : isBlank s.peek = (cs.takeWhile isBlank != []) := by
    rw [h.peek]
    rcases cs with _ | ⟨c, cs⟩
    · rfl
    · rw [List.headD_cons, List.takeWhile_cons]
      cases isBlank c <;> rfl
  have hblanks : (s.moved (cs.takeWhile isBlank)).Faces (cs.dropWhile isBlank) :=
    h.moved_of_append List.takeWhile_append_dropWhile
  have hcomment : ((s.moved (cs.takeWhile isBlank)).moved
      (Cut.comment (cs.dropWhile isBlank)).1).Faces (Cut.comment (cs.dropWhile isBlank)).2 :=
    hblanks.moved_of_append (Cut.comment_source _)
  have hmargin : (s.moved (cs.takeWhile isBlank)).skipMargin = s.moved (Cut.margin cs).1 := by
    rw [skipMargin, comment_eq hblanks, carriageReturn_eq hcomment, moved_moved, moved_moved,
      Cut.margin, List.append_assoc]
  have hsource : s.Faces ((Cut.margin cs).1 ++ (Cut.margin cs).2) := by rwa [Cut.margin_source]
  rw [Cut.atLineStart, ← enterLine_eq hsource, lineStart, hindented, h.advanceWhile (by decide),
    hblanks.isAtEnd, hmargin]
  split_ifs with hend
  · have hnil : cs.dropWhile isBlank = [] := List.isEmpty_iff.1 hend
    have hall : Cut.margin cs = (cs.takeWhile isBlank, []) := by
      rw [Cut.margin, hnil]
      simp [Cut.comment, Cut.carriageReturn]
    rw [hall] at hsource ⊢
    have hbehind : (s.moved (cs.takeWhile isBlank)).Faces [] := Faces.moved hsource
    rw [enterLine, hbehind.peek, hbehind.isAtEnd]
    rfl
  · rfl

/-! ### The loop -/

theorem source_passAll (s : Scanner) (ps : List Piece) : (s.passAll ps).source = s.source := by
  induction ps generalizing s with
  | nil => rfl
  | cons p ps ih => rw [passAll_cons, ih, source_pass]

theorem current_passAll (s : Scanner) (ps : List Piece) :
    (s.passAll ps).current = s.current + (ps.flatMap Piece.source).length := by
  induction ps generalizing s with
  | nil => rfl
  | cons p ps ih =>
    rw [passAll_cons, ih, current_pass, List.flatMap_cons, List.length_append, Nat.add_assoc]

theorem Faces.passAll {ps : List Piece} (h : s.Faces (ps.flatMap Piece.source ++ cs)) :
    (s.passAll ps).Faces cs := by
  induction ps generalizing s with
  | nil => exact h
  | cons p ps ih =>
    rw [List.flatMap_cons, List.append_assoc] at h
    exact ih h.pass

theorem Faces.passAll_of_text {k : Cut} (h : s.Faces cs) (hk : k.text = cs) :
    (s.passAll k.pieces).Faces k.rest := by
  rw [← hk, Cut.text] at h
  exact h.passAll

theorem current_passAll_add (s : Scanner) {k : Cut} (hk : k.text = cs) :
    (s.passAll k.pieces).current + k.rest.length = s.current + cs.length := by
  rw [current_passAll, ← hk, Cut.text, List.length_append, Nat.add_assoc]

/-- A turn takes some of the script, or it enters a line. -/
theorem step_progress (h : s.current < s.source.length) :
    s.step.source = s.source ∧
      (s.current < s.step.current ∨
        s.step.current = s.current ∧ s.atLineStart = true ∧ s.step.atLineStart = false) := by
  have hfaces : s.Faces (s.source.drop s.current) := ⟨h.le, rfl⟩
  obtain ⟨c, cs, hcs⟩ := List.exists_cons_of_ne_nil (hfaces.lt_iff.1 h)
  rw [hcs] at hfaces
  rw [step]
  split_ifs with hmode
  · have hlength := current_passAll_add s (Cut.text_atLineStart (c :: cs))
    rw [lineStart_eq hfaces]
    refine ⟨source_passAll s _, ?_⟩
    change s.current < (s.passAll _).current ∨ (s.passAll _).current = s.current ∧ _
    rcases Cut.atLineStart_length c cs with hrest | ⟨hrest, hstand⟩
    · omega
    · rcases Nat.lt_or_eq_of_le hrest with hless | hsame
      · omega
      · refine .inr ⟨by omega, hmode.1, ?_⟩
        change (s.atLineStart && (Cut.atLineStart (c :: cs)).stand.isLineStart) = false
        rw [hstand]
        exact Bool.and_false _
  · have hlength := current_passAll_add s (Cut.text_inLine s.depth c cs)
    have hrest := Cut.inLine_length s.depth c cs
    rw [inLine_eq hfaces]
    refine ⟨source_passAll s _, .inl ?_⟩
    change s.current < (s.passAll _).current
    rw [List.length_cons] at hlength
    omega

/-- All turns. -/
def run (s : Scanner) : Scanner := if _h : s.current < s.source.length then s.step.run else s
termination_by (s.source.length - s.current, s.atLineStart.toNat)
decreasing_by
  obtain ⟨hsource, hcurrent | ⟨hcurrent, hstart, hentered⟩⟩ := step_progress _h
  · rw [hsource]
    exact .left _ _ (by omega)
  · rw [hsource, hcurrent, hstart, hentered]
    exact .right _ (by decide)

theorem passAll_append (s : Scanner) (ps qs : List Piece) :
    s.passAll (ps ++ qs) = (s.passAll ps).passAll qs := List.foldl_append

/-- A turn takes the cut of its stand. -/
theorem step_eq (stand : Stand) (h : s.Faces (c :: cs)) :
    (s.put stand.depth stand.isLineStart).step =
      (s.passAll (stand.cut c cs).pieces).put (stand.cut c cs).stand.depth
        (stand.cut c cs).stand.isLineStart := by
  have hput := h.put stand.depth stand.isLineStart
  cases stand with
  | lineStart =>
    have hmode : (s.put 0 true).atLineStart = true ∧ (s.put 0 true).depth = 0 := ⟨rfl, rfl⟩
    have hstand : (Cut.atLineStart (c :: cs)).stand.depth = 0 := by
      rcases Cut.atLineStart_cases c cs with ⟨gap, rest, hk, -⟩ | ⟨blanks, rest, -, hk⟩ <;>
        rw [hk] <;> rfl
    refine (if_pos hmode).trans ((lineStart_eq hput).trans ?_)
    rw [Stand.cut, hstand, put_passAll, put_passAll]
    rfl
  | inLine depth =>
    have hmode : ¬((s.put depth false).atLineStart = true ∧ (s.put depth false).depth = 0) :=
      fun hand => Bool.false_ne_true hand.1
    refine (if_neg hmode).trans ((inLine_eq hput).trans ?_)
    rw [Stand.cut, take, put_passAll, put_passAll]
    rfl

theorem run_cons (stand : Stand) (h : s.Faces (c :: cs)) :
    (s.put stand.depth stand.isLineStart).run =
      ((s.passAll (stand.cut c cs).pieces).put (stand.cut c cs).stand.depth
        (stand.cut c cs).stand.isLineStart).run := by
  rw [run, dif_pos ((h.put _ _).lt_iff.2 (List.cons_ne_nil c cs)), step_eq stand h]

/-- The turns of a scanner take the cuts of what it has before it. -/
theorem run_eq (stand : Stand) (cs : List Char) : ∀ s : Scanner, s.Faces cs →
    (s.put stand.depth stand.isLineStart).run =
      (s.passAll (cutAll stand cs).1).put (cutAll stand cs).2.depth
        (cutAll stand cs).2.isLineStart := by
  fun_induction cutAll stand cs with
  | case1 stand =>
    intro s h
    rw [run, dif_neg fun hlt => (h.put _ _).lt_iff.1 hlt rfl]
    rfl
  | case2 c cs k r ih =>
    intro s h
    rw [run_cons .lineStart h, passAll_append]
    exact ih _ (h.passAll_of_text (Stand.text_cut c cs .lineStart))
  | case3 depth c cs k r ih =>
    intro s h
    rw [run_cons (.inLine depth) h, passAll_append]
    exact ih _ (h.passAll_of_text (Stand.text_cut c cs (.inLine depth)))

/-- The scanner behind a whole script. -/
def lex (bytes : List UInt8) : Scanner := (run { source := bytes.map Char.ofUInt8 }).finish

/-- The pieces of a script are what the scanner passes on its way. -/
theorem lex_eq (bytes : List UInt8) :
    let start : Scanner := { source := bytes.map Char.ofUInt8 }
    let cuts := cutAll .lineStart (bytes.map Char.ofUInt8)
    lex bytes = ((start.passAll cuts.1).put cuts.2.depth cuts.2.isLineStart).finish := by
  intro start cuts
  have hfaces : start.Faces (bytes.map Char.ofUInt8) := ⟨Nat.zero_le _, rfl⟩
  exact congrArg finish (run_eq .lineStart _ start hfaces)

end Scanner

end ScriptBridge
