import ScriptBridge.Proofs.Script.PieceSources

/-! The cases of a cut. A cut inside a line takes the end of the line, a part of the line or a
bracket, and it leaves the number of brackets that goes with what it takes. A cut at the start
of a line takes a blank line or the margin before the line's first token. Proved: there are no
other cuts, and each token stands between the marks of its kind. -/

namespace ScriptBridge

/-- A kind of token whose source is its text and which leaves brackets as they are. -/
def TokenKind.IsPlain : TokenKind → Prop
  | identifier | integer | float | keyword _ | comma | colon | colonEquals | equals | arrow | dot
  | operator => True
  | _ => False

/-- A kind of sign that is no bracket. -/
def TokenKind.IsSign : TokenKind → Prop
  | comma | colon | colonEquals | equals | arrow | dot | operator => True
  | _ => False

theorem TokenKind.IsSign.isPlain {kind : TokenKind} (h : kind.IsSign) : kind.IsPlain := by
  cases kind <;> trivial

namespace Piece

/-- A piece that leaves the line and its brackets as they are. -/
inductive Part : Piece → Prop where
  | gap (source : List Char) : Part (gap source)
  | broken (fault : Fault) (source : List Char) : Part (broken fault source)
  | plain {kind : TokenKind} (h : kind.IsPlain) (text : List Char) : Part (plain kind text)
  | tag (name : List Char) : Part (token .tag ['@'] name [])
  | text {quote : Char} (h : Cut.isQuote quote) {count : Nat} (hc : count = 1 ∨ count = 3)
      (text : List Char) :
      Part (token .text (List.replicate count quote) text (List.replicate count quote))

end Piece

namespace Cut

variable {c : Char} {cs : List Char} {depth : Nat}

/-! ### Kinds and marks -/

theorem decimal_isPlain (cs : List Char) : (decimal cs).1.IsPlain := by
  simp only [decimal]
  split_ifs <;> trivial

theorem number_isPlain (cs : List Char) : (number cs).1.IsPlain := by
  unfold number
  split
  · split_ifs
    · trivial
    · trivial
    · exact decimal_isPlain _
  · exact decimal_isPlain _

theorem word_isPlain (cs : List Char) :
    ((Keyword.ofWord? (String.ofList (cs.takeWhile isNamePart))).elim .identifier .keyword :
      TokenKind).IsPlain := by
  cases Keyword.ofWord? (String.ofList (cs.takeWhile isNamePart)) <;> trivial

theorem word_part (cs : List Char) : (word cs).1.Part := .plain (word_isPlain cs) _

theorem mark?_isSign {m : TokenKind × List Char × List Char} (h : mark? c cs = some m) :
    m.1.IsSign := by
  unfold mark? at h
  split at h <;> try (cases h; trivial)
  split at h
  · cases h
    trivial
  · cases h

theorem mark?_isPlain {m : TokenKind × List Char × List Char} (h : mark? c cs = some m) :
    m.1.IsPlain := (mark?_isSign h).isPlain

theorem tag_part (cs : List Char) : (tag cs).1.Part := by
  unfold tag
  split
  · exact .broken _ _
  · exact .tag _

theorem markOf_eq_replicate (quote : Char) (cs : List Char) :
    ∃ count, (count = 1 ∨ count = 3) ∧ markOf quote cs = List.replicate count quote := by
  unfold markOf
  split_ifs
  · exact ⟨3, .inr rfl, rfl⟩
  · exact ⟨1, .inl rfl, rfl⟩

theorem textLiteral_part (raw : Bool) {quote : Char} (h : isQuote quote) (cs : List Char) :
    (textLiteral raw quote cs).1.Part := by
  obtain ⟨count, hc, hmark⟩ := markOf_eq_replicate quote cs
  simp only [textLiteral, hmark]
  split_ifs
  · exact .text h hc _
  · exact .broken _ _

/-! ### Signs that an equals sign goes on -/

theorem mark?_colon (cs : List Char) :
    mark? ':' cs =
      some (if (cs.head? == some '=') = true then (.colonEquals, [':', '='], cs.tail)
        else (.colon, [':'], cs)) := by
  rcases cs with _ | ⟨d, ds⟩
  · rfl
  by_cases hd : d = '='
  · subst hd
    rfl
  · simp [mark?, hd]

theorem mark?_equals (cs : List Char) :
    mark? '=' cs =
      some (if (cs.head? == some '=') = true then (.operator, ['=', '='], cs.tail)
        else (.equals, ['='], cs)) := by
  rcases cs with _ | ⟨d, ds⟩
  · rfl
  by_cases hd : d = '='
  · subst hd
    rfl
  · simp [mark?, hd]

theorem mark?_minus (cs : List Char) :
    mark? '-' cs =
      some (if (cs.head? == some '>') = true then (.arrow, ['-', '>'], cs.tail)
        else if (cs.head? == some '=') = true then (.operator, ['-', '='], cs.tail)
        else (.operator, ['-'], cs)) := by
  rcases cs with _ | ⟨d, ds⟩
  · rfl
  by_cases hgreater : d = '>'
  · subst hgreater
    rfl
  by_cases hequals : d = '='
  · subst hequals
    rfl
  · simp [mark?, hgreater, hequals]

theorem operator_cons (c d : Char) (cs : List Char) :
    operator c (d :: cs) =
      if d = '=' ∧ c ∉ ['$', '?', ';', '~'] then ([c, d], cs)
      else if d = c ∧ c ∈ ['<', '>', '*', '&', '|'] then
        if cs.head? = some '=' then ([c, d, '='], cs.tail) else ([c, d], cs)
      else ([c], d :: cs) := by
  have hequals : (d == '=' && !(['$', '?', ';', '~'].contains c)) = true ↔
      d = '=' ∧ c ∉ ['$', '?', ';', '~'] := by simp
  have hdouble : (d == c && ['<', '>', '*', '&', '|'].contains c) = true ↔
      d = c ∧ c ∈ ['<', '>', '*', '&', '|'] := by simp
  unfold operator
  refine ite_congr (propext hequals) (fun _ => rfl) fun _ =>
    ite_congr (propext hdouble) (fun _ => ?_) fun _ => rfl
  rcases cs with _ | ⟨e, es⟩
  · rfl
  by_cases he : e = '='
  · subst he
    rfl
  · simp [he]

/-! ### Cuts inside a line -/

/-- The pieces of a cut inside a line and where it leaves the line. -/
inductive Yields (depth : Nat) : List Piece → Stand → Prop where
  | lineEnd (h : depth = 0) : Yields depth [.lineEnd] .lineStart
  | part {p : Piece} (h : p.Part) : Yields depth [p] (.inLine depth)
  | behindGap (source : List Char) {p : Piece} (h : p.Part) :
      Yields depth [.gap source, p] (.inLine depth)
  | opening (b : Bracket) (text : List Char) :
      Yields depth [.plain (.opening b) text] (.inLine (depth + 1))
  | closing (b : Bracket) (text : List Char) :
      Yields depth [.plain (.closing b) text] (.inLine (depth - 1))

theorem punctuation_yields (depth : Nat) (c : Char) (cs : List Char) :
    Yields depth (punctuation depth c cs).pieces (punctuation depth c cs).stand := by
  unfold punctuation
  split
  · exact .opening _ _
  · exact .closing _ _
  · next m hm => exact .part (.plain (mark?_isPlain hm) _)
  · exact .part (.broken _ _)

/-- There are no other cuts inside a line. -/
theorem inLine_yields (depth : Nat) (c : Char) (cs : List Char) :
    Yields depth (inLine depth c cs).pieces (inLine depth c cs).stand := by
  have hfits := Choice.ofChars_fits c cs
  rw [inLine_eq_cut]
  cases hk : Choice.ofChars c cs with rw [hk] at hfits
  | lineEnd =>
    cases depth with
    | zero => exact .lineEnd rfl
    | succ depth => exact .part (.gap _)
  | blank | comment | join => exact .part (.gap _)
  | rawText =>
    obtain ⟨quote, rest, rfl, hquote⟩ := hfits
    exact .behindGap _ (textLiteral_part true hquote rest)
  | word => exact .part (word_part _)
  | numeral => exact .part (.plain (number_isPlain _) _)
  | text => exact .part (textLiteral_part false hfits cs)
  | tag => exact .part (tag_part cs)
  | sign => exact punctuation_yields depth c cs

/-! ### Cuts at the start of a line -/

/-- Blanks, and perhaps a carriage return behind them. -/
def IsMargin (margin : List Char) : Prop :=
  ∃ blanks, (∀ c ∈ blanks, isBlank c) ∧ (margin = blanks ∨ margin = blanks ++ ['\r'])

/-- A comment goes up to the end of its line. -/
theorem comment_snd (cs : List Char) :
    comment cs = ([], cs) ∨ (comment cs).2 = [] ∨ ∃ rest, (comment cs).2 = '\n' :: rest := by
  unfold comment
  split_ifs
  · have hhead := List.head?_dropWhile_not (· != '\n') cs
    cases hd : cs.dropWhile (· != '\n') with
    | nil => exact .inr (.inl rfl)
    | cons d ds =>
      rw [hd] at hhead
      obtain rfl : d = '\n' := by simpa using hhead
      exact .inr (.inr ⟨ds, rfl⟩)
  · exact .inl rfl

theorem carriageReturn_fst (cs : List Char) :
    (carriageReturn cs).1 = [] ∨ (carriageReturn cs).1 = ['\r'] := by
  unfold carriageReturn
  split
  · exact .inr rfl
  · exact .inl rfl

/-- What stands before the first token of a line is no comment. -/
theorem isMargin_of_margin {d : Char} {rest : List Char} (h : (margin cs).2 = d :: rest)
    (hd : d ≠ '\n') : IsMargin (margin cs).1 := by
  have hblanks : ∀ b ∈ cs.takeWhile isBlank, isBlank b := List.all_eq_true.1 List.all_takeWhile
  simp only [margin] at h ⊢
  rcases comment_snd (cs.dropWhile isBlank) with hc | hc | ⟨more, hc⟩
  · rw [hc, List.append_nil]
    rcases carriageReturn_fst (cs.dropWhile isBlank) with hr | hr
    · exact ⟨_, hblanks, .inl (by rw [hr, List.append_nil])⟩
    · exact ⟨_, hblanks, .inr (by rw [hr])⟩
  · rw [hc] at h
    cases h
  · rw [hc] at h
    exact absurd (List.cons.inj h).1.symm hd

/-- A cut at a line start takes a blank line, or it enters a line, with an indent if the line
begins with a blank. -/
theorem atLineStart_cases (c : Char) (cs : List Char) :
    (∃ gap rest, atLineStart (c :: cs) = ⟨[.gap gap], .lineStart, rest⟩ ∧
      (rest = [] ∨ ∃ front, c :: cs = front ++ '\n' :: rest)) ∨
    ∃ blanks rest, IsMargin blanks ∧ atLineStart (c :: cs) =
      ⟨[if isBlank c then .token .indent blanks [] [] else .gap blanks], .inLine 0, rest⟩ := by
  have hsource := margin_source (c :: cs)
  have hindent : ((c :: cs).takeWhile isBlank != []) = isBlank c := by
    rw [List.takeWhile_cons]
    cases isBlank c <;> rfl
  unfold atLineStart enter
  split
  · exact .inl ⟨_, [], rfl, .inl rfl⟩
  · next rest hrest => exact .inl ⟨_, rest, rfl, .inr ⟨_, by rw [← hrest, hsource]⟩⟩
  · next hnil hline =>
    refine .inr ⟨_, _, ?_, by rw [hindent]⟩
    obtain ⟨d, rest, hm⟩ := List.exists_cons_of_ne_nil hnil
    exact isMargin_of_margin hm fun hd => hline rest (hd ▸ hm)

end Cut

end ScriptBridge
