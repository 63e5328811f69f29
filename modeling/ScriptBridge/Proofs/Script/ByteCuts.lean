import ScriptBridge.Proofs.Script.CutCases
import ScriptBridge.Proofs.Script.LineBreaks
import ScriptBridge.Proofs.Text.ByteChars

/-! Cuts byte by byte. A script is cut by the same rules where it is read by bytes, because its
signs are ASCII and everything beyond ASCII may stand in a name. Proved: the pieces of the bytes
of a text are the pieces of the text, byte by byte. -/

namespace ScriptBridge

/-- A piece read by bytes. -/
def Piece.byBytes : Piece → Piece
  | gap source => gap (byteChars source)
  | lineEnd => lineEnd
  | token kind a t b => token kind (byteChars a) (byteChars t) (byteChars b)
  | broken fault source => broken fault (byteChars source)

/-- A cut of a text read by bytes. -/
def Cut.byBytes (k : Cut) : Cut := ⟨k.pieces.map Piece.byBytes, k.stand, byteChars k.rest⟩

namespace Cut

variable {c : Char} {cs : List Char} {p : Char → Bool}

/-! ### Sorts of characters -/

theorem lt_of_isDigit (h : c.isDigit) : c.val < 0x80 := by
  have h9 : c.toNat ≤ '9'.toNat := (Char.isDigit_iff_toNat.1 h).2
  exact UInt32.lt_iff_toNat_lt.2 (Nat.lt_of_le_of_lt h9 (by decide))

theorem uniform_isDigit : Uniform Char.isDigit := .of_ascii fun _ => lt_of_isDigit

theorem uniform_isBlank : Uniform isBlank := .of_ascii fun c hc => by
  simp only [isBlank, Bool.or_eq_true, beq_iff_eq] at hc
  rcases hc with rfl | rfl <;> decide

theorem lt_of_isQuote (h : isQuote c) : c.val < 0x80 := by
  simp only [isQuote, Bool.or_eq_true, beq_iff_eq] at h
  rcases h with rfl | rfl <;> decide

theorem uniform_isQuote : Uniform isQuote := .of_ascii fun _ => lt_of_isQuote

theorem isNameStart_of_not_lt (h : ¬c.val < 0x80) : isNameStart c := by
  simp [isNameStart, UInt32.not_lt.1 h]

theorem uniform_isNameStart : Uniform isNameStart := .of_forall true fun _ => isNameStart_of_not_lt

theorem uniform_isNamePart : Uniform isNamePart :=
  .of_forall true fun _ hc => isNamePart_of_isNameStart (isNameStart_of_not_lt hc)

theorem uniform_isHexDigit : Uniform isHexDigit := .of_ascii fun c hc => by
  simp only [isHexDigit, Bool.or_eq_true, Bool.and_eq_true, decide_eq_true_eq] at hc
  rcases hc with (hc | ⟨-, hc⟩) | ⟨-, hc⟩
  · exact lt_of_isDigit hc
  · exact UInt32.lt_of_le_of_lt hc (by decide)
  · exact UInt32.lt_of_le_of_lt hc (by decide)

theorem uniform_underscore : Uniform (· == '_') := .beq (by decide)

/-! ### Numbers -/

/-- Both parts of a text read by bytes. -/
abbrev bytesOf (r : List Char × List Char) : List Char × List Char :=
  (byteChars r.1, byteChars r.2)

theorem fraction_byteChars (cs : List Char) : fraction (byteChars cs) = bytesOf (fraction cs) := by
  rcases cs with _ | ⟨c, cs⟩
  · rfl
  by_cases hc : c = '.'
  · subst hc
    rw [byteChars_cons_of_lt (by decide)]
    rcases cs with _ | ⟨d, ds⟩
    · rfl
    obtain ⟨e, es, hes, he⟩ := exists_byteChars_cons d ds
    have hwhole := uniform_isDigit.or uniform_underscore
    have htake := takeWhile_byteChars hwhole (d :: ds)
    have hdrop := dropWhile_byteChars hwhole (d :: ds)
    have hpoint : byteChars ('.' :: d :: ds) = '.' :: e :: es := by
      rw [byteChars_cons_of_lt (by decide), hes]
    rw [hes] at htake hdrop ⊢
    rw [fraction, he _ uniform_isDigit, he _ uniform_isNameStart, htake, hdrop, fraction]
    split_ifs
    · rw [bytesOf, byteChars_cons_of_lt (c := '.') (by decide)]
    · rw [bytesOf, hpoint]
      rfl
    · rw [bytesOf, hes]
      rfl
  · obtain ⟨e, es, hes, he⟩ := exists_byteChars_cons c cs
    have hne : e ≠ '.' := by simpa [hc] using he _ (.beq (d := '.') (by decide))
    rw [hes, fraction_of_ne hne, fraction_of_ne hc, bytesOf, hes]
    rfl

/-- One of two letters of ASCII. -/
theorem lt_of_eq_or {a b : Char} (ha : a.val < 0x80) (hb : b.val < 0x80)
    (h : (c == a || c == b) = true) : c.val < 0x80 := by
  rw [Bool.or_eq_true, beq_iff_eq, beq_iff_eq] at h
  rcases h with rfl | rfl
  · exact ha
  · exact hb

theorem uniform_eq_or {a b : Char} (ha : a.val < 0x80) (hb : b.val < 0x80) :
    Uniform fun c => c == a || c == b := .of_ascii fun _ => lt_of_eq_or ha hb

theorem sign_byteChars (cs : List Char) : sign (byteChars cs) = bytesOf (sign cs) := by
  rcases cs with _ | ⟨c, cs⟩
  · rfl
  obtain ⟨e, es, hes, he⟩ := exists_byteChars_cons c cs
  rw [hes, sign, he _ (uniform_eq_or (by decide) (by decide)), sign]
  split_ifs with hc
  · have hascii : c.val < 0x80 := lt_of_eq_or (by decide) (by decide) hc
    rw [byteChars_cons_of_lt hascii] at hes
    cases hes
    rw [bytesOf, byteChars_of_lt hascii]
  · rw [bytesOf, hes]
    rfl

theorem exponent_byteChars (cs : List Char) : exponent (byteChars cs) = bytesOf (exponent cs) := by
  rcases cs with _ | ⟨c, cs⟩
  · rfl
  obtain ⟨e, es, hes, he⟩ := exists_byteChars_cons c cs
  rw [hes, exponent, he _ (uniform_eq_or (by decide) (by decide)), exponent]
  split_ifs with hc
  · have hascii : c.val < 0x80 := lt_of_eq_or (by decide) (by decide) hc
    rw [byteChars_cons_of_lt hascii] at hes
    cases hes
    simp only [sign_byteChars, takeWhile_byteChars uniform_isDigit,
      dropWhile_byteChars uniform_isDigit, bytesOf, List.cons_append, byteChars_cons_of_lt hascii,
      byteChars_append]
  · rw [bytesOf, hes]
    rfl

/-- The kind of a number and its parts, read by bytes. -/
abbrev numberOf (r : TokenKind × List Char × List Char) : TokenKind × List Char × List Char :=
  (r.1, bytesOf r.2)

theorem isEmpty_byteChars (cs : List Char) : (byteChars cs).isEmpty = cs.isEmpty := by
  rcases cs with _ | ⟨c, cs⟩
  · rfl
  · obtain ⟨e, es, hes, -⟩ := exists_byteChars_cons c cs
    rw [hes]
    rfl

theorem decimal_byteChars (cs : List Char) : decimal (byteChars cs) = numberOf (decimal cs) := by
  have hwhole := uniform_isDigit.or uniform_underscore
  simp only [decimal, takeWhile_byteChars hwhole, dropWhile_byteChars hwhole, fraction_byteChars,
    exponent_byteChars, isEmpty_byteChars, byteChars_append, numberOf, bytesOf]

/-- A number behind a zero and a letter. -/
theorem prefixed_byteChars {d : Char} {ds : List Char} (hd : d.val < 0x80) (hp : Uniform p) :
    ((.integer, '0' :: d :: (byteChars ds).takeWhile p, (byteChars ds).dropWhile p) :
      TokenKind × List Char × List Char) =
      numberOf (.integer, '0' :: d :: ds.takeWhile p, ds.dropWhile p) := by
  rw [takeWhile_byteChars hp, dropWhile_byteChars hp, numberOf, bytesOf,
    byteChars_cons_of_lt (c := '0') (by decide), byteChars_cons_of_lt hd]

theorem number_byteChars (cs : List Char) : number (byteChars cs) = numberOf (number cs) := by
  have hdecimal := decimal_byteChars cs
  rcases cs with _ | ⟨c, cs⟩
  · exact hdecimal
  by_cases hc : c = '0'
  · subst hc
    have hzero : byteChars ('0' :: cs) = '0' :: byteChars cs := byteChars_cons_of_lt (by decide) cs
    rw [hzero] at hdecimal ⊢
    rcases cs with _ | ⟨d, ds⟩
    · exact hdecimal
    obtain ⟨e, es, hes, he⟩ := exists_byteChars_cons d ds
    rw [hes] at hdecimal ⊢
    rw [number, he _ (uniform_eq_or (a := 'x') (b := 'X') (by decide) (by decide)),
      he _ (uniform_eq_or (a := 'b') (b := 'B') (by decide) (by decide)), number]
    split_ifs with hx hb
    · have hascii : d.val < 0x80 := lt_of_eq_or (by decide) (by decide) hx
      rw [byteChars_cons_of_lt hascii] at hes
      cases hes
      exact prefixed_byteChars hascii (uniform_isHexDigit.or uniform_underscore)
    · have hascii : d.val < 0x80 := lt_of_eq_or (by decide) (by decide) hb
      rw [byteChars_cons_of_lt hascii] at hes
      cases hes
      exact prefixed_byteChars hascii
        ((uniform_eq_or (by decide) (by decide)).or uniform_underscore)
    · exact hdecimal
  · obtain ⟨e, es, hes, he⟩ := exists_byteChars_cons c cs
    have hne : e ≠ '0' := by simpa [hc] using he _ (.beq (d := '0') (by decide))
    rw [hes] at hdecimal ⊢
    rw [number_of_ne hne, number_of_ne hc, hdecimal]

theorem byBytes_plain (kind : TokenKind) (text : List Char) :
    (Piece.plain kind text).byBytes = .plain kind (byteChars text) := rfl

/-- A piece and what is left, read by bytes. -/
abbrev pieceOf (r : Piece × List Char) : Piece × List Char := (r.1.byBytes, byteChars r.2)

theorem numeral_byteChars (cs : List Char) : numeral (byteChars cs) = pieceOf (numeral cs) := by
  rw [numeral, number_byteChars]
  rfl

/-! ### Words -/

theorem ofWord?_byteChars (text : List Char) :
    Keyword.ofWord? (String.ofList (byteChars text)) = Keyword.ofWord? (String.ofList text) := by
  have hbytes : String.ofList (byteChars text) = byByte (String.ofList text) := by
    rw [byByte, String.toList_ofList]
  have hword (k : Keyword) : isAscii k.word = true := by cases k <;> decide
  have hbeq (k : Keyword) :
      (k.word == byByte (String.ofList text)) = (k.word == String.ofList text) := by
    rw [Bool.eq_iff_iff, beq_iff_eq, beq_iff_eq, eq_comm, byByte_eq_iff _ (hword k), eq_comm]
  simp only [Keyword.ofWord?, hbytes, hbeq]

theorem word_byteChars (cs : List Char) : word (byteChars cs) = pieceOf (word cs) := by
  simp only [word, takeWhile_byteChars uniform_isNamePart, dropWhile_byteChars uniform_isNamePart,
    ofWord?_byteChars, byBytes_plain, pieceOf]

theorem tag_byteChars (cs : List Char) : tag (byteChars cs) = pieceOf (tag cs) := by
  have hsign : byteChars ['@'] = ['@'] := byteChars_of_lt (by decide)
  simp only [tag, takeWhile_byteChars uniform_isNamePart, dropWhile_byteChars uniform_isNamePart]
  cases cs.takeWhile isNamePart with
  | nil => simp [Piece.byBytes, hsign]
  | cons c name =>
    obtain ⟨e, es, hes, -⟩ := exists_byteChars_cons c name
    simp [Piece.byBytes, hsign, hes]

/-! ### Text literals -/

theorem isPrefixOf_byteChars {front : List Char} (h : ∀ d ∈ front, d.val < 0x80)
    (cs : List Char) : front.isPrefixOf (byteChars cs) = front.isPrefixOf cs := by
  induction front generalizing cs with
  | nil => rw [List.isPrefixOf_nil_left, List.isPrefixOf_nil_left]
  | cons d front ih =>
    obtain ⟨hd, hfront⟩ := List.forall_mem_cons.1 h
    rcases cs with _ | ⟨c, cs⟩
    · rfl
    by_cases hc : c = d
    · subst hc
      rw [byteChars_cons_of_lt hd, List.isPrefixOf_cons_cons, List.isPrefixOf_cons_cons, ih hfront]
    · obtain ⟨e, es, hes, he⟩ := exists_byteChars_cons c cs
      have hne : (e == d) = (c == d) := he _ (.beq hd)
      have hbeq : (d == e) = (d == c) := by rw [Bool.beq_comm, hne, Bool.beq_comm]
      have hfalse : (d == c) = false := beq_eq_false_iff_ne.2 (Ne.symm hc)
      rw [hes, List.isPrefixOf_cons_cons, List.isPrefixOf_cons_cons, hbeq, hfalse, Bool.false_and,
        Bool.false_and]

theorem drop_byteChars {front : List Char} (h : ∀ d ∈ front, d.val < 0x80) {cs : List Char}
    (hcs : front.isPrefixOf cs = true) :
    (byteChars cs).drop front.length = byteChars (cs.drop front.length) := by
  obtain ⟨rest, rfl⟩ := List.isPrefixOf_iff_prefix.1 hcs
  rw [byteChars_append, byteChars_of_forall h, List.drop_left, List.drop_left]

section Literal

variable {mark : List Char} {raw : Bool} (hmark : ∀ d ∈ mark, d.val < 0x80) (hnil : mark ≠ [])

include hmark hnil

omit hmark hnil in
theorem lt_of_hides (h : (c == '\\' && !raw) = true) : c.val < 0x80 := by
  rw [Bool.and_eq_true, beq_iff_eq] at h
  exact h.1 ▸ by decide

/-- A literal stops before characters of ASCII. -/
theorem lt_of_stops (h : (mark.isPrefixOf (c :: cs) || (c == '\n' && mark.length == 1)) = true) :
    c.val < 0x80 := by
  obtain ⟨quote, rest, rfl⟩ := List.exists_cons_of_ne_nil hnil
  rw [List.isPrefixOf_cons_cons, Bool.or_eq_true, Bool.and_eq_true, Bool.and_eq_true, beq_iff_eq,
    beq_iff_eq] at h
  rcases h with ⟨rfl, -⟩ | ⟨rfl, -⟩
  · exact hmark _ List.mem_cons_self
  · decide

/-- A literal goes on through what is beyond ASCII. -/
theorem content_append_of_not_lt (front cs : List Char) (h : ∀ d ∈ front, ¬d.val < 0x80) :
    content mark raw (front ++ cs) =
      (front ++ (content mark raw cs).1, (content mark raw cs).2) := by
  induction front with
  | nil => rfl
  | cons d front ih =>
    obtain ⟨hd, hfront⟩ := List.forall_mem_cons.1 h
    obtain ⟨quote, rest, rfl⟩ := List.exists_cons_of_ne_nil hnil
    have hquote : (quote == d) = false := beq_eq_false_iff_ne.2 fun heq =>
      hd (heq ▸ hmark quote List.mem_cons_self)
    have hline : (d == '\n') = false := beq_eq_false_iff_ne.2 fun heq => hd (heq ▸ by decide)
    have hslash : (d == '\\') = false := beq_eq_false_iff_ne.2 fun heq => hd (heq ▸ by decide)
    have hkept : ¬((quote :: rest).isPrefixOf (d :: (front ++ cs)) ||
        (d == '\n' && (quote :: rest).length == 1)) = true := by
      rw [List.isPrefixOf_cons_cons, hquote, hline]
      exact Bool.false_ne_true
    rw [List.cons_append, content_kept hkept (by simp [hslash]), ih hfront]
    rfl

theorem content_byteChars (cs : List Char) :
    content mark raw (byteChars cs) = bytesOf (content mark raw cs) := by
  have hclosing (ds : List Char) : mark.isPrefixOf (byteChars ds) = mark.isPrefixOf ds :=
    isPrefixOf_byteChars hmark ds
  have hstops {d : Char} {ds : List Char} (hd : d.val < 0x80) :
      (mark.isPrefixOf (d :: byteChars ds) || (d == '\n' && mark.length == 1)) =
        (mark.isPrefixOf (d :: ds) || (d == '\n' && mark.length == 1)) := by
    rw [← byteChars_cons_of_lt hd, hclosing]
  fun_induction content mark raw cs with
  | case1 => rfl
  | case2 c cs hstop =>
    have hascii : c.val < 0x80 := lt_of_stops hmark hnil hstop
    have hstop' := (hstops hascii).trans hstop
    rw [byteChars_cons_of_lt hascii, content_stop hstop', bytesOf, byteChars_cons_of_lt hascii]
    rfl
  | case3 c hslash hstop =>
    have hascii : c.val < 0x80 := lt_of_hides hslash
    rw [byteChars_of_lt hascii, content_last hstop, bytesOf, byteChars_of_lt hascii]
    rfl
  | case4 c hslash d ds hstop ih =>
    have hascii : c.val < 0x80 := lt_of_hides hslash
    obtain ⟨e, es, hes⟩ := List.exists_cons_of_ne_nil (byteChars_ne_nil d)
    have hbytes (xs : List Char) : byteChars (c :: d :: xs) = c :: e :: (es ++ byteChars xs) := by
      rw [byteChars_cons_of_lt hascii, byteChars_cons, hes, List.cons_append]
    have hgo : ¬(mark.isPrefixOf (c :: e :: (es ++ byteChars ds)) ||
        (c == '\n' && mark.length == 1)) = true := by
      rwa [← hbytes, hclosing]
    have hbeyond : ∀ x ∈ es, ¬x.val < 0x80 := not_lt_of_mem_tail hes
    rw [hbytes, content_hidden hgo hslash, content_append_of_not_lt hmark hnil _ _ hbeyond, ih]
    exact Prod.ext (hbytes _).symm rfl
  | case5 c cs hstop hslash ih =>
    by_cases hascii : c.val < 0x80
    · have hgo := mt (hstops hascii).symm.trans hstop
      rw [byteChars_cons_of_lt hascii, content_kept hgo hslash, ih]
      exact Prod.ext (byteChars_cons_of_lt hascii _).symm rfl
    · have hbytes : ∀ d ∈ byteChars [c], ¬d.val < 0x80 := fun d => not_lt_of_mem_byteChars hascii
      rw [byteChars_cons, content_append_of_not_lt hmark hnil _ _ hbytes, ih]
      exact Prod.ext (byteChars_cons c _).symm rfl

end Literal

theorem markOf_byteChars {quote : Char} (hquote : quote.val < 0x80) (cs : List Char) :
    markOf quote (byteChars cs) = markOf quote cs := by
  have hascii : ∀ d ∈ [quote, quote], d.val < 0x80 := by simpa using hquote
  rw [markOf, isPrefixOf_byteChars hascii, markOf]

theorem drop_markOf_byteChars {quote : Char} (hquote : quote.val < 0x80) (cs : List Char) :
    (byteChars cs).drop ((markOf quote cs).length - 1) =
      byteChars (cs.drop ((markOf quote cs).length - 1)) := by
  have hascii : ∀ d ∈ [quote, quote], d.val < 0x80 := by simpa using hquote
  unfold markOf
  split_ifs with h
  · exact drop_byteChars hascii h
  · rfl

theorem textLiteral_byteChars (raw : Bool) {quote : Char} (hquote : quote.val < 0x80)
    (cs : List Char) :
    textLiteral raw quote (byteChars cs) = pieceOf (textLiteral raw quote cs) := by
  obtain ⟨count, hcount, hmarkOf⟩ := markOf_eq_replicate quote cs
  have hmark : ∀ d ∈ markOf quote cs, d.val < 0x80 := by
    rw [hmarkOf]
    exact fun d hd => List.eq_of_mem_replicate hd ▸ hquote
  have hnil : markOf quote cs ≠ [] := by
    rw [hmarkOf]
    rcases hcount with rfl | rfl <;> exact List.cons_ne_nil _ _
  simp only [textLiteral, markOf_byteChars hquote, drop_markOf_byteChars hquote,
    content_byteChars hmark hnil, bytesOf, isPrefixOf_byteChars hmark]
  split_ifs with hclosed
  · rw [drop_byteChars hmark hclosed, pieceOf, Piece.byBytes, byteChars_of_forall hmark]
  · rw [pieceOf, Piece.byBytes, byteChars_append, byteChars_of_forall hmark]

/-! ### Signs -/

theorem head?_byteChars {d : Char} (hd : d.val < 0x80) (cs : List Char) :
    ((byteChars cs).head? == some d) = (cs.head? == some d) := by
  rcases cs with _ | ⟨c, cs⟩
  · rfl
  obtain ⟨e, es, hes, he⟩ := exists_byteChars_cons c cs
  have hbeq : (e == d) = (c == d) := he _ (.beq hd)
  rw [hes, List.head?_cons, List.head?_cons, Option.some_beq_some, Option.some_beq_some, hbeq]

theorem tail_byteChars {d : Char} (hd : d.val < 0x80) {cs : List Char}
    (h : (cs.head? == some d) = true) : (byteChars cs).tail = byteChars cs.tail := by
  obtain ⟨rest, rfl⟩ := List.head?_eq_some_iff.1 (beq_iff_eq.1 h)
  rw [byteChars_cons_of_lt hd]
  rfl

theorem operator_byteChars (hc : c.val < 0x80) (cs : List Char) :
    operator c (byteChars cs) = bytesOf (operator c cs) := by
  rcases cs with _ | ⟨d, ds⟩
  · exact Prod.ext (byteChars_of_lt hc).symm rfl
  by_cases hd : d.val < 0x80
  · have hequals : (byteChars ds).head? = some '=' ↔ ds.head? = some '=' := by
      rw [← beq_iff_eq, head?_byteChars (by decide), beq_iff_eq]
    have hpair : byteChars [c, d] = [c, d] := byteChars_of_forall (by simp [hc, hd])
    have htriple : byteChars [c, d, '='] = [c, d, '='] := byteChars_of_forall (by simp [hc, hd])
    rw [byteChars_cons_of_lt hd, operator_cons, operator_cons]
    simp only [hequals]
    split_ifs with hassign hdouble hthird
    · exact Prod.ext hpair.symm rfl
    · exact Prod.ext htriple.symm (tail_byteChars (by decide) (beq_iff_eq.2 hthird))
    · exact Prod.ext hpair.symm rfl
    · exact Prod.ext (byteChars_of_lt hc).symm (byteChars_cons_of_lt hd ds).symm
  · obtain ⟨e, es, hes, he⟩ := exists_byteChars_cons d ds
    have hother {x : Char} (hx : x.val < 0x80) : d ≠ x ∧ e ≠ x := by
      have hdx : d ≠ x := fun heq => hd (heq ▸ hx)
      exact ⟨hdx, by simpa [hdx] using he _ (.beq hx)⟩
    obtain ⟨hdequals, heequals⟩ := hother (x := '=') (by decide)
    obtain ⟨hdc, hec⟩ := hother hc
    rw [hes, operator_cons, operator_cons, if_neg (mt And.left heequals),
      if_neg (mt And.left hec), if_neg (mt And.left hdequals), if_neg (mt And.left hdc)]
    exact Prod.ext (byteChars_of_lt hc).symm hes.symm

theorem mark?_byteChars (hc : c.val < 0x80) (cs : List Char) :
    mark? c (byteChars cs) = (mark? c cs).map numberOf := by
  have hequals := head?_byteChars (d := '=') (by decide) cs
  have hgreater := head?_byteChars (d := '>') (by decide) cs
  by_cases hmark : c ∈ [',', '.', ':', '=', '-']
  · simp only [List.mem_cons, List.not_mem_nil, or_false] at hmark
    rcases hmark with rfl | rfl | rfl | rfl | rfl
    · rfl
    · rfl
    · rw [mark?_colon, mark?_colon, hequals]
      split_ifs with h
      · rw [tail_byteChars (by decide) h]
        rfl
      · rfl
    · rw [mark?_equals, mark?_equals, hequals]
      split_ifs with h
      · rw [tail_byteChars (by decide) h]
        rfl
      · rfl
    · rw [mark?_minus, mark?_minus, hequals, hgreater]
      split_ifs with h h
      · rw [tail_byteChars (by decide) h]
        rfl
      · rw [tail_byteChars (by decide) h]
        rfl
      · rfl
  · rw [mark?_eq_operator hmark, mark?_eq_operator hmark, operator_byteChars hc]
    split_ifs <;> rfl

theorem one_byBytes (depth : Nat) (r : Piece × List Char) :
    (one depth r).byBytes = one depth (pieceOf r) := rfl

theorem punctuation_byteChars (depth : Nat) (hc : c.val < 0x80) (cs : List Char) :
    punctuation depth c (byteChars cs) = (punctuation depth c cs).byBytes := by
  have hsign := byteChars_of_lt hc
  unfold punctuation
  rw [mark?_byteChars hc]
  cases opening? c with
  | some b => simp [Cut.byBytes, byBytes_plain, hsign]
  | none =>
    cases closing? c with
    | some b => simp [Cut.byBytes, byBytes_plain, hsign]
    | none =>
      cases mark? c cs with
      | some m => rfl
      | none => simp [one_byBytes, pieceOf, Piece.byBytes, hsign]

/-! ### Cuts -/

theorem head?_map_byteChars (hp : Uniform p) (cs : List Char) :
    ((byteChars cs).head?.map p).getD false = (cs.head?.map p).getD false := by
  rcases cs with _ | ⟨c, cs⟩
  · rfl
  · obtain ⟨e, es, hes, he⟩ := exists_byteChars_cons c cs
    rw [hes]
    exact he p hp

/-- A gap of a character and of others that go with it. -/
theorem gap_byBytes (depth : Nat) (hc : c.val < 0x80) (front rest : List Char) :
    (one depth (.gap (c :: front), rest)).byBytes =
      one depth (.gap (c :: byteChars front), byteChars rest) := by
  rw [one_byBytes, pieceOf, Piece.byBytes, byteChars_cons_of_lt hc]

theorem take_byteChars {front : List Char} (h : ∀ d ∈ front, d.val < 0x80) {cs : List Char}
    (hcs : front.isPrefixOf cs = true) :
    (byteChars cs).take front.length = byteChars (cs.take front.length) := by
  obtain ⟨rest, rfl⟩ := List.isPrefixOf_iff_prefix.1 hcs
  rw [byteChars_append, byteChars_of_forall h, List.take_left, List.take_left,
    byteChars_of_forall h]

/-- The line end that a backslash hides. -/
theorem Choice.break_of_join {n : Nat} (h : ofChars c cs = .join n) :
    ∃ front : List Char,
      (∀ d ∈ front, d.val < 0x80) ∧ front.isPrefixOf cs = true ∧ front.length = n := by
  unfold ofChars at h
  split_ifs at h with _ _ _ hfirst hsecond
  · cases h
    exact ⟨['\n'], by simp, (Bool.and_eq_true_iff.1 hfirst).2, rfl⟩
  · cases h
    exact ⟨['\r', '\n'], by simp, (Bool.and_eq_true_iff.1 hsecond).2, rfl⟩

theorem Choice.ofChars_byteChars (c : Char) (cs : List Char) :
    ofChars c (byteChars cs) = ofChars c cs := by
  have hbreak : ∀ d ∈ ['\n'], d.val < 0x80 := List.forall_mem_singleton.2 (by decide)
  have hbreaks : ∀ d ∈ ['\r', '\n'], d.val < 0x80 :=
    List.forall_mem_cons.2 ⟨by decide, hbreak⟩
  simp only [ofChars, isPrefixOf_byteChars hbreak, isPrefixOf_byteChars hbreaks,
    head?_map_byteChars uniform_isQuote, head?_map_byteChars uniform_isDigit]

theorem inLine_byteChars (depth : Nat) (hc : c.val < 0x80) (cs : List Char) :
    inLine depth c (byteChars cs) = (inLine depth c cs).byBytes := by
  have hcons : c :: byteChars cs = byteChars (c :: cs) := (byteChars_cons_of_lt hc cs).symm
  have hline : Uniform (· != '\n') := .not (.beq (by decide))
  have hfits := Choice.ofChars_fits c cs
  rw [inLine_eq_cut, inLine_eq_cut, Choice.ofChars_byteChars]
  cases hk : Choice.ofChars c cs with rw [hk] at hfits
  | lineEnd =>
    cases depth with
    | zero => rfl
    | succ depth => exact (gap_byBytes (depth + 1) hc [] cs).symm
  | blank => exact (gap_byBytes depth hc [] cs).symm
  | comment =>
    rw [Choice.cut, Choice.cut, gap_byBytes depth hc, takeWhile_byteChars hline,
      dropWhile_byteChars hline]
  | join n =>
    obtain ⟨front, hascii, hfront, rfl⟩ := Choice.break_of_join hk
    rw [Choice.cut, Choice.cut, gap_byBytes depth hc, take_byteChars hascii hfront,
      drop_byteChars hascii hfront]
  | rawText =>
    obtain ⟨quote, rest, rfl, hquote⟩ := hfits
    have hascii : quote.val < 0x80 := lt_of_isQuote hquote
    simp only [Choice.cut, byteChars_cons_of_lt hascii, List.headD_cons, List.tail_cons,
      textLiteral_byteChars true hascii, Cut.byBytes, pieceOf, List.map_cons, List.map_nil,
      Piece.byBytes, byteChars_of_lt hc]
  | word => rw [Choice.cut, Choice.cut, hcons, word_byteChars, one_byBytes]
  | numeral => rw [Choice.cut, Choice.cut, hcons, numeral_byteChars, one_byBytes]
  | text => rw [Choice.cut, Choice.cut, textLiteral_byteChars false hc, one_byBytes]
  | tag => rw [Choice.cut, Choice.cut, tag_byteChars, one_byBytes]
  | sign => exact punctuation_byteChars depth hc cs

/-- What is beyond ASCII begins a name. -/
theorem inLine_of_not_lt (depth : Nat) (hc : ¬c.val < 0x80) (cs : List Char) :
    inLine depth c cs = one depth (word (c :: cs)) := by
  have hne {d : Char} (hd : d.val < 0x80) : (c == d) = false :=
    beq_eq_false_iff_ne.2 fun heq => hc (heq ▸ hd)
  have hname : isNameStart c = true := isNameStart_of_not_lt hc
  simp only [inLine, hne (d := '\n') (by decide), hne (d := ' ') (by decide),
    hne (d := '\t') (by decide), hne (d := '\r') (by decide), hne (d := '#') (by decide),
    hne (d := '\\') (by decide), hne (d := 'r') (by decide), hname, Bool.false_and, Bool.or_false,
    Bool.false_eq_true, if_false, if_true]

theorem comment_byteChars (cs : List Char) : comment (byteChars cs) = bytesOf (comment cs) := by
  have hline : Uniform (· != '\n') := .not (.beq (by decide))
  rw [comment, head?_byteChars (by decide), takeWhile_byteChars hline, dropWhile_byteChars hline,
    comment]
  split_ifs <;> rfl

theorem carriageReturn_byteChars (cs : List Char) :
    carriageReturn (byteChars cs) = bytesOf (carriageReturn cs) := by
  rcases cs with _ | ⟨c, cs⟩
  · rfl
  by_cases hc : c = '\r'
  · subst hc
    rw [byteChars_cons_of_lt (by decide)]
    rfl
  · obtain ⟨e, es, hes, he⟩ := exists_byteChars_cons c cs
    have hne : e ≠ '\r' := by simpa [hc] using he _ (.beq (d := '\r') (by decide))
    have hother {d : Char} (hd : d ≠ '\r') (ds : List Char) :
        carriageReturn (d :: ds) = ([], d :: ds) := by simp [carriageReturn, hd]
    rw [hes, hother hne, hother hc, bytesOf, hes]
    rfl

theorem margin_byteChars (cs : List Char) : margin (byteChars cs) = bytesOf (margin cs) := by
  simp only [margin, takeWhile_byteChars uniform_isBlank, dropWhile_byteChars uniform_isBlank,
    comment_byteChars, carriageReturn_byteChars, bytesOf, byteChars_append]

theorem enter_byteChars (indented : Bool) (margin cs : List Char) :
    enter indented (byteChars margin) (byteChars cs) = (enter indented margin cs).byBytes := by
  rcases cs with _ | ⟨c, cs⟩
  · rfl
  by_cases hc : c = '\n'
  · subst hc
    have hfeed : byteChars ['\n'] = ['\n'] := byteChars_of_lt (by decide)
    rw [byteChars_cons_of_lt (by decide)]
    simp [enter, Cut.byBytes, Piece.byBytes, hfeed]
  · obtain ⟨e, es, hes, he⟩ := exists_byteChars_cons c cs
    have hne : e ≠ '\n' := by simpa [hc] using he _ (.beq (d := '\n') (by decide))
    rw [hes]
    cases indented <;> simp [enter, hne, hc, Cut.byBytes, Piece.byBytes, hes]

theorem atLineStart_byteChars (cs : List Char) :
    atLineStart (byteChars cs) = (atLineStart cs).byBytes := by
  have hindented : ((byteChars cs).takeWhile isBlank != []) = (cs.takeWhile isBlank != []) := by
    rw [takeWhile_byteChars uniform_isBlank]
    rcases cs.takeWhile isBlank with _ | ⟨c, blanks⟩
    · rfl
    · obtain ⟨e, es, hes, -⟩ := exists_byteChars_cons c blanks
      rw [hes]
      rfl
  rw [atLineStart, hindented, margin_byteChars, enter_byteChars, ← atLineStart]

end Cut

theorem Stand.cut_byteChars (stand : Stand) {c d : Char} {cs ds : List Char}
    (h : byteChars (c :: cs) = d :: ds) : stand.cut d ds = (stand.cut c cs).byBytes := by
  cases stand with
  | lineStart => rw [cut, ← h, Cut.atLineStart_byteChars, cut]
  | inLine depth =>
    by_cases hc : c.val < 0x80
    · rw [byteChars_cons_of_lt hc] at h
      cases h
      exact Cut.inLine_byteChars depth hc cs
    · obtain ⟨e, es, hes, he⟩ := exists_byteChars_cons c cs
      obtain ⟨rfl, rfl⟩ := List.cons.inj (h.symm.trans hes)
      have hascii : Uniform fun c => decide (c.val < 0x80) := .of_ascii fun _ => of_decide_eq_true
      have hd : ¬d.val < 0x80 := fun hd => hc (decide_eq_decide.1 (he _ hascii) |>.1 hd)
      rw [cut, cut, Cut.inLine_of_not_lt depth hd, Cut.inLine_of_not_lt depth hc, ← h,
        Cut.word_byteChars, Cut.one_byBytes]

/-- What is read by bytes behind a cut. -/
theorem cutAll_byteChars_cons (stand : Stand) (c : Char) (cs : List Char)
    (ih : let k := stand.cut c cs
      cutAll k.stand (byteChars k.rest) =
        ((cutAll k.stand k.rest).1.map Piece.byBytes, (cutAll k.stand k.rest).2)) :
    cutAll stand (byteChars (c :: cs)) =
      ((cutAll stand (c :: cs)).1.map Piece.byBytes, (cutAll stand (c :: cs)).2) := by
  obtain ⟨d, ds, hds, -⟩ := exists_byteChars_cons c cs
  dsimp only at ih
  rw [hds, cutAll_cons, stand.cut_byteChars hds, cutAll_cons, List.map_append, Cut.byBytes, ih]

/-- The bytes of a text are cut where the text is cut. -/
theorem cutAll_byteChars (stand : Stand) (cs : List Char) :
    cutAll stand (byteChars cs) =
      ((cutAll stand cs).1.map Piece.byBytes, (cutAll stand cs).2) := by
  induction stand, cs using cutAll.induct with
  | case1 stand =>
    rw [byteChars_nil, cutAll]
    rfl
  | case2 c cs k ih => exact cutAll_byteChars_cons .lineStart c cs ih
  | case3 depth c cs k ih => exact cutAll_byteChars_cons (.inLine depth) c cs ih

end ScriptBridge
