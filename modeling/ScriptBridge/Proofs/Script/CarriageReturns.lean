import ScriptBridge.Proofs.Script.CutCases
import ScriptBridge.Proofs.Script.Joining
import ScriptBridge.Proofs.Text.LineEnds

/-! Reading past carriage returns. Numbers, names and signs are read alike with and without
carriage returns before the line ends of a text. A literal has them in its content; one in a
single pair of marks must not run over a line end, because a backslash hides one character
only. Proved: what each reader takes and leaves in the spelling with carriage returns. -/

namespace ScriptBridge

variable {c : Char} {cs rest rest' : List Char}

/-! ### What a text yields -/

/-- A text with a carriage return before each line feed. -/
def crlfText (text : String) : String := String.ofList (crlf text.toList)

/-- A token when line ends are written with carriage returns. Only literals hold line ends. -/
def Token.returned (t : Token) : Token :=
  if t.kind = .text then { t with text := crlfText t.text } else t

/-- What stands for a token or a fault when line ends are written with carriage returns. -/
inductive Returns : Token ⊕ Fault → Token ⊕ Fault → Prop where
  | same {kind : TokenKind} {text : String} (hk : kind ≠ .text) (h : '\n' ∉ text.toList) :
      Returns (.inl { kind, text }) (.inl { kind, text })
  | text (text : String) :
      Returns (.inl { kind := .text, text }) (.inl { kind := .text, text := crlfText text })
  | fault (f : Fault) : Returns (.inr f) (.inr f)

/-- A literal in one pair of marks that runs over a line end. -/
def Piece.wraps : Piece → Bool
  | token .text [_] text _ => text.contains '\n'
  | broken .unterminatedString (quote :: cs) =>
    cs.contains '\n' && Cut.markOf quote cs == [quote]
  | _ => false

/-- What a cut leaves of either spelling of a text. The cut that meets a line end may have
taken its carriage return. -/
def Resumes (rest rest' : List Char) : Prop :=
  rest' = crlf rest ∨ ∃ more, rest = '\n' :: more ∧ rest' = '\n' :: crlf more

namespace Cut

/-! ### Numbers, names and signs -/

/-- A reader to which a line end is the end of the text leaves either spelling of what it
leaves. -/
theorem StopsAtEnd.read_crlf {α : Type} {read : List Char → α × List Char}
    (h : StopsAtEnd read) (hrest : ∀ cs, '\n' ∉ cs → '\n' ∉ (read cs).2) (cs : List Char) :
    read (crlf cs) = ((read cs).1, crlf (read cs).2) := by
  by_cases hn : '\n' ∈ cs
  · obtain ⟨front, rest, rfl, hfront⟩ := List.eq_append_cons_of_mem hn
    rw [crlf_append, crlf_lineFeed, crlf_eq_self hfront, h front '\r' _ (by decide),
      h front '\n' rest (by decide), crlf_append, crlf_lineFeed,
      crlf_eq_self (hrest front hfront)]
  · rw [crlf_eq_self hn, crlf_eq_self (hrest cs hn)]

theorem mark?_crlf (hc : c ≠ '\n') (cs : List Char) :
    mark? c (crlf cs) = (mark? c cs).map fun m => (m.1, m.2.1, crlf m.2.2) := by
  have hself {cs : List Char} (hn : '\n' ∉ cs) {m : TokenKind × List Char × List Char}
      (hm : mark? c cs = some m) : crlf m.2.2 = m.2.2 := by
    refine crlf_eq_self fun hmem => ?_
    rcases List.mem_cons.1 (mark?_source hm ▸ List.mem_append_right m.2.1 hmem) with h | h
    · exact hc h.symm
    · exact hn h
  by_cases hn : '\n' ∈ cs
  · obtain ⟨front, rest, rfl, hfront⟩ := List.eq_append_cons_of_mem hn
    rw [crlf_append, crlf_lineFeed, crlf_eq_self hfront, mark?_end c front (by decide),
      mark?_end c front (by decide)]
    cases hm : mark? c front with
    | none => rfl
    | some m => simp [hself hfront hm]
  · rw [crlf_eq_self hn]
    cases hm : mark? c cs with
    | none => rfl
    | some m => simp [hself hn hm]

/-! ### Texts of one line -/

/-- What is read in both spellings of a text holds no line end. -/
theorem lineFeed_notMem {front source : List Char} (h : source ++ rest = front ++ cs)
    (hcrlf : source ++ crlf rest = front ++ crlf cs) (hfront : '\n' ∉ front) :
    '\n' ∉ source := by
  refine crlf_eq_self_iff.1 ((List.append_left_inj (crlf rest)).1 ?_)
  rw [← crlf_append, h, hcrlf, crlf_append, crlf_eq_self hfront]

/-! ### Text literals -/

/-- What is read of a content, and what is left, in either spelling. A line end that breaks the
content off has its carriage return in the content. -/
def ReadAlike (body body' : List Char × List Char) : Prop :=
  body' = (crlf body.1, crlf body.2) ∨
    ∃ more, body.2 = '\n' :: more ∧ body'.2 = '\n' :: crlf more

section Marks

variable {body body' : List Char × List Char}

theorem ReadAlike.cons (h : ReadAlike body body') (hc : c ≠ '\n') :
    ReadAlike (c :: body.1, body.2) (c :: body'.1, body'.2) := by
  rcases h with rfl | h
  · exact .inl (by rw [crlf_cons hc])
  · exact .inr h

theorem ReadAlike.lineFeed (h : ReadAlike body body') :
    ReadAlike ('\n' :: body.1, body.2) ('\r' :: '\n' :: body'.1, body'.2) := by
  rcases h with rfl | h
  · exact .inl (by rw [crlf_lineFeed])
  · exact .inr h

variable {mark : List Char} {raw : Bool} (hmark : mark ≠ []) (hquotes : ∀ d ∈ mark, isQuote d)

include hquotes in
theorem isPrefixOf_crlf_of_quotes (cs : List Char) :
    mark.isPrefixOf (crlf cs) = mark.isPrefixOf cs :=
  isPrefixOf_crlf (fun h => absurd (hquotes _ h) (by decide))
    (fun h => absurd (hquotes _ h) (by decide)) cs

include hmark hquotes in
theorem isPrefixOf_of_not_isQuote {d : Char} (hd : isQuote d = false) (cs : List Char) :
    mark.isPrefixOf (d :: cs) = false := by
  match mark, hmark with
  | a :: mark, _ =>
    have ha : (a == d) = false := by
      rw [beq_eq_false_iff_ne]
      rintro rfl
      exact absurd (hquotes a List.mem_cons_self) (by simp [hd])
    rw [List.isPrefixOf_cons_cons, ha, Bool.false_and]

/-- A character that neither ends the content nor hides the next one. -/
theorem content_cons (hp : mark.isPrefixOf (c :: cs) = false)
    (hn : (c == '\n' && mark.length == 1) = false) (he : (c == '\\' && !raw) = false) :
    content mark raw (c :: cs) =
      (c :: (content mark raw cs).1, (content mark raw cs).2) := by
  refine content_kept ?_ ?_
  · rw [hp, hn]
    exact Bool.false_ne_true
  · rw [he]
    exact Bool.false_ne_true

include hmark hquotes in
theorem content_return (cs : List Char) :
    content mark raw ('\r' :: cs) =
      ('\r' :: (content mark raw cs).1, (content mark raw cs).2) :=
  content_cons (isPrefixOf_of_not_isQuote hmark hquotes (by decide) cs) rfl rfl

include hmark hquotes in
theorem content_lineFeed (hl : mark.length ≠ 1) (cs : List Char) :
    content mark raw ('\n' :: cs) =
      ('\n' :: (content mark raw cs).1, (content mark raw cs).2) := by
  refine content_cons (isPrefixOf_of_not_isQuote hmark hquotes (by decide) cs) ?_ rfl
  rw [beq_eq_false_iff_ne.2 hl, Bool.and_false]

include hmark hquotes in
/-- A content that does not run over a line end where it must not is read alike in both
spellings. -/
theorem content_crlf (h : mark.length = 1 → '\n' ∉ (content mark raw cs).1) :
    ReadAlike (content mark raw cs) (content mark raw (crlf cs)) := by
  -- Away from line ends both spellings have the closing mark at the same places.
  have hopens {c : Char} (hn : c ≠ '\n') (cs : List Char) :
      mark.isPrefixOf (c :: crlf cs) = mark.isPrefixOf (c :: cs) := by
    rw [← crlf_cons hn, isPrefixOf_crlf_of_quotes hquotes]
  have hline (cs : List Char) : mark.isPrefixOf ('\n' :: cs) = false :=
    isPrefixOf_of_not_isQuote hmark hquotes (by decide) cs
  fun_induction content mark raw cs with
  | case1 => exact .inl rfl
  | case2 c cs hc =>
    by_cases hn : c = '\n'
    · subst hn
      refine .inr ⟨cs, rfl, ?_⟩
      rw [hline] at hc
      rw [crlf_lineFeed, content_return hmark hquotes, content_stop (by rwa [hline])]
    · left
      rw [← hopens hn] at hc
      rw [crlf_cons hn, content_stop hc, crlf_nil]
  | case3 c he hc =>
    obtain ⟨hback, -⟩ := Bool.and_eq_true_iff.1 he
    obtain rfl := beq_iff_eq.1 hback
    left
    rw [crlf_cons (by decide), crlf_nil, content_last hc]
  | case4 c he d ds hc ih =>
    obtain ⟨hback, -⟩ := Bool.and_eq_true_iff.1 he
    obtain rfl := beq_iff_eq.1 hback
    rw [← hopens (by decide)] at hc
    rw [crlf_cons (by decide)]
    have ih := ih fun hl hmem => h hl (List.mem_cons_of_mem _ (List.mem_cons_of_mem _ hmem))
    by_cases hd : d = '\n'
    · subst hd
      have hl : mark.length ≠ 1 := fun hl => h hl (by simp)
      rw [crlf_lineFeed] at hc ⊢
      rw [content_hidden hc he, content_lineFeed hmark hquotes hl]
      exact ih.lineFeed.cons (by decide)
    · rw [crlf_cons hd] at hc ⊢
      rw [content_hidden hc he]
      exact (ih.cons hd).cons (by decide)
  | case5 c cs hc he ih =>
    have ih := ih fun hl hmem => h hl (List.mem_cons_of_mem _ hmem)
    by_cases hn : c = '\n'
    · subst hn
      have hl : mark.length ≠ 1 := fun hl => hc (by simp [hl])
      rw [crlf_lineFeed, content_return hmark hquotes, content_lineFeed hmark hquotes hl]
      exact ih.lineFeed
    · rw [← hopens hn] at hc
      rw [crlf_cons hn, content_kept hc he]
      exact ih.cons hn

/-- A literal from its content on. -/
def ending (mark : List Char) (body : List Char × List Char) : Piece × List Char :=
  if mark.isPrefixOf body.2 then (.token .text mark body.1 mark, body.2.drop mark.length)
  else (.broken .unterminatedString (mark ++ body.1), body.2)

include hmark hquotes in
/-- A literal is closed in both spellings, or it breaks off in both. -/
theorem ending_crlf (h : ReadAlike body body') :
    Option.Rel Returns (ending mark body).1.view (ending mark body').1.view ∧
      Resumes (ending mark body).2 (ending mark body').2 := by
  obtain ⟨text, rest⟩ := body
  rcases h with rfl | ⟨more, hrest, hmore⟩
  · simp only [ending, isPrefixOf_crlf_of_quotes hquotes]
    split_ifs with hclosed
    · obtain ⟨behind, rfl⟩ := List.isPrefixOf_iff_prefix.1 hclosed
      have hself : crlf mark = mark :=
        crlf_eq_self fun hn => absurd (hquotes _ hn) (by decide)
      rw [crlf_append, hself, List.drop_left, List.drop_left]
      refine ⟨?_, .inl rfl⟩
      have htext := Returns.text (String.ofList text)
      rw [crlfText, String.toList_ofList] at htext
      exact .some htext
    · exact ⟨.some (.fault _), .inl rfl⟩
  · obtain rfl : rest = '\n' :: more := hrest
    have hline (cs : List Char) : mark.isPrefixOf ('\n' :: cs) = false :=
      isPrefixOf_of_not_isQuote hmark hquotes (by decide) cs
    simp only [ending, hmore, hline, Bool.false_eq_true, if_false]
    exact ⟨.some (.fault _), .inr ⟨more, rfl, rfl⟩⟩

end Marks

theorem textLiteral_single {raw : Bool} {quote : Char} (h : markOf quote cs = [quote]) :
    textLiteral raw quote cs = ending [quote] (content [quote] raw cs) := by
  simp only [textLiteral, h]
  rfl

theorem textLiteral_triple (raw : Bool) (quote : Char) (cs : List Char) :
    textLiteral raw quote (quote :: quote :: cs) =
      ending [quote, quote, quote] (content [quote, quote, quote] raw cs) := by
  have hmark : markOf quote (quote :: quote :: cs) = [quote, quote, quote] := by simp [markOf]
  simp only [textLiteral, hmark]
  rfl

theorem lineFeed_notMem_of_wraps {raw : Bool} {quote : Char} (h : markOf quote cs = [quote])
    (hw : (textLiteral raw quote cs).1.wraps = false) : '\n' ∉ (content [quote] raw cs).1 := by
  intro hmem
  refine Bool.eq_false_iff.1 hw ?_
  rw [textLiteral_single h, ending]
  split_ifs
  · exact List.contains_iff_mem.2 hmem
  · have hsingle : markOf quote (content [quote] raw cs).1 = [quote] := if_neg fun hthree => by
      have hsource := content_source [quote] raw cs
      have hcs : [quote, quote].isPrefixOf cs := by
        rw [List.isPrefixOf_iff_prefix] at hthree ⊢
        exact hsource ▸ hthree.trans (List.prefix_append _ _)
      rw [markOf, if_pos hcs] at h
      cases h
    exact Bool.and_eq_true_iff.2 ⟨List.contains_iff_mem.2 hmem, beq_iff_eq.2 hsingle⟩

/-- A literal that does not run over a line end where it must not is cut alike. -/
theorem textLiteral_crlf (raw : Bool) {quote : Char} (hq : isQuote quote)
    (hw : (textLiteral raw quote cs).1.wraps = false) :
    Option.Rel Returns (textLiteral raw quote cs).1.view
        (textLiteral raw quote (crlf cs)).1.view ∧
      Resumes (textLiteral raw quote cs).2 (textLiteral raw quote (crlf cs)).2 := by
  have hquotes : ∀ d ∈ [quote, quote], isQuote d := by simp [hq]
  have hopens := isPrefixOf_crlf_of_quotes hquotes cs
  by_cases h : [quote, quote].isPrefixOf cs
  · obtain ⟨rest, rfl⟩ := List.isPrefixOf_iff_prefix.1 h
    have hn : quote ≠ '\n' := by
      rintro rfl
      exact absurd hq (by decide)
    have hthree : ∀ d ∈ [quote, quote, quote], isQuote d := by simp [hq]
    have hmark : [quote, quote, quote] ≠ [] := List.cons_ne_nil _ _
    simp only [List.cons_append, List.nil_append, crlf_cons hn, textLiteral_triple]
    exact ending_crlf hmark hthree (content_crlf hmark hthree (by simp))
  · have hsingle : markOf quote cs = [quote] := if_neg h
    have hsingle' : markOf quote (crlf cs) = [quote] := if_neg (hopens ▸ h)
    have hone : ∀ d ∈ [quote], isQuote d := by simp [hq]
    have hmark : [quote] ≠ [] := List.cons_ne_nil _ _
    rw [textLiteral_single hsingle, textLiteral_single hsingle']
    exact ending_crlf hmark hone
      (content_crlf hmark hone fun _ => lineFeed_notMem_of_wraps hsingle hw)

end Cut

end ScriptBridge
