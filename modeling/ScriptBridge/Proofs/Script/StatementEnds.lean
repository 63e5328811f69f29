import ScriptBridge.Proofs.Script.Brackets
import ScriptBridge.Proofs.Script.IndentedLines

/-! The end of a statement. A semicolon ends it, and so does the end of the line. No reader takes
either of them for a part of the statement, and what it looks at behind them makes no difference.
Proved: the rest of a statement is skipped up to its end, if as many brackets are closed as are
opened, and a value and a type are read alike in front of every end, if the type is read at all in
front of the end of a line. -/

namespace ScriptBridge

open Tokens

/-- The end of a line, which is an empty token. -/
def Token.IsLineEnd (t : Token) : Prop := t.kind = .newline ∧ t.text = ""

/-- A semicolon or the end of a line. -/
def Token.EndsStatement (t : Token) : Prop := t.isSemicolon ∨ t.IsLineEnd

namespace Token.EndsStatement

variable {stop : Token} (h : stop.EndsStatement)

include h

theorem kind : stop.kind = .operator ∨ stop.kind = .newline := by
  rcases h with h | h
  · exact .inl (beq_iff_eq.1 (Bool.and_eq_true_iff.1 h).1)
  · exact .inr h.1

theorem text : stop.text = ";" ∨ stop.text = "" := by
  rcases h with h | h
  · exact .inl (beq_iff_eq.1 (Bool.and_eq_true_iff.1 h).2)
  · exact .inr h.2

theorem kind_ne {kind : TokenKind} (hk : kind ∉ [TokenKind.operator, .newline]) :
    stop.kind ≠ kind := by
  rintro rfl
  rcases h.kind with h | h <;> simp [h] at hk

theorem endsValue : Inference.endsValue stop := by
  rcases h with h | h
  · simp [Inference.endsValue, h]
  · simp [Inference.endsValue, h.1]

end Token.EndsStatement

/-! ### Tokens of a statement -/

namespace Tokens

variable {ts us back : List Token} {t stop line : Token}

/-- Tokens none of which ends a statement. -/
def InStatement (ts : List Token) : Prop := ∀ t ∈ ts, t.kind.Inner ∧ t.isSemicolon = false

instance (ts : List Token) : Decidable (InStatement ts) :=
  inferInstanceAs (Decidable
    (∀ t ∈ ts, (t.kind ≠ .newline ∧ t.kind ≠ .endOfFile) ∧ t.isSemicolon = false))

/-- As many brackets are closed as are opened. -/
def Level (ts : List Token) : Prop := (ts.map nesting).sum = 0

instance (ts : List Token) : Decidable (Level ts) :=
  inferInstanceAs (Decidable ((ts.map nesting).sum = 0))

theorem Level.of_cons (h : Level (t :: ts)) (ht : nesting t = 0) : Level ts := by
  rwa [Level, List.map_cons, List.sum_cons, ht, zero_add] at h

theorem Level.of_append (h : Level (us ++ ts)) (hus : Level us) : Level ts := by
  rwa [Level, List.map_append, List.sum_append, hus, zero_add] at h

/-- Every bracket that is opened or closed makes the stack longer or shorter by one. -/
theorem length_openAfter {stack above : List Bracket} (h : openAfter stack ts = some above) :
    (above.length : Int) = stack.length + (ts.map nesting).sum := by
  induction ts generalizing stack with
  | nil =>
    cases h
    simp
  | cons t ts ih =>
    obtain ⟨next, hnext, h⟩ := Option.bind_eq_some_iff.1 h
    have hstep : (next.length : Int) = stack.length + nesting t := by
      unfold bracketStep at hnext
      unfold nesting
      cases hk : t.kind with rw [hk] at hnext
      | opening b =>
        cases hnext
        simp
      | closing b =>
        dsimp only at hnext
        split_ifs at hnext with hhead
        cases hnext
        cases stack with
        | nil => cases hhead
        | cons c stack => simp
      | _ =>
        cases hnext
        simp
    rw [ih h, hstep, List.map_cons, List.sum_cons, add_assoc]

theorem Neat.level (h : Neat ts) : Level ts := by
  have hlength := length_openAfter (h [])
  simpa [Level] using hlength.symm

/-! ### Reading up to the end of a statement -/

/-- The tokens are read as `v`, with `back` left of them, whatever ends the statement. -/
def Reads {α : Type} (read : List Token → Reading α) (ts : List Token) (v : α)
    (back : List Token) : Prop :=
  ∀ stop more, stop.EndsStatement →
    read (ts ++ stop :: more) = { value := v, rest := back ++ stop :: more }

/-- The tokens are read as `v`, together with what ends the statement. -/
def Ends {α : Type} (read : List Token → Reading α) (ts : List Token) (v : α) : Prop :=
  ∀ stop more, stop.EndsStatement → read (ts ++ stop :: more) = { value := v, rest := more }

section Readings

variable {α : Type} {read other : List Token → Reading α} {v : α}

theorem Reads.of_eq (h : Reads read us v back)
    (heq : ∀ more, other (ts ++ more) = read (us ++ more)) : Reads other ts v back :=
  fun stop more hs => (heq _).trans (h stop more hs)

theorem Ends.of_eq (h : Ends read us v) (heq : ∀ more, other (ts ++ more) = read (us ++ more)) :
    Ends other ts v := fun stop more hs => (heq _).trans (h stop more hs)

/-- What is left of the tokens is the end of them. -/
theorem Reads.suffix (h : Reads read ts v back) (hl : ∀ us, Leaves us (read us).rest) :
    back <:+ ts := by
  have hsuffix := (hl (ts ++ [{ kind := .newline }])).suffix
  rw [h _ _ (.inr ⟨rfl, rfl⟩)] at hsuffix
  obtain ⟨front, hfront⟩ := hsuffix
  rw [← List.append_assoc, List.append_left_inj] at hfront
  exact ⟨front, hfront⟩

end Readings

theorem InStatement.of_suffix (h : InStatement ts) (hs : back <:+ ts) : InStatement back :=
  fun t ht => h t (hs.mem ht)

theorem InStatement.of_cons (h : InStatement (t :: ts)) : InStatement ts :=
  h.of_suffix (List.suffix_cons t ts)

theorem starts_append_stop (h : stop.EndsStatement) {kind : TokenKind}
    (hk : kind ∉ [TokenKind.operator, .newline, .endOfFile]) (ts more : List Token) :
    starts kind (ts ++ stop :: more) = starts kind ts := by
  simp only [List.mem_cons, List.not_mem_nil, or_false, not_or] at hk
  cases ts with
  | nil =>
    have hstop : stop.kind ≠ kind := h.kind_ne (by simp [hk])
    simp [starts, next, hstop, Token.endOfFile, Ne.symm hk.2.2]
  | cons t ts => rfl

theorem exists_cons_of_starts {kind : TokenKind} (h : starts kind ts) (hk : kind ≠ .endOfFile) :
    ∃ t us, ts = t :: us ∧ t.kind = kind := by
  cases ts with
  | nil => exact absurd (beq_iff_eq.1 h) hk.symm
  | cons t us => exact ⟨t, us, rfl, beq_iff_eq.1 h⟩

theorem endsLine_cons (hk : t.kind = .newline) (ts : List Token) : endsLine (t :: ts) := by
  simp [endsLine, next, Token.endsLine, hk]

theorem endsLine_eq_false_of_starts {kind : TokenKind} (h : starts kind ts)
    (hk : kind ≠ .endOfFile ∧ kind ≠ .newline) : endsLine ts = false := by
  have hkind : (next ts).kind = kind := beq_iff_eq.1 h
  simp [endsLine, Token.endsLine, hkind, hk]

/-! ### Skipping -/

theorem endStatement_stop (h : stop.EndsStatement) (more : List Token) :
    endStatement (stop :: more) = more := by
  rw [endStatement, next, List.headD_cons]
  split_ifs with hs
  · rfl
  · have hk : stop.kind = .newline := (h.resolve_left hs).1
    rw [skipLine, if_neg (by simp [hk]), if_pos hk]

/-- A statement is skipped up to its end, if no bracket is left open there. -/
theorem skipTo_stop (hts : InStatement ts) (h : stop.EndsStatement) {depth : Int}
    (hd : depth + (ts.map nesting).sum = 0) (more : List Token) :
    skipTo Token.isSemicolon depth (ts ++ stop :: more) = stop :: more := by
  induction ts generalizing depth with
  | nil =>
    obtain rfl : depth = 0 := by simpa using hd
    have hstop : stop.endsLine || ((0 : Int) == 0 && stop.isSemicolon) := by
      rcases h with h | h
      · simp [h]
      · simp [Token.endsLine, h.1]
    rw [List.nil_append, skipTo, if_pos hstop]
  | cons t ts ih =>
    obtain ⟨⟨hinner, hs⟩, hts⟩ := List.forall_mem_cons.1 hts
    have ht : (t.endsLine || (depth == 0 && t.isSemicolon)) = false := by
      simp [Token.endsLine, hinner.1, hinner.2, hs]
    rw [List.cons_append, skipTo, ht, if_neg Bool.false_ne_true]
    rw [List.map_cons, List.sum_cons, ← add_assoc] at hd
    exact ih hts hd

theorem skipStatement_stop (hts : InStatement ts) (hl : Level ts) (h : stop.EndsStatement)
    (more : List Token) : skipStatement (ts ++ stop :: more) = more := by
  have hd : (0 : Int) + (ts.map nesting).sum = 0 := by rw [hl, add_zero]
  rw [skipStatement, skipTo_stop hts h hd, endStatement_stop h]

/-- Skipping that halts in front of the end of the tokens does not look behind it. -/
theorem skipTo_append_of_ne_nil {halts : Token → Bool} {depth : Int}
    (h : skipTo halts depth ts ≠ []) (more : List Token) :
    skipTo halts depth (ts ++ more) = skipTo halts depth ts ++ more := by
  fun_induction skipTo halts depth ts with
  | case1 => exact absurd rfl h
  | case2 depth t ts ht => rw [List.cons_append, skipTo, if_pos ht]
  | case3 depth t ts ht ih => rw [List.cons_append, skipTo, if_neg ht, ih h]

theorem skipTo_append_of_eq_nil {halts : Token → Bool} {depth : Int}
    (h : skipTo halts depth ts = []) (hk : line.kind = .newline) (after : List Token) :
    skipTo halts depth (ts ++ line :: after) = line :: after := by
  fun_induction skipTo halts depth ts with
  | case1 => simp [skipTo, Token.endsLine, hk]
  | case2 => cases h
  | case3 depth t ts ht ih => rw [List.cons_append, skipTo, if_neg ht, ih h]

/-- An expression that does not go up to the end of the line is skipped alike whatever stands
behind it. -/
theorem exists_skipExpression (hk : line.kind = .newline) {after : List Token}
    (h : endsLine (skipExpression (ts ++ line :: after)) = false) :
    ∃ back, ∀ more, skipExpression (ts ++ more) = back ++ more := by
  refine ⟨skipExpression ts, fun more => skipTo_append_of_ne_nil (fun hnil => ?_) more⟩
  rw [skipExpression, skipTo_append_of_eq_nil hnil hk, endsLine_cons hk] at h
  cases h

theorem finish_ends : Ends finish [] () := by
  intro stop more h
  have hnext : (stop.isSemicolon || stop.endsLine) = true := by
    rcases h with h | h
    · rw [h, Bool.true_or]
    · simp [Token.endsLine, h.1]
  simp only [finish, List.nil_append, next, endsLine, List.headD_cons, hnext, if_true,
    endStatement_stop h]

/-- Where a statement ends without a fault, nothing of it is left. -/
theorem eq_nil_of_finish (hts : InStatement ts) {tail : List Token}
    (h : (finish (ts ++ tail)).faults = []) : ts = [] := by
  cases ts with
  | nil => rfl
  | cons t ts =>
    obtain ⟨hinner, hs⟩ := hts t List.mem_cons_self
    have ht : (t.isSemicolon || t.endsLine) = false := by
      simp [Token.endsLine, hs, hinner.1, hinner.2]
    simp [finish, next, endsLine, ht] at h

end Tokens

open Tokens

variable {ts : List Token} {t line stop stop' : Token} {after : List Token}

/-! ### Initial values -/

namespace Inference

theorem signed_stop (h : stop.EndsStatement) (sign : String) : signed sign stop.kind = "" := by
  rcases h.kind with hk | hk <;> rw [hk] <;> rfl

theorem typeOf_stop (h : stop.EndsStatement) (more : List Token) : typeOf (stop :: more) = "" := by
  have hsigned (kind : TokenKind) : signed stop.text kind = "" := by
    rcases h.text with ht | ht <;> cases kind <;> simp [signed, ht]
  rcases h.kind with hk | hk
  · simp [typeOf, next, hk, hsigned]
  · simp [typeOf, next, hk, literal]

/-- To the type of a value, the end of its statement is what the end of its line is. -/
theorem typeOf_append_stop (h : stop.EndsStatement) (more : List Token) :
    typeOf (ts ++ stop :: more) = typeOf (ts ++ [{ kind := .newline }]) := by
  have hparen : stop.kind ≠ .opening .paren := h.kind_ne (by decide)
  have hdot : stop.kind ≠ .dot := h.kind_ne (by decide)
  have hnew : stop.text ≠ "new" := by
    rcases h.text with ht | ht <;> simp [ht]
  have hline : Token.EndsStatement { kind := .newline } := .inr ⟨rfl, rfl⟩
  have hsigned (sign : String) : signed sign .newline = "" := signed_stop hline sign
  match ts with
  | [] => rw [List.nil_append, typeOf_stop h, List.nil_append, typeOf_stop hline]
  | [t] =>
    simp [typeOf, next, ahead, signed_stop h, hsigned, h.endsValue, hline.endsValue, hparen, hdot]
  | [t, u] => simp [typeOf, next, ahead, h.endsValue, hline.endsValue, hnew]
  | [t, u, v] => simp [typeOf, next, ahead, hparen]
  | t :: u :: v :: w :: ts => rfl

end Inference

/-! ### Types -/

namespace TypeExpr

theorem segments_append_stop (h : stop.EndsStatement) (path : String) (span : Span)
    (ts more : List Token) :
    segments path span (ts ++ stop :: more) =
      ((segments path span ts).1, (segments path span ts).2 ++ stop :: more) := by
  have hdot : stop.kind ≠ .dot := h.kind_ne (by decide)
  have hname : stop.kind ≠ .identifier := h.kind_ne (by decide)
  fun_induction segments path span ts with
  | case1 path span dot t ts hd ih => rw [List.cons_append, List.cons_append, segments, if_pos hd, ih]
  | case2 path span dot t ts hd => rw [List.cons_append, List.cons_append, segments, if_neg hd]
  | case3 path span ts hd =>
    rcases ts with _ | ⟨t, _ | ⟨u, us⟩⟩
    · cases more <;> simp [segments, hdot]
    · simp [segments, hname]
    · exact absurd rfl (hd t u us)

/-- If something is read up to the end of a line, it is read alike up to a semicolon. -/
def ReadsToEnd {α : Type} (read : List Token → Reading (Option α)) (ts : List Token) : Prop :=
  ∀ line after, line.IsLineEnd → (read (ts ++ line :: after)).value.isSome →
    ∃ v back, Reads read ts (some v) back

theorem closeArguments_cons (hk : t.kind = .closing .square) (ts : List Token) :
    closeArguments (t :: ts) = { value := some t.span, rest := ts } := by
  rw [closeArguments, if_pos hk]

theorem endArguments_readsToEnd (ts : List Token) : ReadsToEnd endArguments ts := by
  intro line after hline h
  have hstop : line.kind ≠ .closing .square := by simp [hline.1]
  rw [endArguments, Option.isSome_map] at h
  cases ts with
  | nil => simp [closeArguments, hstop] at h
  | cons t ts =>
    by_cases hk : t.kind = .closing .square
    · refine ⟨([], t.span), ts, fun stop more _ => ?_⟩
      rw [List.cons_append, endArguments, closeArguments_cons hk]
      rfl
    · simp [closeArguments, hk] at h

/-- An argument and those after it are read up to the end if each of them is. -/
theorem consArgument_readsToEnd (hread : ReadsToEnd read ts)
    (hmore : ∀ us, us.length ≤ ts.length → ReadsToEnd moreArguments us) :
    ReadsToEnd consArgument ts := by
  intro line after hline h
  have hsome : (read (ts ++ line :: after)).value.isSome := by
    unfold consArgument at h
    split at h
    · cases h
    · next hv => rw [hv]; rfl
  obtain ⟨v, back, hv⟩ := hread line after hline hsome
  have hback : back <:+ ts := hv.suffix read_leaves
  have hm : (moreArguments (back ++ line :: after)).value.isSome := by
    unfold consArgument at h
    rw [hv line after (.inr hline)] at h
    simpa using h
  obtain ⟨w, rest, hw⟩ := hmore back hback.length_le line after hline hm
  refine ⟨(v.1 :: w.1, w.2), rest, fun stop more hs => ?_⟩
  simp only [consArgument, hv stop more hs, hw stop more hs]
  rfl

theorem read_cons_readsToEnd (t : Token) (ts : List Token)
    (hargs : ∀ us, us.length ≤ ts.length → ReadsToEnd argumentList us) :
    ReadsToEnd read (t :: ts) := by
  intro line after hline h
  have hleaves := segments_leaves t.text t.span ts
  rw [List.cons_append, read_cons] at h
  by_cases hk : t.kind = .identifier
  · have hsquare {stop : Token} (hs : stop.EndsStatement) (us more : List Token) :
        starts (.opening .square) (us ++ stop :: more) = starts (.opening .square) us :=
      starts_append_stop hs (by decide) us more
    simp only [if_pos hk, segments_append_stop (.inr hline), hsquare (.inr hline)] at h
    by_cases hopen : starts (.opening .square) (segments t.text t.span ts).2
    · obtain ⟨u, us, hus, -⟩ := exists_cons_of_starts hopen (by decide)
      rw [if_pos hopen, hus] at h
      rw [hus] at hleaves
      have hsome : (argumentList (us ++ line :: after)).value.isSome := by simpa using h
      obtain ⟨v, back, hv⟩ := hargs us (Nat.le_of_succ_le hleaves.length_le) line after hline hsome
      refine ⟨(applied (segments t.text t.span ts).1.1 v.1,
        (segments t.text t.span ts).1.2.hull v.2), back, fun stop more hs => ?_⟩
      rw [List.cons_append, read_cons, if_pos hk]
      simp only [segments_append_stop hs, hsquare hs, if_pos hopen]
      rw [hus, List.cons_append, List.tail_cons, hv stop more hs]
      rfl
    · refine ⟨(name (segments t.text t.span ts).1.1, (segments t.text t.span ts).1.2),
        (segments t.text t.span ts).2, fun stop more hs => ?_⟩
      simp only [List.cons_append, read_cons, if_pos hk, segments_append_stop hs, hsquare hs,
        if_neg hopen]
  · rw [if_neg hk] at h
    cases h

theorem ReadsToEnd.of_eq {α : Type} {read other : List Token → Reading (Option α)}
    {us : List Token} (h : ReadsToEnd read us)
    (heq : ∀ more, other (ts ++ more) = read (us ++ more)) : ReadsToEnd other ts := by
  intro line after hline hsome
  rw [heq] at hsome
  obtain ⟨v, back, hv⟩ := h line after hline hsome
  exact ⟨v, back, hv.of_eq heq⟩

section EndOfArguments

variable {other : List Token → Reading (Option (List TypeExpr × Span))}
variable (heq : ∀ us, endsArguments us → other us = endArguments us)

include heq

/-- A list of arguments does not go past the end of the line. -/
theorem readsToEnd_nil : ReadsToEnd other [] := by
  intro line after hline h
  have hends : endsArguments (line :: after) := by
    rw [endsArguments, endsLine_cons hline.1, Bool.or_true]
  have hclose : line.kind ≠ .closing .square := by simp [hline.1]
  rw [List.nil_append, heq _ hends, endArguments, closeArguments, if_neg hclose] at h
  cases h

theorem readsToEnd_of_endsArguments (he : endsArguments (t :: ts)) : ReadsToEnd other (t :: ts) :=
  (endArguments_readsToEnd (t :: ts)).of_eq fun _ => heq _ he

end EndOfArguments

theorem reading_readsToEnd :
    (∀ ts, ReadsToEnd read ts) ∧ (∀ ts, ReadsToEnd argumentList ts) ∧
      ∀ ts, ReadsToEnd moreArguments ts := by
  have hlist (us : List Token) (he : endsArguments us) : argumentList us = endArguments us := by
    rw [argumentList_eq, if_pos he]
  have hrest (us : List Token) (he : endsArguments us) : moreArguments us = endArguments us := by
    rw [moreArguments_eq, if_pos he]
  apply reading_induction
  case nil =>
    intro line after hline h
    rw [List.nil_append, read_cons, if_neg (by simp [hline.1])] at h
    cases h
  case cons => exact read_cons_readsToEnd
  case list =>
    intro ts hread hmore
    cases ts with
    | nil => exact readsToEnd_nil hlist
    | cons t ts =>
      by_cases he : endsArguments (t :: ts)
      · exact readsToEnd_of_endsArguments hlist he
      · refine (consArgument_readsToEnd hread hmore).of_eq fun more => ?_
        rw [argumentList_eq]
        exact if_neg he
  case more_nil => exact readsToEnd_nil hrest
  case more_cons =>
    intro t ts hread hmore
    by_cases he : endsArguments (t :: ts)
    · exact readsToEnd_of_endsArguments hrest he
    by_cases hk : t.kind = .comma
    · refine (consArgument_readsToEnd hread hmore).of_eq fun more => ?_
      rw [moreArguments_eq]
      exact (if_neg he).trans (if_pos hk)
    · intro line after hline h
      have hnone : moreArguments (t :: ts ++ line :: after) =
          { value := none, rest := t :: ts ++ line :: after } := by
        rw [moreArguments_eq]
        exact (if_neg he).trans (if_neg hk)
      rw [hnone] at h
      cases h

/-- A type that is read up to the end of a line is read alike up to a semicolon, and it is
balanced. -/
theorem exists_reads (hline : line.IsLineEnd) (h : (read (ts ++ line :: after)).value.isSome) :
    ∃ v back, Reads read ts (some v) back ∧ back <:+ ts ∧ (Level ts → Level back) := by
  obtain ⟨v, back, hv⟩ := reading_readsToEnd.1 ts line after hline h
  refine ⟨v, back, hv, hv.suffix read_leaves, fun hlevel => ?_⟩
  obtain ⟨front, hfront, hneat⟩ := read_passes h
  rw [hv line after (.inr hline), ← List.append_assoc, List.append_left_inj] at hfront
  subst hfront
  exact hlevel.of_append hneat.level

end TypeExpr

end ScriptBridge
