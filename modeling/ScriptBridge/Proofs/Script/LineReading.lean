import Mathlib.Tactic.SplitIfs
import ScriptBridge.Proofs.Script.TypeReading
import ScriptBridge.Script.Statement

/-! Reading ends with the line. Each part of a statement is read up to the line end at the
latest, and what stands behind the line changes nothing. Proved: a part leaves the line
end, a statement takes it at the latest, and both are read alike whatever follows. -/

namespace ScriptBridge

/-- The reading when more tokens stand behind those that were read. -/
def Reading.before {α : Type} (r : Reading α) (more : List Token) : Reading α :=
  { r with rest := r.rest ++ more }

namespace Tokens

/-- The tokens hold the end of their first line, which is an empty token. -/
inductive HoldsLine : List Token → Prop where
  | here {t : Token} {ts : List Token} (hk : t.kind = .newline) (ht : t.text = "") :
      HoldsLine (t :: ts)
  | behind {t : Token} {ts : List Token} (hk : t.kind ≠ .newline) (h : HoldsLine ts) :
      HoldsLine (t :: ts)

/-- A part of a statement: it leaves the line end, whatever stands behind it. -/
def StaysInLine {α : Type} (read : List Token → Reading α) : Prop :=
  ∀ ⦃ts⦄, HoldsLine ts →
    HoldsLine (read ts).rest ∧ ∀ more, read (ts ++ more) = (read ts).before more

/-- The end of a statement: it takes the line end at the latest, whatever stands behind it. -/
def EndsWithLine {α : Type} (read : List Token → Reading α) : Prop :=
  ∀ ⦃ts⦄, HoldsLine ts → ∀ more, read (ts ++ more) = (read ts).before more

namespace HoldsLine

variable {t : Token} {ts : List Token} {kind : TokenKind}

theorem ne_nil (h : HoldsLine ts) : ts ≠ [] := by cases h <;> simp

theorem of_cons (h : HoldsLine (t :: ts)) (hk : t.kind ≠ .newline) : HoldsLine ts := by
  cases h with
  | here hn => exact absurd hn hk
  | behind _ h => exact h

theorem tail (h : HoldsLine ts) (hs : starts kind ts) (hk : kind ≠ .newline) :
    HoldsLine ts.tail := by
  obtain ⟨t, ts, rfl⟩ := List.exists_cons_of_ne_nil h.ne_nil
  obtain rfl : t.kind = kind := by simpa [starts, next] using hs
  exact h.of_cons hk

theorem tail_append (h : HoldsLine ts) (more : List Token) :
    (ts ++ more).tail = ts.tail ++ more := List.tail_append_of_ne_nil h.ne_nil

theorem next_append (h : HoldsLine ts) (more : List Token) : next (ts ++ more) = next ts := by
  obtain ⟨t, ts, rfl⟩ := List.exists_cons_of_ne_nil h.ne_nil
  rfl

theorem starts_append (h : HoldsLine ts) (kind : TokenKind) (more : List Token) :
    starts kind (ts ++ more) = starts kind ts := by rw [starts, h.next_append, starts]

theorem endsLine_append (h : HoldsLine ts) (more : List Token) :
    endsLine (ts ++ more) = endsLine ts := by rw [endsLine, h.next_append, endsLine]

theorem faultHere_append (h : HoldsLine ts) (fault : Fault) (more : List Token) :
    faultHere fault (ts ++ more) = faultHere fault ts := by
  rw [faultHere, h.next_append, faultHere]

end HoldsLine

variable {ts : List Token}

theorem not_holdsLine_nil : ¬HoldsLine [] := fun h => h.ne_nil rfl

theorem ahead_append {n : Nat} (hn : n < ts.length) (more : List Token) :
    ahead (ts ++ more) n = ahead ts n := by
  simp only [ahead, List.getElem?_append_left hn, List.getElem?_eq_getElem hn]

/-! ### Skipping -/

theorem skipLine_append (h : HoldsLine ts) (more : List Token) :
    skipLine (ts ++ more) = skipLine ts ++ more := by
  induction h with
  | here hk _ => simp [skipLine, hk]
  | behind hk _ ih =>
    simp only [List.cons_append, skipLine, ih]
    split_ifs <;> rfl

theorem skipTo_append (h : HoldsLine ts) (stop : Token → Bool) (depth : Int)
    (more : List Token) : skipTo stop depth (ts ++ more) = skipTo stop depth ts ++ more := by
  induction h generalizing depth with
  | here hk _ => simp [skipTo, Token.endsLine, hk]
  | behind hk _ ih =>
    simp only [List.cons_append, skipTo, ih]
    split_ifs <;> rfl

theorem holdsLine_skipTo (h : HoldsLine ts) (stop : Token → Bool) (depth : Int) :
    HoldsLine (skipTo stop depth ts) := by
  induction h generalizing depth with
  | here hk ht =>
    simp only [skipTo, Token.endsLine, hk]
    exact .here hk ht
  | behind hk h ih =>
    rw [skipTo]
    split_ifs
    · exact .behind hk h
    · exact ih _

theorem skipExpression_append (h : HoldsLine ts) (more : List Token) :
    skipExpression (ts ++ more) = skipExpression ts ++ more := skipTo_append h _ 0 more

theorem holdsLine_skipExpression (h : HoldsLine ts) : HoldsLine (skipExpression ts) :=
  holdsLine_skipTo h _ 0

theorem endStatement_append (h : HoldsLine ts) (more : List Token) :
    endStatement (ts ++ more) = endStatement ts ++ more := by
  rw [endStatement, h.next_append, h.tail_append, skipLine_append h, endStatement]
  split_ifs <;> rfl

theorem skipStatement_append (h : HoldsLine ts) (more : List Token) :
    skipStatement (ts ++ more) = skipStatement ts ++ more := by
  rw [skipStatement, skipTo_append h, endStatement_append (holdsLine_skipTo h _ 0)]
  rfl

theorem finish_endsWithLine : EndsWithLine finish := by
  intro ts h more
  simp only [finish, Reading.before, h.next_append, h.endsLine_append, h.faultHere_append,
    endStatement_append h]

end Tokens

open Tokens

variable {ts : List Token}

/-! ### Type expressions -/

namespace TypeExpr

theorem segments_append (h : HoldsLine ts) (path : String) (span : Span) (more : List Token) :
    segments path span (ts ++ more) =
      ((segments path span ts).1, (segments path span ts).2 ++ more) := by
  fun_induction segments path span ts with
  | case1 path span dot t ts hd ih =>
    have hd' := hd
    simp only [Bool.and_eq_true, decide_eq_true_eq] at hd'
    have hl : HoldsLine ts := (h.of_cons (by simp [hd'.1])).of_cons (by simp [hd'.2])
    rw [List.cons_append, List.cons_append, segments, if_pos hd, ih hl]
  | case2 path span dot t ts hd =>
    rw [List.cons_append, List.cons_append, segments, if_neg hd]
  | case3 path span ts hd =>
    -- One token is left, and it is the line end, so that no dot stands here.
    cases h with
    | @here t us hk ht =>
      cases us with
      | cons u us => exact absurd rfl (hd t u us)
      | nil =>
        cases more with
        | nil => rfl
        | cons u more => simp [segments, hk]
    | @behind t us hk h =>
      obtain ⟨u, us, rfl⟩ := List.exists_cons_of_ne_nil h.ne_nil
      exact absurd rfl (hd t u us)

theorem holdsLine_segments (h : HoldsLine ts) (path : String) (span : Span) :
    HoldsLine (segments path span ts).2 := by
  fun_induction segments path span ts with
  | case1 path span dot t ts hd ih =>
    simp only [Bool.and_eq_true, decide_eq_true_eq] at hd
    exact ih ((h.of_cons (by simp [hd.1])).of_cons (by simp [hd.2]))
  | case2 => exact h
  | case3 => exact h

theorem closeArguments_staysInLine : StaysInLine closeArguments := by
  intro ts h
  obtain ⟨t, ts, rfl⟩ := List.exists_cons_of_ne_nil h.ne_nil
  by_cases hk : t.kind = .closing .square
  · refine ⟨?_, fun more => ?_⟩
    · simpa [closeArguments, hk] using h.of_cons (by simp [hk])
    · simp [closeArguments, hk, Reading.before]
  · refine ⟨?_, fun more => ?_⟩
    · simpa [closeArguments, hk] using h
    · simp only [List.cons_append, closeArguments, if_neg hk]
      rfl

theorem endsArguments_append (h : HoldsLine ts) (more : List Token) :
    endsArguments (ts ++ more) = endsArguments ts := by
  rw [endsArguments, h.starts_append, h.endsLine_append, endsArguments]

theorem endArguments_staysInLine : StaysInLine endArguments := by
  intro ts h
  obtain ⟨hc, happend⟩ := closeArguments_staysInLine h
  refine ⟨hc, fun more => ?_⟩
  simp only [endArguments, happend]
  rfl

/-- An argument stays in the line if its parts do. -/
theorem consArgument_append
    (hr : HoldsLine (read ts).rest ∧ ∀ more, read (ts ++ more) = (read ts).before more)
    (hm : HoldsLine (moreArguments (read ts).rest).rest ∧
      ∀ more, moreArguments ((read ts).rest ++ more) =
        (moreArguments (read ts).rest).before more) :
    HoldsLine (consArgument ts).rest ∧
      ∀ more, consArgument (ts ++ more) = (consArgument ts).before more := by
  refine ⟨?_, fun more => ?_⟩
  · unfold consArgument
    cases (read ts).value with
    | none => exact hr.1
    | some v => exact hm.1
  · have hread := hr.2 more
    simp only [Reading.before] at hread
    simp only [consArgument, hread, hm.2]
    cases (read ts).value <;> rfl

theorem read_staysInLine : StaysInLine read := by
  refine (reading_induction
    (P := fun ts => HoldsLine ts →
      HoldsLine (read ts).rest ∧ ∀ more, read (ts ++ more) = (read ts).before more)
    (A := fun ts => HoldsLine ts →
      HoldsLine (argumentList ts).rest ∧
        ∀ more, argumentList (ts ++ more) = (argumentList ts).before more)
    (M := fun ts => HoldsLine ts →
      HoldsLine (moreArguments ts).rest ∧
        ∀ more, moreArguments (ts ++ more) = (moreArguments ts).before more)
    ?_ ?_ ?_ ?_ ?_).1
  · exact fun h => absurd h not_holdsLine_nil
  · intro t ts ihA h
    by_cases ht : t.kind = .identifier
    · have hts := h.of_cons (by simp [ht])
      have hs := holdsLine_segments hts t.text t.span
      simp only [List.cons_append, read_cons, if_pos ht, segments_append hts, hs.starts_append,
        hs.tail_append]
      by_cases hb : starts (.opening .square) (segments t.text t.span ts).2
      · have hlength := (segments_leaves t.text t.span ts).length_le
        obtain ⟨ha, happend⟩ := ihA (segments t.text t.span ts).2.tail
          (Nat.le_trans (by simp) hlength) (hs.tail hb (by decide))
        simp only [if_pos hb, happend]
        exact ⟨ha, fun more => rfl⟩
      · simp only [if_neg hb]
        exact ⟨hs, fun more => rfl⟩
    · simp only [List.cons_append, read_cons, if_neg ht]
      exact ⟨h, fun more => rfl⟩
  · intro ts ihP ihM h
    simp only [argumentList_eq, endsArguments_append h]
    split_ifs
    · exact endArguments_staysInLine h
    · exact consArgument_append (ihP h) (ihM _ (read_leaves ts).length_le (ihP h).1)
  · exact fun h => absurd h not_holdsLine_nil
  · intro t ts ihP ihM h
    have hends := endsArguments_append h
    simp only [List.cons_append] at hends
    simp only [List.cons_append, moreArguments_eq, hends]
    by_cases he : endsArguments (t :: ts)
    · simp only [if_pos he]
      exact endArguments_staysInLine h
    · simp only [if_neg he]
      by_cases hk : t.kind = .comma
      · have hts := h.of_cons (by simp [hk])
        simp only [if_pos hk]
        exact consArgument_append (ihP hts) (ihM _ (read_leaves ts).length_le (ihP hts).1)
      · simp only [if_neg hk]
        exact ⟨h, fun more => rfl⟩

end TypeExpr

/-! ### Initial values -/

namespace Inference

/-- The tokens that show the type stand before the line end: a line end is no literal, no
sign of a call, and not the word `new`. -/
theorem typeOf_append (h : HoldsLine ts) (more : List Token) :
    typeOf (ts ++ more) = typeOf ts := by
  have hnext := h.next_append more
  cases h with
  | here hk _ => simp [typeOf, next, hk, literal]
  | @behind t ts hk h =>
    obtain ⟨u, us, rfl⟩ := List.exists_cons_of_ne_nil h.ne_nil
    have h₁ : ahead (t :: u :: us ++ more) 1 = u := rfl
    have h₁' : ahead (t :: u :: us) 1 = u := rfl
    cases h with
    | here hu _ =>
      have hsigned (sign : String) : signed sign .newline = "" := rfl
      simp only [typeOf, hnext, h₁, h₁', hu, hsigned]
      simp
    | behind hu h =>
      obtain ⟨v, vs, rfl⟩ := List.exists_cons_of_ne_nil h.ne_nil
      have h₂ : ahead (t :: u :: v :: vs ++ more) 2 = v := rfl
      have h₂' : ahead (t :: u :: v :: vs) 2 = v := rfl
      cases h with
      | here _ hv =>
        simp only [typeOf, hnext, h₁, h₁', h₂, h₂', hv]
        simp
      | behind _ h =>
        obtain ⟨w, ws, rfl⟩ := List.exists_cons_of_ne_nil h.ne_nil
        rfl

end Inference

namespace Statement

/-! ### Tags and words -/

theorem tagArguments_append (h : HoldsLine ts) (depth : Int) (text : String)
    (more : List Token) :
    tagArguments depth text (ts ++ more) =
      ((tagArguments depth text ts).1, (tagArguments depth text ts).2 ++ more) := by
  induction h generalizing depth text with
  | here hk _ => simp [tagArguments, Token.endsLine, hk]
  | behind hk _ ih =>
    simp only [List.cons_append, tagArguments, ih]
    split_ifs <;> rfl

theorem holdsLine_tagArguments (h : HoldsLine ts) (depth : Int) (text : String) :
    HoldsLine (tagArguments depth text ts).2 := by
  induction h generalizing depth text with
  | here hk ht =>
    simp only [tagArguments, Token.endsLine, hk]
    exact .here hk ht
  | behind hk h ih =>
    rw [tagArguments]
    split_ifs
    · exact .behind hk h
    · exact .behind hk h
    · exact ih _ _
    · exact ih _ _

theorem readTag_staysInLine (name : Token) : StaysInLine (readTag name) := by
  intro ts h
  simp only [readTag, h.starts_append, h.tail_append]
  by_cases hp : starts (.opening .paren) ts
  · have ht := h.tail hp (by decide)
    have ha := holdsLine_tagArguments ht 0 ""
    simp only [if_pos hp, tagArguments_append ht, ha.starts_append, ha.next_append,
      ha.faultHere_append, ha.tail_append]
    split_ifs with hc
    · exact ⟨ha.tail hc (by decide), fun more => rfl⟩
    · exact ⟨ha, fun more => rfl⟩
  · simp only [if_neg hp]
    exact ⟨h, fun more => rfl⟩

theorem exportHint_staysInLine : StaysInLine exportHint := by
  intro ts h
  simp only [exportHint, h.starts_append, h.tail_append]
  by_cases hp : starts (.opening .paren) ts
  · have ht := h.tail hp (by decide)
    have hr := holdsLine_skipTo ht (fun t => t.kind == .closing .paren || t.isSemicolon) 0
    simp only [if_pos hp, skipTo_append ht, hr.starts_append, hr.tail_append,
      hr.faultHere_append]
    split_ifs with hc
    · exact ⟨hr.tail hc (by decide), fun more => rfl⟩
    · exact ⟨hr, fun more => rfl⟩
  · simp only [if_neg hp]
    exact ⟨h, fun more => rfl⟩

theorem readWord_endsWithLine (t : Token) : EndsWithLine (readWord t) := by
  intro ts h more
  have hlength : 1 < (t :: ts).length := Nat.succ_lt_succ (List.length_pos_iff.2 h.ne_nil)
  have hahead : ahead (t :: (ts ++ more)) 1 = ahead (t :: ts) 1 := ahead_append hlength more
  simp only [readWord, hahead, (exportHint_staysInLine h).2, skipLine_append h]
  split_ifs <;> rfl

/-! ### The head of the class -/

theorem baseSegments_staysInLine (path : String) (span : Span) :
    StaysInLine (baseSegments path span) := by
  intro ts h
  fun_induction baseSegments path span ts with
  | case1 path span dot t ts hd ht ih =>
    obtain ⟨hs, happend⟩ := ih ((h.of_cons (by simp [hd])).of_cons (by simp [ht]))
    refine ⟨hs, fun more => ?_⟩
    rw [List.cons_append, List.cons_append, baseSegments, if_pos hd, if_pos ht, happend]
  | case2 path span dot t ts hd ht =>
    refine ⟨h.of_cons (by simp [hd]), fun more => ?_⟩
    rw [List.cons_append, List.cons_append, baseSegments, if_pos hd, if_neg ht]
    rfl
  | case3 path span dot t ts hd =>
    refine ⟨h, fun more => ?_⟩
    rw [List.cons_append, List.cons_append, baseSegments, if_neg hd]
    rfl
  | case4 path span dot hd => exact absurd (h.of_cons (by simp [hd])) not_holdsLine_nil
  | case5 path span dot hd =>
    refine ⟨h, fun more => ?_⟩
    cases more <;> simp [baseSegments, hd, Reading.before]
  | case6 => exact absurd h not_holdsLine_nil

theorem finishBase_endsWithLine (toBase : String → Base) (first : Token) :
    EndsWithLine (finishBase toBase first) := by
  intro ts h more
  obtain ⟨hs, happend⟩ := baseSegments_staysInLine first.text first.span h
  simp only [finishBase, happend, Reading.before, finish_endsWithLine hs]

theorem readBase_endsWithLine (hasBase : Bool) (keyword : Token) :
    EndsWithLine (readBase hasBase keyword) := by
  intro ts h more
  simp only [readBase, skipLine_append h, h.faultHere_append]
  split_ifs
  · rfl
  · cases h with
    | here hk _ => simp [hk, Reading.before]
    | behind hk h =>
      simp only [List.cons_append, finishBase_endsWithLine _ _ h]
      split_ifs <;> rfl

theorem readIcon_staysInLine : StaysInLine readIcon := by
  intro ts h
  simp only [readIcon, h.starts_append, h.tail_append]
  by_cases hc : starts .comma ts
  · have ht := h.tail hc (by decide)
    obtain ⟨t, us, htail⟩ := List.exists_cons_of_ne_nil ht.ne_nil
    rw [htail] at ht
    simp only [if_pos hc, htail, List.cons_append]
    split_ifs with hk
    · exact ⟨ht.of_cons (by simp [hk]), fun more => rfl⟩
    · exact ⟨ht, fun more => rfl⟩
  · simp only [if_neg hc]
    exact ⟨h, fun more => rfl⟩

theorem readHeaderEnd_endsWithLine (hasBase : Bool) : EndsWithLine (readHeaderEnd hasBase) := by
  intro ts h more
  have hfinish := finish_endsWithLine h more
  obtain ⟨t, us, rfl⟩ := List.exists_cons_of_ne_nil h.ne_nil
  simp only [List.cons_append] at hfinish
  simp only [List.cons_append, readHeaderEnd, hfinish]
  split_ifs with hk
  · exact readBase_endsWithLine hasBase t (h.of_cons (by simp [hk])) more
  · rfl

theorem readHeader_endsWithLine (hasName hasBase : Bool) (keyword : Token) :
    EndsWithLine (readHeader hasName hasBase keyword) := by
  intro ts h more
  simp only [readHeader, skipLine_append h, h.faultHere_append]
  split_ifs
  · rfl
  · cases h with
    | here hk _ => simp [hk, Reading.before]
    | behind hk h =>
      obtain ⟨hicon, happend⟩ := readIcon_staysInLine h
      simp only [List.cons_append, happend, Reading.before,
        readHeaderEnd_endsWithLine hasBase hicon]
      split_ifs <;> rfl

/-! ### Variables and parameters -/

theorem readVariableType_endsWithLine (v : VariableDecl) :
    EndsWithLine (readVariableType v) := by
  intro ts h more
  simp only [readVariableType, h.starts_append, h.tail_append, skipStatement_append h]
  by_cases hc : starts .colon ts
  · have ht := h.tail hc (by decide)
    obtain ⟨hread, happend⟩ := TypeExpr.read_staysInLine ht
    simp only [if_pos hc, ht.starts_append, ht.tail_append, happend, Reading.before,
      skipStatement_append hread, skipLine_append hread, hread.faultHere_append]
    by_cases he : starts .equals ts.tail
    · have htt := ht.tail he (by decide)
      simp only [if_pos he, Inference.typeOf_append htt, skipStatement_append htt]
    · simp only [if_neg he]
      cases (TypeExpr.read ts.tail).value <;> rfl
  · simp only [if_neg hc]
    by_cases he : starts .colonEquals ts
    · have ht := h.tail he (by decide)
      simp only [if_pos he, Inference.typeOf_append ht, skipStatement_append ht]
      rfl
    · simp only [if_neg he]
      rfl

theorem readVariable_endsWithLine (isStatic : Bool) (keyword : Token) :
    EndsWithLine (readVariable isStatic keyword) := by
  intro ts h more
  simp only [readVariable, h.starts_append, h.tail_append, h.next_append, skipLine_append h,
    h.faultHere_append]
  split_ifs with hi
  · exact readVariableType_endsWithLine _ (h.tail hi (by decide)) more
  · rfl

theorem readDefault_staysInLine (inferred : Bool) (p : Parameter) :
    StaysInLine (readDefault inferred p) := by
  intro ts h
  simp only [readDefault, h.starts_append, h.tail_append]
  by_cases he : starts .equals ts || starts .colonEquals ts
  · have ht : HoldsLine ts.tail := by
      rcases Bool.or_eq_true_iff.1 he with hs | hs <;> exact h.tail hs (by decide)
    simp only [if_pos he, Inference.typeOf_append ht, skipExpression_append ht]
    exact ⟨holdsLine_skipExpression ht, fun more => rfl⟩
  · simp only [if_neg he]
    exact ⟨h, fun more => rfl⟩

theorem readParameterType_staysInLine (p : Parameter) : StaysInLine (readParameterType p) := by
  intro ts h
  simp only [readParameterType, h.starts_append, h.tail_append]
  by_cases hc : starts .colon ts
  · have ht := h.tail hc (by decide)
    simp only [if_pos hc, ht.starts_append]
    by_cases he : starts .equals ts.tail
    · simp only [if_pos he]
      exact readDefault_staysInLine true p ht
    · obtain ⟨hread, happend⟩ := TypeExpr.read_staysInLine ht
      simp only [if_neg he, happend, Reading.before]
      cases (TypeExpr.read ts.tail).value with
      | none =>
        refine ⟨holdsLine_skipExpression hread, fun more => ?_⟩
        simp only [skipExpression_append hread, hread.faultHere_append]
      | some v =>
        obtain ⟨hd, happend⟩ := readDefault_staysInLine false
          { p with typeName := v.1.text, span := p.span.hull v.2 } hread
        exact ⟨hd, fun more => by simp only [happend, Reading.before]⟩
  · simp only [if_neg hc]
    exact readDefault_staysInLine _ p h

theorem readParameter_staysInLine : StaysInLine readParameter := by
  intro ts h
  simp only [readParameter, h.starts_append, h.tail_append, h.next_append,
    skipExpression_append h, h.faultHere_append]
  by_cases hi : starts .identifier ts
  · simp only [if_pos hi]
    exact readParameterType_staysInLine _ (h.tail hi (by decide))
  · simp only [if_neg hi]
    exact ⟨holdsLine_skipExpression h, fun more => rfl⟩

theorem readParameters_staysInLine : StaysInLine readParameters := by
  intro ts h
  fun_induction readParameters ts with
  | case1 ts hs =>
    refine ⟨h, fun more => ?_⟩
    rw [readParameters, h.starts_append, h.endsLine_append, if_pos hs]
    rfl
  | case2 ts hs p here hc more ih =>
    obtain ⟨hp, hread⟩ := readParameter_staysInLine h
    obtain ⟨hmore, happend⟩ := ih (hp.tail hc (by decide))
    refine ⟨hmore, fun rest => ?_⟩
    rw [readParameters, h.starts_append, h.endsLine_append, if_neg hs]
    simp only [hread, Reading.before, hp.starts_append, hp.tail_append]
    rw [dif_pos hc, happend]
    rfl
  | case3 ts hs p here hc =>
    obtain ⟨hp, hread⟩ := readParameter_staysInLine h
    refine ⟨hp, fun rest => ?_⟩
    rw [readParameters, h.starts_append, h.endsLine_append, if_neg hs]
    simp only [hread, Reading.before, hp.starts_append]
    rw [dif_neg hc]
    rfl

/-! ### Functions and signals -/

theorem readReturnType_staysInLine : StaysInLine readReturnType := by
  intro ts h
  simp only [readReturnType, h.starts_append, h.tail_append]
  by_cases ha : starts .arrow ts
  · obtain ⟨hread, happend⟩ := TypeExpr.read_staysInLine (h.tail ha (by decide))
    simp only [if_pos ha, happend, Reading.before, hread.faultHere_append]
    cases (TypeExpr.read ts.tail).value <;> exact ⟨hread, fun more => rfl⟩
  · simp only [if_neg ha]
    exact ⟨h, fun more => rfl⟩

theorem noFunction_append (h : HoldsLine ts) (faults : List LocatedFault) (more : List Token) :
    noFunction (ts ++ more) faults = (noFunction ts faults).before more := by
  rw [noFunction, skipLine_append h]
  rfl

theorem readSignatureEnd_endsWithLine (f : FunctionDecl) :
    EndsWithLine (readSignatureEnd f) := by
  intro ts h more
  simp only [readSignatureEnd, h.starts_append, h.tail_append, h.next_append,
    h.faultHere_append, noFunction_append h]
  by_cases hc : starts (.closing .paren) ts
  · obtain ⟨hread, happend⟩ := readReturnType_staysInLine (h.tail hc (by decide))
    simp only [if_pos hc, happend, Reading.before, hread.starts_append, hread.faultHere_append,
      skipLine_append hread, noFunction_append hread]
    cases (readReturnType ts.tail).value with
    | none => rfl
    | some v =>
      dsimp only
      split_ifs <;> rfl
  · simp only [if_neg hc]

theorem readFunction_endsWithLine (isStatic : Bool) (keyword : Token) :
    EndsWithLine (readFunction isStatic keyword) := by
  intro ts h more
  simp only [readFunction, h.starts_append, h.tail_append, h.next_append, h.faultHere_append,
    noFunction_append h]
  by_cases hi : starts .identifier ts
  · have ht := h.tail hi (by decide)
    simp only [if_pos hi, ht.starts_append, ht.tail_append, ht.faultHere_append,
      noFunction_append ht]
    by_cases hp : starts (.opening .paren) ts.tail
    · obtain ⟨hread, happend⟩ := readParameters_staysInLine (ht.tail hp (by decide))
      simp only [if_pos hp, happend, Reading.before, readSignatureEnd_endsWithLine _ hread]
    · simp only [if_neg hp]
  · simp only [if_neg hi]

theorem readSignal_endsWithLine (keyword : Token) : EndsWithLine (readSignal keyword) := by
  intro ts h more
  simp only [readSignal, h.starts_append, h.tail_append, h.next_append, h.faultHere_append,
    skipLine_append h]
  by_cases hi : starts .identifier ts
  · have ht := h.tail hi (by decide)
    simp only [if_pos hi, ht.starts_append, ht.tail_append, finish_endsWithLine ht]
    by_cases hp : starts (.opening .paren) ts.tail
    · obtain ⟨hread, happend⟩ := readParameters_staysInLine (ht.tail hp (by decide))
      simp only [if_pos hp, happend, Reading.before, hread.starts_append, hread.tail_append,
        hread.next_append, hread.faultHere_append, skipLine_append hread]
      by_cases hc : starts (.closing .paren) (readParameters ts.tail.tail).rest
      · simp only [if_pos hc, finish_endsWithLine (hread.tail hc (by decide)), Reading.before]
      · simp only [if_neg hc]
    · simp only [if_neg hp]
      rfl
  · simp only [if_neg hi]
    rfl

/-! ### Statements -/

theorem map_before {α β : Type} (f : α → β) (r : Reading α) (more : List Token) :
    map f (r.before more) = (map f r).before more := rfl

theorem readStatic_endsWithLine (keyword : Token) : EndsWithLine (readStatic keyword) := by
  intro ts h more
  have hskip := skipLine_append h more
  cases h with
  | here hk _ => simp [readStatic, hk, skipLine, Reading.before]
  | @behind t ts hk h =>
    simp only [List.cons_append] at hskip
    simp only [List.cons_append, readStatic, readVariable_endsWithLine _ _ h,
      readFunction_endsWithLine _ _ h, map_before, hskip]
    split_ifs <;> rfl

/-- A statement ends with its line, and is read alike whatever stands behind the line. -/
theorem read_append {t : Token} (h : HoldsLine (t :: ts)) (hasName hasBase : Bool)
    (more : List Token) :
    read hasName hasBase t (ts ++ more) = (read hasName hasBase t ts).before more := by
  by_cases hk : t.kind = .newline
  · rw [read_newline hk, read_newline hk]
    rfl
  · have hts := h.of_cons hk
    simp only [read, (readTag_staysInLine t hts).2, readHeader_endsWithLine _ _ _ hts,
      readBase_endsWithLine _ _ hts, readVariable_endsWithLine _ _ hts,
      readFunction_endsWithLine _ _ hts, readSignal_endsWithLine _ hts,
      readStatic_endsWithLine _ hts, readWord_endsWithLine _ hts, skipLine_append hts,
      skipStatement_append hts, map_before]
    cases t.kind with
    | newline | indent | tag | identifier => rfl
    | keyword k =>
      cases k with
      | trueLiteral | falseLiteral | nullLiteral => split_ifs <;> rfl
      | _ => rfl
    | _ => split_ifs <;> rfl

end Statement

end ScriptBridge
