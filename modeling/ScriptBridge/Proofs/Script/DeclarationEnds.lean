import ScriptBridge.Proofs.Script.StatementEnds

/-! The end of a declaration. A semicolon behind a declaration means what a line end means: what is
read without a fault up to the end of a line is read alike up to a semicolon, part by part.
Proved: a declaration with as many closing brackets as opening ones, in which nothing is at fault
up to the end of its line, may end at a semicolon, and the script behind it is read alike. -/

namespace ScriptBridge

open Tokens

variable {ts : List Token} {t line : Token} {after : List Token}

namespace Statement

/-! ### The head of the class -/

section Line

variable (hline : line.IsLineEnd)

include hline

theorem baseSegments_reads (path : String) (span : Span)
    (h : (baseSegments path span (ts ++ line :: after)).faults = []) :
    ∃ v back, Reads (baseSegments path span) ts v back := by
  fun_induction baseSegments path span ts with
  | case1 path span dot t ts hd ht ih =>
    have heq (more : List Token) : baseSegments path span (dot :: t :: ts ++ more) =
        baseSegments (path ++ "." ++ t.text) (span.hull t.span) (ts ++ more) := by
      rw [List.cons_append, List.cons_append, baseSegments, if_pos hd, if_pos ht]
    rw [heq] at h
    obtain ⟨v, back, hv⟩ := ih h
    exact ⟨v, back, hv.of_eq heq⟩
  | case2 path span dot t ts hd ht =>
    rw [List.cons_append, List.cons_append, baseSegments, if_pos hd, if_neg ht] at h
    cases h
  | case3 path span dot t ts hd =>
    refine ⟨(path, span), dot :: t :: ts, fun stop more _ => ?_⟩
    rw [List.cons_append, List.cons_append, baseSegments, if_neg hd]
  | case4 path span dot hd =>
    have hname : line.kind ≠ .identifier := by simp [hline.1]
    rw [List.singleton_append, baseSegments, if_pos hd, if_neg hname] at h
    cases h
  | case5 path span dot hd =>
    refine ⟨(path, span), [dot], fun stop more _ => ?_⟩
    rw [List.singleton_append, baseSegments, if_neg hd]
  | case6 path span =>
    refine ⟨(path, span), [], fun stop more hs => ?_⟩
    have hdot : stop.kind ≠ .dot := hs.kind_ne (by decide)
    cases more <;> simp [baseSegments, hdot]

theorem finishBase_ends (hts : InStatement ts) (toBase : String → Base) (first : Token)
    (h : (finishBase toBase first (ts ++ line :: after)).faults = []) :
    ∃ v, Ends (finishBase toBase first) ts v := by
  obtain ⟨hsegments, hfinish⟩ := List.append_eq_nil_iff.1 h
  obtain ⟨v, back, hv⟩ := baseSegments_reads hline first.text first.span hsegments
  have hback : InStatement back := hts.of_suffix (hv.suffix (baseSegments_leaves _ _))
  rw [hv line after (.inr hline)] at hfinish
  obtain rfl : back = [] := eq_nil_of_finish hback hfinish
  refine ⟨some (toBase v.1, v.2), fun stop more hs => ?_⟩
  have hend := finish_ends stop more hs
  simp only [finishBase, hv stop more hs, hend, List.append_nil]

theorem readBase_ends (hts : InStatement ts) (hasBase : Bool) (keyword : Token)
    (h : (readBase hasBase keyword (ts ++ line :: after)).faults = []) :
    ∃ v, Ends (readBase hasBase keyword) ts v := by
  cases hasBase with
  | true => cases h
  | false =>
    cases ts with
    | nil => simp [readBase, hline.1] at h
    | cons t ts =>
      have heq (more : List Token) : readBase false keyword (t :: ts ++ more) =
          if t.kind = .text then finishBase .script t (ts ++ more)
          else if t.kind = .identifier then finishBase Base.ofName t (ts ++ more)
          else
            { value := none, rest := skipLine (t :: ts ++ more)
              faults := [faultHere .missingBase (t :: ts ++ more)] } := rfl
      rw [heq] at h
      split_ifs at h with htext hname
      · obtain ⟨v, hv⟩ := finishBase_ends hline hts.of_cons .script t h
        exact ⟨v, hv.of_eq fun more => (heq more).trans (if_pos htext)⟩
      · obtain ⟨v, hv⟩ := finishBase_ends hline hts.of_cons Base.ofName t h
        exact ⟨v, hv.of_eq fun more => (heq more).trans ((if_neg htext).trans (if_pos hname))⟩

theorem readIcon_reads (h : (readIcon (ts ++ line :: after)).faults = []) :
    ∃ v back, Reads readIcon ts v back := by
  by_cases hc : starts .comma ts
  · obtain ⟨c, us, rfl, -⟩ := exists_cons_of_starts hc (by decide)
    have hcomma (more : List Token) : starts .comma (c :: us ++ more) := hc
    rw [readIcon, if_pos (hcomma _)] at h
    cases us with
    | nil => simp [hline.1] at h
    | cons t us =>
      by_cases htext : t.kind = .text
      · refine ⟨some ⟨"icon", [t.text], t.span⟩, us, fun stop more _ => ?_⟩
        rw [readIcon, if_pos (hcomma _)]
        exact if_pos htext
      · simp [htext] at h
  · refine ⟨none, ts, fun stop more hs => ?_⟩
    rw [readIcon, starts_append_stop hs (by decide), if_neg hc]

theorem readHeaderEnd_ends (hts : InStatement ts) (hasBase : Bool)
    (h : (readHeaderEnd hasBase (ts ++ line :: after)).faults = []) :
    ∃ v, Ends (readHeaderEnd hasBase) ts v := by
  cases ts with
  | nil =>
    refine ⟨none, fun stop more hs => ?_⟩
    have hextends : stop.kind ≠ .keyword .extending := hs.kind_ne (by decide)
    have hend := finish_ends stop more hs
    rw [List.nil_append] at hend ⊢
    rw [readHeaderEnd, if_neg hextends, hend]
  | cons t ts =>
    by_cases hextends : t.kind = .keyword .extending
    · have heq (more : List Token) : readHeaderEnd hasBase (t :: ts ++ more) =
          readBase hasBase t (ts ++ more) := if_pos hextends
      rw [heq] at h
      obtain ⟨v, hv⟩ := readBase_ends hline hts.of_cons hasBase t h
      exact ⟨v, hv.of_eq heq⟩
    · rw [List.cons_append, readHeaderEnd, if_neg hextends] at h
      exact absurd (eq_nil_of_finish hts h) (List.cons_ne_nil t ts)

theorem readHeader_ends (hts : InStatement ts) (hasName hasBase : Bool) (keyword : Token)
    (h : (readHeader hasName hasBase keyword (ts ++ line :: after)).faults = []) :
    ∃ v, Ends (readHeader hasName hasBase keyword) ts v := by
  cases hasName with
  | true => cases h
  | false =>
    cases ts with
    | nil => simp [readHeader, hline.1] at h
    | cons t ts =>
      by_cases hname : t.kind = .identifier
      · have heq (more : List Token) : readHeader false hasBase keyword (t :: ts ++ more) =
            { value := .header t.text (keyword.span.hull t.span) (readIcon (ts ++ more)).value
                (readHeaderEnd hasBase (readIcon (ts ++ more)).rest).value
              rest := (readHeaderEnd hasBase (readIcon (ts ++ more)).rest).rest
              faults := (readIcon (ts ++ more)).faults ++
                (readHeaderEnd hasBase (readIcon (ts ++ more)).rest).faults } := if_pos hname
        rw [heq] at h
        obtain ⟨hicon, hend⟩ := List.append_eq_nil_iff.1 h
        obtain ⟨icon, back, hv⟩ := readIcon_reads hline hicon
        have hback : InStatement back := hts.of_cons.of_suffix (hv.suffix readIcon_leaves)
        rw [hv line after (.inr hline)] at hend
        obtain ⟨base, hbase⟩ := readHeaderEnd_ends hline hback hasBase hend
        refine ⟨.header t.text (keyword.span.hull t.span) icon base, fun stop more hs => ?_⟩
        rw [heq, hv stop more hs, hbase stop more hs]
        rfl
      · simp [readHeader, hname] at h

/-! ### Variables -/

theorem readVariableType_ends (hts : InStatement ts) (hl : Level ts) (v : VariableDecl)
    (h : (readVariableType v (ts ++ line :: after)).faults = []) :
    ∃ w, Ends (readVariableType v) ts w := by
  by_cases hc : starts .colon ts
  · obtain ⟨c, us, rfl, hk⟩ := exists_cons_of_starts hc (by decide)
    have hus := hts.of_cons
    have hlevel : Level us := hl.of_cons (by simp [nesting, hk])
    by_cases he : starts .equals us
    · obtain ⟨e, ws, rfl, hke⟩ := exists_cons_of_starts he (by decide)
      have hws : Level ws := hlevel.of_cons (by simp [nesting, hke])
      refine ⟨{ v with
        isInferred := true, typeName := Inference.typeOf (ws ++ [{ kind := .newline }]) },
        fun stop more hs => ?_⟩
      simp only [List.cons_append, readVariableType, starts, next, List.headD_cons, hk, hke,
        beq_self_eq_true, if_true, List.tail_cons, Inference.typeOf_append_stop hs,
        skipStatement_stop hus.of_cons hws hs]
    · have hcolon (more : List Token) : starts .colon (c :: us ++ more) := hc
      have hequals {stop : Token} (hs : stop.EndsStatement) (more : List Token) :
          ¬ starts .equals (c :: us ++ stop :: more).tail := by
        rwa [List.cons_append, List.tail_cons, starts_append_stop hs (by decide)]
      have hsome : (TypeExpr.read (us ++ line :: after)).value.isSome := by
        rw [readVariableType, if_pos (hcolon _), if_neg (hequals (.inr hline) after),
          List.cons_append, List.tail_cons] at h
        cases htype : (TypeExpr.read (us ++ line :: after)).value with
        | some => rfl
        | none => simp [htype] at h
      obtain ⟨⟨type, span⟩, back, hv, hback, hflat⟩ := TypeExpr.exists_reads hline hsome
      refine ⟨{ v with typeName := type.text, span := v.span.hull span }, fun stop more hs => ?_⟩
      rw [readVariableType, if_pos (hcolon _), if_neg (hequals hs more), List.cons_append,
        List.tail_cons, hv stop more hs]
      simp only [skipStatement_stop (hus.of_suffix hback) (hflat hlevel) hs]
  · by_cases he : starts .colonEquals ts
    · obtain ⟨c, us, rfl, hk⟩ := exists_cons_of_starts he (by decide)
      have hlevel : Level us := hl.of_cons (by simp [nesting, hk])
      refine ⟨{ v with
        isInferred := true, typeName := Inference.typeOf (us ++ [{ kind := .newline }]) },
        fun stop more hs => ?_⟩
      simp only [List.cons_append, readVariableType, starts, next, List.headD_cons, hk,
        beq_self_eq_true, if_true, List.tail_cons, Inference.typeOf_append_stop hs,
        skipStatement_stop hts.of_cons hlevel hs]
      rfl
    · refine ⟨v, fun stop more hs => ?_⟩
      rw [readVariableType, starts_append_stop hs (by decide), if_neg hc,
        starts_append_stop hs (by decide), if_neg he, skipStatement_stop hts hl hs]

theorem readVariable_ends (hts : InStatement ts) (hl : Level ts) (isStatic : Bool)
    (keyword : Token) (h : (readVariable isStatic keyword (ts ++ line :: after)).faults = []) :
    ∃ v, Ends (readVariable isStatic keyword) ts v := by
  by_cases hn : starts .identifier ts
  · obtain ⟨t, us, rfl, hk⟩ := exists_cons_of_starts hn (by decide)
    have heq (more : List Token) : readVariable isStatic keyword (t :: us ++ more) =
        readVariableType { name := t.text, isStatic, span := keyword.span.hull t.span }
          (us ++ more) := if_pos hn
    rw [heq] at h
    obtain ⟨v, hv⟩ := readVariableType_ends hline hts.of_cons
      (hl.of_cons (by simp [nesting, hk])) _ h
    exact ⟨v, hv.of_eq heq⟩
  · rw [readVariable, starts_append_stop (.inr hline) (by decide), if_neg hn] at h
    cases h

/-! ### Parameters and signals -/

theorem readDefault_reads (inferred : Bool) (p : Parameter)
    (h : endsLine (readDefault inferred p (ts ++ line :: after)).rest = false) :
    ∃ v back, Reads (readDefault inferred p) ts v back := by
  by_cases he : starts .equals ts || starts .colonEquals ts
  · obtain ⟨e, us, rfl⟩ : ∃ e us, ts = e :: us := by
      rcases Bool.or_eq_true_iff.1 he with he | he
      all_goals
        obtain ⟨e, us, hus, -⟩ := exists_cons_of_starts he (by decide)
        exact ⟨e, us, hus⟩
    have heq (more : List Token) : readDefault inferred p (e :: us ++ more) =
        { value :=
            { p with
              hasDefault := true
              typeName := if inferred then Inference.typeOf (us ++ more) else p.typeName }
          rest := skipExpression (us ++ more) } := if_pos he
    rw [heq] at h
    obtain ⟨back, hback⟩ := exists_skipExpression hline.1 h
    refine ⟨{ p with
      hasDefault := true
      typeName := if inferred then Inference.typeOf (us ++ [{ kind := .newline }]) else p.typeName },
      back, fun stop more hs => ?_⟩
    rw [heq, hback, Inference.typeOf_append_stop hs]
  · refine ⟨p, ts, fun stop more hs => ?_⟩
    rw [readDefault, starts_append_stop hs (by decide), starts_append_stop hs (by decide), if_neg he]

theorem readParameterType_reads (p : Parameter)
    (h : (readParameterType p (ts ++ line :: after)).faults = [])
    (hend : endsLine (readParameterType p (ts ++ line :: after)).rest = false) :
    ∃ v back, Reads (readParameterType p) ts v back := by
  by_cases hc : starts .colon ts
  · obtain ⟨c, us, rfl, -⟩ := exists_cons_of_starts hc (by decide)
    have hcolon (more : List Token) : starts .colon (c :: us ++ more) := hc
    have hequals {stop : Token} (hs : stop.EndsStatement) (more : List Token) :
        starts .equals (c :: us ++ stop :: more).tail = starts .equals us := by
      rw [List.cons_append, List.tail_cons, starts_append_stop hs (by decide)]
    by_cases he : starts .equals us
    · have heq {stop : Token} (hs : stop.EndsStatement) (more : List Token) :
          readParameterType p (c :: us ++ stop :: more) =
            readDefault true p (us ++ stop :: more) := by
        rw [readParameterType, if_pos (hcolon _), hequals hs, if_pos he]
        rfl
      rw [heq (.inr hline)] at hend
      obtain ⟨v, back, hv⟩ := readDefault_reads hline true p hend
      exact ⟨v, back, fun stop more hs => (heq hs more).trans (hv stop more hs)⟩
    · have hsome : (TypeExpr.read (us ++ line :: after)).value.isSome := by
        rw [readParameterType, if_pos (hcolon _), hequals (.inr hline), if_neg he,
          List.cons_append, List.tail_cons] at h
        cases htype : (TypeExpr.read (us ++ line :: after)).value with
        | some => rfl
        | none => simp [htype] at h
      obtain ⟨⟨type, span⟩, back, hv, -⟩ := TypeExpr.exists_reads hline hsome
      have heq {stop : Token} (hs : stop.EndsStatement) (more : List Token) :
          readParameterType p (c :: us ++ stop :: more) =
            { value := (readDefault false
                { p with typeName := type.text, span := p.span.hull span }
                (back ++ stop :: more)).value
              rest := (readDefault false
                { p with typeName := type.text, span := p.span.hull span }
                (back ++ stop :: more)).rest } := by
        rw [readParameterType, if_pos (hcolon _), hequals hs, if_neg he, List.cons_append,
          List.tail_cons, hv stop more hs]
      rw [heq (.inr hline)] at hend
      obtain ⟨v, rest, hw⟩ := readDefault_reads hline false _ hend
      exact ⟨v, rest, fun stop more hs => by rw [heq hs, hw stop more hs]⟩
  · have heq {stop : Token} (hs : stop.EndsStatement) (more : List Token) :
        readParameterType p (ts ++ stop :: more) =
          readDefault (starts .colonEquals ts) p (ts ++ stop :: more) := by
      rw [readParameterType, starts_append_stop hs (by decide), if_neg hc,
        starts_append_stop hs (by decide)]
    rw [heq (.inr hline)] at hend
    obtain ⟨v, back, hv⟩ := readDefault_reads hline _ p hend
    exact ⟨v, back, fun stop more hs => (heq hs more).trans (hv stop more hs)⟩

theorem readParameter_reads (h : (readParameter (ts ++ line :: after)).faults = [])
    (hend : endsLine (readParameter (ts ++ line :: after)).rest = false) :
    ∃ v back, Reads readParameter ts v back := by
  by_cases hn : starts .identifier ts
  · obtain ⟨t, us, rfl, -⟩ := exists_cons_of_starts hn (by decide)
    have heq (more : List Token) : readParameter (t :: us ++ more) =
        readParameterType { name := t.text, span := t.span } (us ++ more) := if_pos hn
    rw [heq] at h hend
    obtain ⟨v, back, hv⟩ := readParameterType_reads hline _ h hend
    exact ⟨v, back, hv.of_eq heq⟩
  · rw [readParameter, starts_append_stop (.inr hline) (by decide), if_neg hn] at h
    cases h

/-- Parameters are followed by a token of their line. -/
theorem readParameters_reads (h : (readParameters (ts ++ line :: after)).faults = [])
    (hend : endsLine (readParameters (ts ++ line :: after)).rest = false) :
    ∃ v back, Reads readParameters ts v back := by
  induction hn : ts.length using Nat.strongRecOn generalizing ts with
  | ind n ih =>
    cases ts with
    | nil =>
      have hstop : starts (.closing .paren) (line :: after) || endsLine (line :: after) := by
        rw [endsLine_cons hline.1, Bool.or_true]
      rw [List.nil_append, readParameters, if_pos hstop] at hend
      rw [endsLine_cons hline.1] at hend
      cases hend
    | cons t us =>
      -- The reading of parameters looks at one token, which is never the end that was changed.
      by_cases hstop : starts (.closing .paren) (t :: us) || endsLine (t :: us)
      · refine ⟨[], t :: us, fun stop more _ => ?_⟩
        rw [readParameters]
        exact if_pos hstop
      have hgo (more : List Token) :
          ¬ (starts (.closing .paren) (t :: us ++ more) || endsLine (t :: us ++ more)) := hstop
      rw [readParameters, if_neg (hgo _)] at h hend
      by_cases hcomma : starts .comma (readParameter (t :: us ++ line :: after)).rest
      · simp only [dif_pos hcomma] at h hend
        obtain ⟨hp, hmore⟩ := List.append_eq_nil_iff.1 h
        obtain ⟨p, back, hv⟩ := readParameter_reads hline hp
          (endsLine_eq_false_of_starts hcomma (by decide))
        rw [hv line after (.inr hline)] at hmore hend hcomma
        rw [starts_append_stop (.inr hline) (by decide)] at hcomma
        obtain ⟨c, rest, rfl, -⟩ := exists_cons_of_starts hcomma (by decide)
        have hlength := (hv.suffix readParameter_leaves).length_le
        obtain ⟨ps, last, hw⟩ := ih rest.length (hn ▸ hlength) hmore hend rfl
        refine ⟨(if p.name == "" then [] else [p]) ++ ps, last, fun stop more hs => ?_⟩
        have hcomma' : starts .comma (c :: rest ++ stop :: more) := hcomma
        rw [readParameters, if_neg (hgo _)]
        simp only [hv stop more hs]
        rw [dif_pos hcomma', List.cons_append, List.tail_cons, hw stop more hs]
        rfl
      · simp only [dif_neg hcomma] at h hend
        obtain ⟨p, back, hv⟩ := readParameter_reads hline h hend
        rw [hv line after (.inr hline), starts_append_stop (.inr hline) (by decide)] at hcomma
        refine ⟨if p.name == "" then [] else [p], back, fun stop more hs => ?_⟩
        rw [readParameters, if_neg (hgo _)]
        simp only [hv stop more hs]
        rw [dif_neg (by rwa [starts_append_stop hs (by decide)])]

theorem readSignal_ends (hts : InStatement ts) (keyword : Token)
    (h : (readSignal keyword (ts ++ line :: after)).faults = []) :
    ∃ v, Ends (readSignal keyword) ts v := by
  by_cases hn : starts .identifier ts
  · obtain ⟨t, us, rfl, -⟩ := exists_cons_of_starts hn (by decide)
    have hname (more : List Token) : starts .identifier (t :: us ++ more) := hn
    rw [readSignal, if_pos (hname _), List.cons_append, List.tail_cons,
      starts_append_stop (.inr hline) (by decide)] at h
    by_cases hp : starts (.opening .paren) us
    · obtain ⟨paren, ws, rfl, -⟩ := exists_cons_of_starts hp (by decide)
      have hparen (more : List Token) : starts (.opening .paren) (paren :: ws ++ more) := hp
      rw [if_pos hp, List.cons_append, List.tail_cons] at h
      by_cases hc : starts (.closing .paren) (readParameters (ws ++ line :: after)).rest
      · simp only [if_pos hc] at h
        obtain ⟨hparameters, hfinish⟩ := List.append_eq_nil_iff.1 h
        obtain ⟨ps, back, hv⟩ := readParameters_reads hline hparameters
          (endsLine_eq_false_of_starts hc (by decide))
        have hback : InStatement back :=
          hts.of_cons.of_cons.of_suffix (hv.suffix readParameters_leaves)
        rw [hv line after (.inr hline)] at hc hfinish
        rw [starts_append_stop (.inr hline) (by decide)] at hc
        obtain ⟨last, rest, rfl, -⟩ := exists_cons_of_starts hc (by decide)
        obtain rfl : rest = [] := eq_nil_of_finish hback.of_cons hfinish
        refine ⟨{
          name := t.text
          parameters := ps
          span := (keyword.span.hull t.span).hull last.span }, fun stop more hs => ?_⟩
        have hend : finish (stop :: more) = { value := (), rest := more } := finish_ends stop more hs
        have hlast : starts (.closing .paren) (last :: stop :: more) := hc
        rw [readSignal, if_pos (hname _), List.cons_append, List.tail_cons, if_pos (hparen _),
          List.cons_append, List.tail_cons]
        simp only [hv stop more hs, List.singleton_append, if_pos hlast, List.tail_cons, hend]
        rfl
      · simp only [if_neg hc] at h
        exact absurd (List.append_eq_nil_iff.1 h).2 (List.cons_ne_nil _ _)
    · rw [if_neg hp] at h
      obtain rfl : us = [] := eq_nil_of_finish hts.of_cons h
      refine ⟨{ name := t.text, span := keyword.span.hull t.span }, fun stop more hs => ?_⟩
      have hend := finish_ends stop more hs
      have hp' : ¬ starts (.opening .paren) ([] ++ stop :: more) := by
        rwa [starts_append_stop hs (by decide)]
      rw [readSignal, if_pos (hname _), List.cons_append, List.tail_cons, if_neg hp', hend]
      rfl
  · rw [readSignal, starts_append_stop (.inr hline) (by decide), if_neg hn] at h
    cases h

end Line

end Statement

/-! ### Declarations -/

theorem Tokens.Ends.map {α β : Type} {read : List Token → Reading α} {v : α}
    (h : Ends read ts v) (f : α → β) : Ends (fun us => Statement.map f (read us)) ts (f v) :=
  fun stop more hs => by simp only [Statement.map, h stop more hs]

/-- The words that open a declaration. Functions are left out: they end with their line. -/
def declarationWords : List Keyword :=
  [.className, .extending, .var, .const, .enumeration, .signal]

/-- Tokens that open a declaration of a class, a base, a variable, a constant, an enumeration or
a signal. -/
def opensDeclaration : List Token → Bool
  | t :: ts =>
    declarationWords.any (fun k => t.kind == .keyword k) ||
      (t.kind == .keyword .static && starts (.keyword .var) ts)
  | [] => false

/-- The tokens of one declaration, without what ends it. -/
structure OneDeclaration (decl : List Token) : Prop where
  opens : opensDeclaration decl
  inStatement : InStatement decl
  level : Level decl

namespace Statement

theorem readStatic_ends (hline : line.IsLineEnd) (hts : InStatement ts) (hl : Level ts)
    (keyword : Token) (hvar : starts (.keyword .var) ts)
    (h : (readStatic keyword (ts ++ line :: after)).faults = []) :
    ∃ v, Ends (readStatic keyword) ts v := by
  obtain ⟨t, us, rfl, hk⟩ := exists_cons_of_starts hvar (by decide)
  rw [List.cons_append, readStatic_variable hk] at h
  obtain ⟨v, hv⟩ := readVariable_ends hline hts.of_cons (hl.of_cons (by simp [nesting, hk]))
    true t h
  exact ⟨.var v, (hv.map Statement.var).of_eq fun _ => readStatic_variable hk⟩

/-- A declaration that is read without a fault up to the end of its line is read alike, whatever
ends it. -/
theorem read_ends (hline : line.IsLineEnd) (hdecl : OneDeclaration (t :: ts))
    (hasName hasBase : Bool)
    (h : (read hasName hasBase t (ts ++ line :: after)).faults = []) :
    ∃ v, Ends (read hasName hasBase t) ts v := by
  have hts : InStatement ts := hdecl.inStatement.of_cons
  -- A keyword is no bracket, so what stands behind it is level too.
  have hlevel {k : Keyword} (hk : t.kind = .keyword k) : Level ts :=
    hdecl.level.of_cons (by simp [nesting, hk])
  have hopens := hdecl.opens
  simp only [opensDeclaration, declarationWords, List.any_cons, List.any_nil, Bool.or_false,
    Bool.or_eq_true, Bool.and_eq_true, beq_iff_eq] at hopens
  rcases hopens with (hk | hk | hk | hk | hk | hk) | ⟨hk, hvar⟩
  · rw [read_className hk] at h
    obtain ⟨v, hv⟩ := readHeader_ends hline hts hasName hasBase t h
    exact ⟨v, hv.of_eq fun _ => read_className hk⟩
  · rw [read_extending hk] at h
    obtain ⟨v, hv⟩ := readBase_ends hline hts hasBase t h
    exact ⟨_, (hv.map _).of_eq fun _ => read_extending hk⟩
  · rw [read_variable hk] at h
    obtain ⟨v, hv⟩ := readVariable_ends hline hts (hlevel hk) false t h
    exact ⟨_, (hv.map _).of_eq fun _ => read_variable hk⟩
  · refine ⟨.other, fun stop more hs => ?_⟩
    simp only [read, hk, skipStatement_stop hts (hlevel hk) hs]
  · refine ⟨.other, fun stop more hs => ?_⟩
    simp only [read, hk, skipStatement_stop hts (hlevel hk) hs]
  · rw [read_signal hk] at h
    obtain ⟨v, hv⟩ := readSignal_ends hline hts t h
    exact ⟨_, (hv.map _).of_eq fun _ => read_signal hk⟩
  · rw [read_static hk] at h
    obtain ⟨v, hv⟩ := readStatic_ends hline hts (hlevel hk) t hvar h
    exact ⟨v, hv.of_eq fun _ => read_static hk⟩

end Statement

/-- What is read behind a declaration does not depend on what ends it. -/
theorem Draft.exists_read_declaration (hline : line.IsLineEnd) {decl : List Token}
    (hdecl : OneDeclaration decl) (d : Draft) (h : (d.read (decl ++ line :: after)).faults = []) :
    ∃ s, ∀ stop more, stop.EndsStatement →
      d.read (decl ++ stop :: more) =
        { value := ((d.record s).read more).value
          rest := ((d.record s).read more).rest
          faults := ((d.record s).read more).faults } := by
  cases decl with
  | nil => cases hdecl.opens
  | cons t ts =>
    have he : t.kind ≠ .endOfFile := (hdecl.inStatement t List.mem_cons_self).1.2
    rw [List.cons_append, Draft.read, if_neg he] at h
    obtain ⟨s, hs⟩ := Statement.read_ends hline hdecl _ _ (List.append_eq_nil_iff.1 h).1
    refine ⟨s, fun stop more hstop => ?_⟩
    rw [List.cons_append, Draft.read, if_neg he]
    simp only [hs stop more hstop, List.nil_append]

namespace ScriptClass

/-- Behind a declaration that is read without a fault up to the end of its line, a semicolon and a
line end mean the same, whatever follows. -/
theorem ofTokens_semicolon (path : String) {lines decl after : List Token}
    {line line' semicolon : Token} (hlines : WholeLines lines) (hdecl : OneDeclaration decl)
    (hline : line.IsLineEnd) (hline' : line'.IsLineEnd) (hsemicolon : semicolon.isSemicolon)
    (hfaultless : (ofTokens path (lines ++ (decl ++ line :: after))).2 = [])
    (more : List Token) :
    ofTokens path (lines ++ (decl ++ semicolon :: more)) =
      ofTokens path (lines ++ (decl ++ line' :: more)) := by
  simp only [ofTokens, Draft.read_append hlines] at hfaultless ⊢
  obtain ⟨s, hs⟩ := Draft.exists_read_declaration hline hdecl _
    (List.append_eq_nil_iff.1 hfaultless).2
  rw [hs semicolon more (.inl hsemicolon), hs line' more (.inr hline')]

/-- A signal whose parameters have a type in brackets, a value in brackets and a value whose type
is inferred. -/
theorem ofTokens_semicolon_signal :
    let word (text : String) : Token := { kind := .identifier, text }
    let lines : List Token :=
      [{ kind := .keyword .className, text := "class_name" }, word "A", { kind := .newline }]
    let decl : List Token :=
      [{ kind := .keyword .signal, text := "signal" }, word "s",
        { kind := .opening .paren, text := "(" }, word "a", { kind := .colon, text := ":" },
        word "Array", { kind := .opening .square, text := "[" }, word "int",
        { kind := .closing .square, text := "]" }, { kind := .equals, text := "=" },
        { kind := .opening .square, text := "[" }, { kind := .integer, text := "1" },
        { kind := .closing .square, text := "]" }, { kind := .comma, text := "," }, word "b",
        { kind := .colonEquals, text := ":=" }, { kind := .operator, text := "-" },
        { kind := .integer, text := "1" }, { kind := .closing .paren, text := ")" }]
    let line : Token := { kind := .newline }
    let semicolon : Token := { kind := .operator, text := ";" }
    let more : List Token :=
      [{ kind := .keyword .var, text := "var" }, word "x", line, Token.endOfFile]
    WholeLines lines ∧ OneDeclaration decl ∧ line.IsLineEnd ∧ semicolon.isSemicolon ∧
      (ofTokens "" (lines ++ (decl ++ [line, Token.endOfFile]))).2 = [] ∧
      ofTokens "" (lines ++ (decl ++ semicolon :: more)) =
        ofTokens "" (lines ++ (decl ++ line :: more)) := by
  intro word lines decl line semicolon more
  have hlines : WholeLines lines := ⟨by decide, by decide, by decide⟩
  have hdecl : OneDeclaration decl := ⟨by decide, by decide, by decide⟩
  have hline : line.IsLineEnd := ⟨rfl, rfl⟩
  have hfaultless : (ofTokens "" (lines ++ (decl ++ [line, Token.endOfFile]))).2 = [] := by cbv
  exact ⟨hlines, hdecl, hline, rfl, hfaultless,
    ofTokens_semicolon "" hlines hdecl hline hline rfl hfaultless more⟩

end ScriptClass

end ScriptBridge
