import ScriptBridge.Proofs.Script.WrittenTokens

/-! Reading the parts of a written script. Proved: each name, type, parameter and
declaration is read off its tokens, without a fault, and leaves what stands behind it. -/

namespace ScriptBridge

open Tokens

@[simp] theorem next_cons (t : Token) (ts : List Token) : next (t :: ts) = t := rfl

@[simp] theorem starts_cons (kind : TokenKind) (t : Token) (ts : List Token) :
    starts kind (t :: ts) = (t.kind == kind) := rfl

theorem Identifier.text_ne_empty (i : Identifier) : (i.text == "") = false := by
  obtain ⟨c, cs, hs, -⟩ := i.isWord
  rw [beq_eq_false_iff_ne]
  intro he
  rw [he] at hs
  exact absurd hs (by simp)

/-! ### Names -/

namespace DottedName

theorem foldl_more (more : List Identifier) (path : String) :
    more.foldl (fun p i => p ++ "." ++ i.text) path =
      ".".intercalate (path :: more.map Identifier.text) := by
  induction more generalizing path with
  | nil => simp
  | cons i more ih =>
    rw [List.foldl_cons, ih, String.intercalate_cons_append, List.map_cons,
      String.intercalate_cons_cons]

/-- The segments of a name are read up to a token that is no dot. -/
theorem segments_moreTokens (more : List Identifier) (path : String) {rest : List Token}
    (hr : starts .dot rest = false) :
    TypeExpr.segments path {} (moreTokens more ++ rest) =
      ((".".intercalate (path :: more.map Identifier.text), {}), rest) := by
  rw [← foldl_more]
  induction more generalizing path with
  | nil =>
    cases rest with
    | nil => rfl
    | cons t rest =>
      cases rest with
      | nil => rfl
      | cons u rest =>
        have ht : t.kind ≠ .dot := by simpa using hr
        simp [moreTokens, TypeExpr.segments, ht]
  | cons i more ih =>
    exact ih (path ++ "." ++ i.text)

theorem baseSegments_moreTokens (more : List Identifier) (path : String) {rest : List Token}
    (hr : starts .dot rest = false) :
    Statement.baseSegments path {} (moreTokens more ++ rest) =
      { value := (".".intercalate (path :: more.map Identifier.text), {}), rest } := by
  rw [← foldl_more]
  induction more generalizing path with
  | nil =>
    cases rest with
    | nil => rfl
    | cons t rest =>
      have ht : t.kind ≠ .dot := by simpa using hr
      cases rest with
      | nil => simp [moreTokens, Statement.baseSegments, ht]
      | cons u rest => simp [moreTokens, Statement.baseSegments, ht]
  | cons i more ih =>
    exact ih (path ++ "." ++ i.text)

end DottedName

/-! ### Types -/

namespace WrittenType

open TypeExpr

def toExpr : WrittenType → TypeExpr
  | name n => .name n.text
  | applied n arguments => .applied n.text (arguments.map toExpr)

theorem text_toExpr (t : WrittenType) : t.toExpr.text = t.text := by
  induction t using induction with
  | name n => rw [toExpr, text, TypeExpr.text]
  | applied n arguments ih =>
    have ha : (arguments.map toExpr).map TypeExpr.text = arguments.map text := by
      rw [List.map_map]
      exact List.map_congr_left ih
    rw [toExpr, text, TypeExpr.text, ha]

/-- Tokens before which a type ends. -/
def Ends (ts : List Token) : Prop := starts .dot ts = false ∧ starts (.opening .square) ts = false

/-- A type starts with an identifier. -/
theorem exists_tokens_eq (t : WrittenType) :
    ∃ (i : Identifier) (ts : List Token), t.tokens = i.token :: ts := by
  cases t with
  | name n => exact ⟨n.first, _, by rw [tokens, DottedName.tokens]⟩
  | applied n arguments =>
    exact ⟨n.first, _, by rw [tokens, DottedName.tokens, List.cons_append]⟩

/-- The type is read off its tokens. -/
def ReadsBack (t : WrittenType) : Prop :=
  ∀ rest, Ends rest → read (t.tokens ++ rest) = { value := some (t.toExpr, {}), rest }

theorem moreArguments_close (rest : List Token) :
    moreArguments (signToken (.closing .square) "]" :: rest) =
      { value := some ([], {}), rest } := by
  rw [moreArguments_eq]
  rfl

theorem moreArguments_comma (ts : List Token) :
    moreArguments (signToken .comma "," :: ts) = consArgument ts := by
  rw [moreArguments_eq]
  rfl

theorem consArgument_tokens (t : WrittenType) (more : List WrittenType) (rest : List Token)
    (h : ∀ a ∈ t :: more, a.ReadsBack) :
    consArgument ([signToken .comma ","].intercalate ((t :: more).map tokens) ++
        signToken (.closing .square) "]" :: rest) =
      { value := some ((t :: more).map toExpr, {}), rest } := by
  have ht : t.ReadsBack := h t List.mem_cons_self
  induction more generalizing t with
  | nil =>
    have hr := ht (signToken (.closing .square) "]" :: rest) ⟨rfl, rfl⟩
    rw [List.map_singleton, List.intercalate_singleton, consArgument, hr]
    simp only [moreArguments_close]
    rfl
  | cons u more ih =>
    have hu : ∀ a ∈ u :: more, a.ReadsBack := fun a ha => h a (List.mem_cons_of_mem t ha)
    have hm := ih u hu (hu u List.mem_cons_self)
    rw [List.map_cons] at hm
    have hr := ht (signToken .comma "," :: ([signToken .comma ","].intercalate
      (u.tokens :: more.map tokens) ++ signToken (.closing .square) "]" :: rest)) ⟨rfl, rfl⟩
    rw [List.map_cons, List.map_cons, List.intercalate_cons_cons, List.append_assoc,
      List.append_assoc, List.singleton_append, consArgument, hr]
    simp only [moreArguments_comma, hm]
    rfl

theorem argumentList_tokens (ts : List WrittenType) (rest : List Token)
    (h : ∀ a ∈ ts, a.ReadsBack) :
    argumentList ([signToken .comma ","].intercalate (ts.map tokens) ++
        signToken (.closing .square) "]" :: rest) =
      { value := some (ts.map toExpr, {}), rest } := by
  rw [argumentList_eq]
  cases ts with
  | nil => rfl
  | cons t more =>
    obtain ⟨i, us, ht⟩ := t.exists_tokens_eq
    have he : endsArguments ([signToken .comma ","].intercalate ((t :: more).map tokens) ++
        signToken (.closing .square) "]" :: rest) = false := by
      rw [List.map_cons, ht, List.intercalate_cons_cons_left]
      rfl
    rw [he, consArgument_tokens t more rest h]
    rfl

theorem readsBack (t : WrittenType) : t.ReadsBack := by
  intro rest hr
  induction t using induction generalizing rest with
  | name n =>
    rw [tokens, toExpr, DottedName.tokens, List.cons_append, read_cons]
    simp only [Identifier.token, if_true, DottedName.segments_moreTokens n.more _ hr.1, hr.2]
    rfl
  | applied n arguments ih =>
    have ha := argumentList_tokens arguments rest fun a ha us hus => ih a ha us hus
    rw [tokens, toExpr, DottedName.tokens, List.cons_append, List.cons_append, List.append_assoc,
      List.cons_append, List.append_assoc, List.singleton_append, read_cons]
    simp only [Identifier.token, if_true, DottedName.segments_moreTokens n.more n.first.text
      (starts_cons .dot (signToken (.opening .square) "[") _), List.tail_cons, ha]
    simp [signToken, DottedName.text]

end WrittenType

/-! ### Parameters -/

namespace WrittenParameter

open Statement

/-- Tokens before which a parameter ends. -/
def Ends (ts : List Token) : Prop := starts .comma ts ∨ starts (.closing .paren) ts

theorem Ends.next_kind {ts : List Token} (h : Ends ts) :
    (next ts).kind = .comma ∨ (next ts).kind = .closing .paren := by
  simpa only [Ends, starts, beq_iff_eq] using h

theorem Ends.starts_eq_false {ts : List Token} (h : Ends ts) {kind : TokenKind}
    (hc : kind ≠ .comma) (hp : kind ≠ .closing .paren) : starts kind ts = false := by
  rw [starts, beq_eq_false_iff_ne]
  intro hk
  rcases h.next_kind with h | h
  · exact hc (hk.symm.trans h)
  · exact hp (hk.symm.trans h)

theorem skipExpression_of_ends {ts : List Token} (h : Ends ts) : skipExpression ts = ts := by
  cases ts with
  | nil => rfl
  | cons t ts =>
    have hk : t.kind = .comma ∨ t.kind = .closing .paren := h.next_kind
    rw [skipExpression, skipTo, if_pos]
    rcases hk with hk | hk <;> simp [hk]

/-- Behind the type of a parameter stands its default or its end. -/
theorem Ends.starts_defaultTokens {rest : List Token} (hr : Ends rest) (hasDefault : Bool)
    {kind : TokenKind} (he : kind ≠ .equals) (hc : kind ≠ .comma) (hp : kind ≠ .closing .paren) :
    starts kind (defaultTokens hasDefault ++ rest) = false := by
  cases hasDefault with
  | true => exact beq_eq_false_iff_ne.2 he.symm
  | false => exact hr.starts_eq_false hc hp

/-- A default is skipped; without one the parameter stays as it is. -/
theorem readDefault_tokens (p : Parameter) (hasDefault : Bool) {rest : List Token} (hr : Ends rest)
    (hp : p.hasDefault = false) :
    readDefault false p (defaultTokens hasDefault ++ rest) =
      { value := { p with hasDefault }, rest } := by
  cases hasDefault with
  | true =>
    have hs : skipExpression (Keyword.nullLiteral.token :: rest) = rest :=
      skipExpression_of_ends hr
    exact congrArg (Reading.mk _ · []) hs
  | false =>
    have he : starts .equals rest = false := hr.starts_eq_false (by decide) (by decide)
    have hc : starts .colonEquals rest = false := hr.starts_eq_false (by decide) (by decide)
    have hv : { p with hasDefault := false } = p := by rw [← hp]
    rw [hv, defaultTokens, if_neg Bool.false_ne_true, List.nil_append, readDefault, he, hc]
    rfl

theorem readParameterType_tokens (name : String) (type : Option WrittenType) (hasDefault : Bool)
    {rest : List Token} (hr : Ends rest) :
    readParameterType { name } (WrittenType.tokensAfter (signToken .colon ":") type ++
        (defaultTokens hasDefault ++ rest)) =
      { value := { name, typeName := type.elim "" WrittenType.text, hasDefault }, rest } := by
  cases type with
  | none =>
    have hcolon : starts .colon (defaultTokens hasDefault ++ rest) = false :=
      hr.starts_defaultTokens hasDefault (by decide) (by decide) (by decide)
    have hequals : starts .colonEquals (defaultTokens hasDefault ++ rest) = false :=
      hr.starts_defaultTokens hasDefault (by decide) (by decide) (by decide)
    have hd := readDefault_tokens { name } hasDefault hr rfl
    rw [WrittenType.tokensAfter, Option.elim_none, List.nil_append, readParameterType, hcolon,
      hequals]
    exact hd
  | some t =>
    have hends : WrittenType.Ends (defaultTokens hasDefault ++ rest) :=
      ⟨hr.starts_defaultTokens hasDefault (by decide) (by decide) (by decide),
        hr.starts_defaultTokens hasDefault (by decide) (by decide) (by decide)⟩
    have hread := t.readsBack _ hends
    have hd := readDefault_tokens { name, typeName := t.text } hasDefault hr rfl
    obtain ⟨i, ts, hts⟩ := t.exists_tokens_eq
    have hequals : starts .equals (t.tokens ++ (defaultTokens hasDefault ++ rest)) = false := by
      rw [hts]
      rfl
    rw [WrittenType.tokensAfter, Option.elim_some, List.cons_append, readParameterType]
    simp only [starts_cons, signToken, List.tail_cons, hequals, hread, t.text_toExpr,
      Span.hull_self, hd]
    rfl

theorem readParameter_tokens (p : WrittenParameter) {rest : List Token} (hr : Ends rest) :
    readParameter (p.tokens ++ rest) = { value := p.toParameter, rest } := by
  rw [tokens, List.cons_append, List.append_assoc]
  exact readParameterType_tokens p.name.text p.type p.hasDefault hr

/-- A parameter is read, and those after it if there is a comma. -/
theorem readParameters_append (p : WrittenParameter) {us : List Token} (hr : Ends us) :
    readParameters (p.tokens ++ us) =
      if starts .comma us then
        { value := p.toParameter :: (readParameters us.tail).value
          rest := (readParameters us.tail).rest
          faults := (readParameters us.tail).faults }
      else { value := [p.toParameter], rest := us } := by
  have hp := p.readParameter_tokens hr
  have hn : (p.toParameter.name == "") = false := p.name.text_ne_empty
  have hstop : (starts (.closing .paren) (p.tokens ++ us) || endsLine (p.tokens ++ us)) = false :=
    rfl
  rw [readParameters, hstop]
  simp only [hp, hn]
  by_cases hc : starts .comma us <;> simp [hc]

theorem readParameters_tokens (ps : List WrittenParameter) (rest : List Token) :
    readParameters ([signToken .comma ","].intercalate (ps.map tokens) ++
        signToken (.closing .paren) ")" :: rest) =
      { value := ps.map toParameter, rest := signToken (.closing .paren) ")" :: rest } := by
  induction ps with
  | nil =>
    rw [readParameters]
    rfl
  | cons p ps ih =>
    cases ps with
    | nil =>
      rw [List.map_singleton, List.intercalate_singleton, readParameters_append p (.inr rfl)]
      rfl
    | cons q qs =>
      rw [List.map_cons] at ih
      rw [List.map_cons, List.map_cons, List.intercalate_cons_cons, List.append_assoc,
        List.append_assoc, List.singleton_append, readParameters_append p (.inl rfl),
        List.tail_cons, ih]
      rfl

end WrittenParameter

/-! ### Declarations -/

namespace WrittenDeclaration

open Statement

theorem skipStatement_line (rest : List Token) : skipStatement (lineToken :: rest) = rest := rfl

theorem finish_line (rest : List Token) : finish (lineToken :: rest) = { value := (), rest } := rfl

theorem readVariable_tokens (isStatic : Bool) (name : Identifier) (type : Option WrittenType)
    (keyword : Keyword) (rest : List Token) :
    readVariable isStatic keyword.token
        (name.token :: (WrittenType.tokensAfter (signToken .colon ":") type ++ lineToken :: rest)) =
      { value := variableOf isStatic name type, rest } := by
  cases type with
  | none => rfl
  | some t =>
    have hread := t.readsBack (lineToken :: rest) ⟨rfl, rfl⟩
    obtain ⟨i, ts, hts⟩ := t.exists_tokens_eq
    have hequals : starts .equals (t.tokens ++ lineToken :: rest) = false := by
      rw [hts]
      rfl
    rw [WrittenType.tokensAfter, Option.elim_some, List.cons_append, readVariable]
    simp only [readVariableType, starts_cons, Identifier.token, Keyword.token, signToken,
      next_cons, List.tail_cons, hequals, hread, t.text_toExpr, Span.hull_self, skipStatement_line]
    rfl

theorem readReturnType_tokens (type : Option WrittenType) (rest : List Token) :
    readReturnType (WrittenType.tokensAfter (signToken .arrow "->") type ++
        signToken .colon ":" :: rest) =
      { value := some (type.map WrittenType.text, {}), rest := signToken .colon ":" :: rest } := by
  cases type with
  | none => rfl
  | some t =>
    have hread := t.readsBack (signToken .colon ":" :: rest) ⟨rfl, rfl⟩
    rw [WrittenType.tokensAfter, Option.elim_some, List.cons_append, readReturnType]
    simp only [starts_cons, signToken, List.tail_cons] at hread ⊢
    simp only [hread, t.text_toExpr]
    rfl

theorem readSignatureEnd_tokens (f : FunctionDecl) (type : Option WrittenType) (rest : List Token)
    (hs : f.span = {}) :
    readSignatureEnd f (signToken (.closing .paren) ")" ::
        (WrittenType.tokensAfter (signToken .arrow "->") type ++
          signToken .colon ":" :: lineToken :: rest)) =
      { value := { f with returnType := type.map WrittenType.text }, rest } := by
  obtain ⟨name, ps, returnType, isStatic, tags, span⟩ := f
  obtain rfl : span = {} := hs
  have hread := readReturnType_tokens type (lineToken :: rest)
  simp only [signToken] at hread ⊢
  simp only [readSignatureEnd, starts_cons, List.tail_cons, hread, next_cons, Span.hull_self]
  cases type <;> rfl

theorem readFunction_tokens (isStatic : Bool) (name : Identifier) (ps : List WrittenParameter)
    (type : Option WrittenType) (rest : List Token) :
    readFunction isStatic Keyword.func.token
        (name.token :: (WrittenParameter.listTokens ps ++
          (WrittenType.tokensAfter (signToken .arrow "->") type ++
            signToken .colon ":" :: lineToken :: rest))) =
      { value := functionOf isStatic name ps type, rest } := by
  have hps := WrittenParameter.readParameters_tokens ps
    (WrittenType.tokensAfter (signToken .arrow "->") type ++
      signToken .colon ":" :: lineToken :: rest)
  have hend := readSignatureEnd_tokens
    { name := name.text, parameters := ps.map WrittenParameter.toParameter, isStatic } type rest rfl
  rw [WrittenParameter.listTokens, List.cons_append, List.append_assoc, List.singleton_append,
    readFunction]
  simp only [starts_cons, List.tail_cons, next_cons, hps]
  simp only [Identifier.token, Keyword.token, hend]
  rfl

theorem readSignal_tokens (name : Identifier) (parameters : Option (List WrittenParameter))
    (rest : List Token) :
    readSignal Keyword.signal.token
        (name.token :: (parameters.elim [] WrittenParameter.listTokens ++ lineToken :: rest)) =
      { value := signalOf name parameters, rest } := by
  cases parameters with
  | none => rfl
  | some ps =>
    have hps := WrittenParameter.readParameters_tokens ps (lineToken :: rest)
    rw [Option.elim_some, WrittenParameter.listTokens, List.cons_append, List.append_assoc,
      List.singleton_append, readSignal]
    simp only [starts_cons, List.tail_cons, next_cons, hps, finish_line]
    rfl

end WrittenDeclaration

end ScriptBridge
