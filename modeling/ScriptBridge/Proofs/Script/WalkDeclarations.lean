import ScriptBridge.Proofs.Script.WalkTypes

/-! Walking over declarations. Proved: variables, parameters, functions and signals are walked over
as they are read, and so is every statement, if no semicolon stands in the hint of an `export`. -/

namespace ScriptBridge.Walk

open Tokens (next starts endsLine faultHere Leaves)

variable {tokens ts : List Token} {limit : Nat}

/-- A type is walked over within the limit of the script. -/
theorem runOn_type (h : Left tokens ts) (hlimit : tokens.length < limit) :
    (typeExpr limit).runOn tokens ts = outcome tokens (TypeExpr.read ts) :=
  runOn_typeExpr h (h.length_lt hlimit)

theorem runOn_valueType (h : Left tokens ts) :
    valueType.runOn tokens ts = outcome tokens { value := Inference.typeOf ts, rest := ts } := by
  rw [valueType, peek_bind h, ahead_bind h, ahead_bind h, ahead_bind h, runOn_pure]
  rfl

/-! ### Variables -/

theorem runOn_inferredVariable (v : VariableDecl) (h : Left tokens ts)
    (hlimit : tokens.length < limit) :
    (inferredVariable limit v).runOn tokens ts =
      outcome tokens
        { value := { v with isInferred := true, typeName := Inference.typeOf ts }
          rest := Tokens.skipStatement ts } := by
  rw [inferredVariable, runOn_bind_clean (runOn_valueType h),
    runOn_bind_clean (runOn_skipStatement h hlimit), runOn_pure]

theorem runOn_variableType (v : VariableDecl) (h : Left tokens ts)
    (hlimit : tokens.length < limit) :
    (variableType limit v).runOn tokens ts = outcome tokens (Statement.readVariableType v ts) := by
  rw [variableType, Statement.readVariableType]
  dsimp only
  by_cases hcolon : starts .colon ts
  · have hts := h.tail hcolon
    rw [accept_if_true h hcolon, if_pos hcolon]
    by_cases hequals : starts .equals ts.tail
    · rw [accept_if_true hts hequals, if_pos hequals,
        runOn_inferredVariable v (hts.tail hequals) hlimit]
    · have hrest := hts.of_leaves (TypeExpr.read_leaves ts.tail)
      rw [accept_if_false hts hequals, if_neg hequals,
        runOn_bind (runOn_type hts hlimit)]
      cases hv : (TypeExpr.read ts.tail).value with
      | some type =>
        dsimp only
        rw [runOn_bind_clean (runOn_skipStatement hrest hlimit), runOn_pure, before_outcome,
          List.append_nil]
      | none =>
        dsimp only
        rw [reportHere_bind hrest, runOn_bind_clean (runOn_skipLine hrest hlimit), runOn_pure,
          before_outcome, before_outcome]
        rfl
  · rw [accept_if_false h hcolon, if_neg hcolon]
    by_cases hequals : starts .colonEquals ts
    · rw [accept_if_true h hequals, if_pos hequals,
        runOn_inferredVariable v (h.tail hequals) hlimit]
    · rw [accept_if_false h hequals, if_neg hequals,
        runOn_bind_clean (runOn_skipStatement h hlimit), runOn_pure]

theorem runOn_varDecl (isStatic : Bool) {keyword : Token} (h : Left tokens (keyword :: ts))
    (hk : keyword.kind ≠ .endOfFile) (hlimit : tokens.length < limit) :
    (varDecl limit isStatic).runOn tokens ts =
      outcome tokens (Statement.readVariable isStatic keyword ts) := by
  have hts : Left tokens ts := h.behind hk
  rw [varDecl, previous_bind h, Statement.readVariable]
  by_cases hname : starts .identifier ts
  · rw [consume_if_true hts hname, if_pos hname,
      runOn_variableType _ (hts.tail hname) hlimit]
  · rw [consume_if_false hts hname, if_neg hname,
      runOn_bind_clean (runOn_skipLine hts hlimit), runOn_pure, before_outcome]
    rfl

/-! ### Parameters -/

theorem runOn_defaultExpression (inferred : Bool) (p : Parameter) (h : Left tokens ts)
    (hlimit : tokens.length < limit) :
    (defaultExpression limit inferred p).runOn tokens ts =
      outcome tokens
        { value :=
            { p with
              hasDefault := true
              typeName := if inferred then Inference.typeOf ts else p.typeName }
          rest := Tokens.skipExpression ts } := by
  rw [defaultExpression]
  cases inferred with
  | true =>
    rw [if_pos rfl, if_pos rfl, runOn_bind_clean (runOn_valueType h),
      runOn_bind_clean (runOn_skipExpression h hlimit), runOn_pure]
  | false =>
    rw [if_neg Bool.false_ne_true, if_neg Bool.false_ne_true,
      runOn_bind_clean (runOn_skipExpression h hlimit), runOn_pure]

theorem runOn_defaultValue (inferred : Bool) (p : Parameter) (h : Left tokens ts)
    (hlimit : tokens.length < limit) :
    (defaultValue limit inferred p).runOn tokens ts =
      outcome tokens (Statement.readDefault inferred p ts) := by
  rw [defaultValue, Statement.readDefault]
  by_cases hequals : starts .equals ts
  · rw [accept_if_true h hequals, hequals, Bool.true_or, if_pos rfl,
      runOn_defaultExpression _ _ (h.tail hequals) hlimit]
  rw [accept_if_false h hequals]
  by_cases hcolon : starts .colonEquals ts
  · rw [accept_if_true h hcolon, hcolon, Bool.or_true, if_pos rfl,
      runOn_defaultExpression _ _ (h.tail hcolon) hlimit]
  · rw [accept_if_false h hcolon,
      if_neg (by simp [hequals, hcolon]), runOn_pure]

theorem readDefault_faults (inferred : Bool) (p : Parameter) (ts : List Token) :
    (Statement.readDefault inferred p ts).faults = [] := by
  unfold Statement.readDefault
  split <;> rfl

theorem runOn_parameterType (p : Parameter) (h : Left tokens ts)
    (hlimit : tokens.length < limit) :
    (parameterType limit p).runOn tokens ts =
      outcome tokens (Statement.readParameterType p ts) := by
  rw [parameterType, check_bind h, Statement.readParameterType]
  by_cases hcolon : starts .colon ts
  · have hts := h.tail hcolon
    rw [accept_if_true h hcolon, if_pos hcolon, check_bind hts]
    by_cases hequals : starts .equals ts.tail
    · rw [if_pos hequals, if_pos hequals, runOn_defaultValue _ _ hts hlimit]
    · have hrest := hts.of_leaves (TypeExpr.read_leaves ts.tail)
      rw [if_neg hequals, if_neg hequals, runOn_bind (runOn_type hts hlimit)]
      dsimp only
      cases hv : (TypeExpr.read ts.tail).value with
      | some type =>
        dsimp only
        rw [runOn_defaultValue _ _ hrest hlimit, before_outcome, readDefault_faults,
          List.append_nil]
      | none =>
        dsimp only
        rw [reportHere_bind hrest, runOn_bind_clean (runOn_skipExpression hrest hlimit), runOn_pure,
          before_outcome, before_outcome]
        rfl
  · rw [accept_if_false h hcolon, if_neg hcolon,
      runOn_defaultValue _ _ h hlimit]

theorem runOn_parameter (h : Left tokens ts) (hlimit : tokens.length < limit) :
    (parameter limit).runOn tokens ts = outcome tokens (Statement.readParameter ts) := by
  rw [parameter, Statement.readParameter]
  by_cases hname : starts .identifier ts
  · rw [consume_if_true h hname, if_pos hname,
      runOn_parameterType _ (h.tail hname) hlimit]
  · rw [consume_if_false h hname, if_neg hname,
      runOn_bind_clean (runOn_skipExpression h hlimit), runOn_pure, before_outcome]
    rfl

theorem runOn_parameters (h : Left tokens ts) (hlimit : tokens.length < limit) :
    (parameters limit).runOn tokens ts = outcome tokens (Statement.readParameters ts) := by
  refine runOn_loop
    (R := fun ps ts =>
      { value := ps ++ (Statement.readParameters ts).value
        rest := (Statement.readParameters ts).rest
        faults := (Statement.readParameters ts).faults })
    (I := fun _ _ => True) (fun ps ts _ h => ?_) trivial h (h.length_lt hlimit)
  by_cases hclose : starts (.closing .paren) ts
  · refine .done ?_ (by rw [Statement.readParameters, hclose, Bool.true_or, if_pos rfl])
    rw [check_bind h, if_pos hclose, runOn_pure, List.append_nil]
  by_cases hline : endsLine ts
  · refine .done ?_ (by rw [Statement.readParameters, hline, Bool.or_true, if_pos rfl])
    rw [check_bind h, if_neg hclose, atLineEnd_bind h, if_pos hline, runOn_pure,
      List.append_nil]
  have hends : ¬(starts (.closing .paren) ts || endsLine ts) := by simp [hclose, hline]
  obtain ⟨p, hp⟩ : ∃ p, p = Statement.readParameter ts := ⟨_, rfl⟩
  have hleaves : Leaves ts p.rest := hp ▸ Statement.readParameter_leaves ts
  have hrest := h.of_leaves hleaves
  have hrun : (parameter limit).runOn tokens ts = outcome tokens p := hp ▸ runOn_parameter h hlimit
  let here := if p.value.name == "" then [] else [p.value]
  have hread : Statement.readParameters ts =
      if starts .comma p.rest then
        { value := here ++ (Statement.readParameters p.rest.tail).value
          rest := (Statement.readParameters p.rest.tail).rest
          faults := p.faults ++ (Statement.readParameters p.rest.tail).faults }
      else { value := here, rest := p.rest, faults := p.faults } := by
    rw [Statement.readParameters, if_neg hends, ← hp]
    exact dite_eq_ite
  have hnamed : (if p.value.name == "" then ps else ps ++ [p.value]) = ps ++ here := by
    simp only [here]
    split
    · rw [List.append_nil]
    · rfl
  by_cases hcomma : starts .comma p.rest
  · refine .again (ps ++ here) p.rest.tail p.faults ?_
      (Statement.length_tail_lt hcomma hleaves (by simp)) (hrest.tail hcomma) trivial ?_
    · rw [check_bind h, if_neg hclose, atLineEnd_bind h, if_neg hline, runOn_bind hrun]
      dsimp only
      rw [accept_if_true hrest hcomma, runOn_pure, before_outcome,
        List.append_nil, hnamed]
    · rintro _ rfl
      rw [hread, if_pos hcomma]
      simp only [List.append_assoc]
  · refine .done ?_ (by rw [hread, if_neg hcomma])
    rw [check_bind h, if_neg hclose, atLineEnd_bind h, if_neg hline, runOn_bind hrun]
    dsimp only
    rw [accept_if_false hrest hcomma, runOn_pure,
      before_outcome, List.append_nil, hnamed]

/-! ### Functions and signals -/

theorem runOn_noFunction (faults : List LocatedFault) (h : Left tokens ts)
    (hlimit : tokens.length < limit) :
    before faults ((noFunction limit).runOn tokens ts) =
      outcome tokens (Statement.noFunction ts faults) := by
  rw [noFunction, runOn_bind_clean (runOn_skipLine h hlimit), runOn_pure, before_outcome,
    List.append_nil]
  rfl

theorem runOn_functionEnd (f : FunctionDecl) (h : Left tokens ts)
    (hlimit : tokens.length < limit) :
    (functionEnd limit f).runOn tokens ts =
      outcome tokens
        (if starts .colon ts then { value := f, rest := Tokens.skipLine ts }
        else Statement.noFunction ts [faultHere .missingBodyColon ts]) := by
  rw [functionEnd, check_bind h]
  by_cases hcolon : starts .colon ts
  · rw [if_pos hcolon, if_pos hcolon, runOn_bind_clean (runOn_skipLine h hlimit), runOn_pure]
  · rw [if_neg hcolon, if_neg hcolon, reportHere_bind h, runOn_noFunction _ h hlimit]

/-- A function from the parenthesis that closes its parameters. -/
theorem runOn_signatureEnd {f : FunctionDecl} (hf : f.returnType = none) (h : Left tokens ts)
    (hlimit : tokens.length < limit) :
    (signatureEnd limit f).runOn tokens ts = outcome tokens (Statement.readSignatureEnd f ts) := by
  rw [signatureEnd, Statement.readSignatureEnd]
  by_cases hclose : starts (.closing .paren) ts
  · have hts := h.tail hclose
    rw [consume_if_true h hclose, if_pos hclose, returnType,
      Statement.readReturnType]
    by_cases harrow : starts .arrow ts.tail
    · have htype := hts.tail harrow
      have hrest := htype.of_leaves (TypeExpr.read_leaves ts.tail.tail)
      rw [accept_if_true hts harrow, if_pos harrow,
        runOn_bind (runOn_type htype hlimit)]
      dsimp only
      cases hv : (TypeExpr.read ts.tail.tail).value with
      | some type =>
        dsimp only
        rw [runOn_functionEnd _ hrest hlimit, before_outcome]
        by_cases hcolon : starts .colon (TypeExpr.read ts.tail.tail).rest
        · simp only [if_pos hcolon, List.append_nil]
          rfl
        · simp only [if_neg hcolon]
          rfl
      | none =>
        dsimp only
        rw [reportHere_bind hrest, runOn_noFunction _ hrest hlimit, before_outcome]
        rfl
    · rw [accept_if_false hts harrow, if_neg harrow,
        runOn_functionEnd _ hts hlimit, hf]
      rfl
  · rw [consume_if_false h hclose, if_neg hclose,
      runOn_noFunction _ h hlimit]

theorem runOn_funcDecl (isStatic : Bool) {keyword : Token} (h : Left tokens (keyword :: ts))
    (hk : keyword.kind ≠ .endOfFile) (hlimit : tokens.length < limit) :
    (funcDecl limit isStatic).runOn tokens ts =
      outcome tokens (Statement.readFunction isStatic keyword ts) := by
  have hts : Left tokens ts := h.behind hk
  rw [funcDecl, previous_bind h, Statement.readFunction]
  by_cases hname : starts .identifier ts
  · have hsignature := hts.tail hname
    rw [consume_if_true hts hname, if_pos hname]
    by_cases hopen : starts (.opening .paren) ts.tail
    · have hps := hsignature.tail hopen
      have hend := hps.of_leaves (Statement.readParameters_leaves ts.tail.tail)
      rw [accept_if_true hsignature hopen, if_pos hopen,
        runOn_bind (runOn_parameters hps hlimit)]
      dsimp only
      rw [runOn_signatureEnd rfl hend hlimit, before_outcome]
    · rw [accept_if_false hsignature hopen, if_neg hopen,
        reportHere_bind hsignature, runOn_noFunction _ hsignature hlimit]
  · rw [consume_if_false hts hname, if_neg hname,
      runOn_noFunction _ hts hlimit]

theorem runOn_signalDecl {keyword : Token} (h : Left tokens (keyword :: ts))
    (hk : keyword.kind ≠ .endOfFile) (hlimit : tokens.length < limit) :
    (signalDecl limit).runOn tokens ts = outcome tokens (Statement.readSignal keyword ts) := by
  have hts : Left tokens ts := h.behind hk
  rw [signalDecl, previous_bind h, Statement.readSignal]
  by_cases hname : starts .identifier ts
  · have hsignature := hts.tail hname
    rw [consume_if_true hts hname, if_pos hname]
    by_cases hopen : starts (.opening .paren) ts.tail
    · have hps := hsignature.tail hopen
      have hend := hps.of_leaves (Statement.readParameters_leaves ts.tail.tail)
      rw [accept_if_true hsignature hopen, if_pos hopen,
        runOn_bind (runOn_parameters hps hlimit)]
      dsimp only
      by_cases hclose : starts (.closing .paren) (Statement.readParameters ts.tail.tail).rest
      · rw [consume_if_true hend hclose, if_pos hclose,
          runOn_bind (runOn_finish (hend.tail hclose) hlimit), runOn_pure,
          before_outcome, before_outcome, List.append_nil]
      · rw [consume_if_false hend hclose, if_neg hclose,
          runOn_bind_clean (runOn_skipLine hend hlimit), runOn_pure, before_outcome,
          before_outcome]
        rfl
    · rw [accept_if_false hsignature hopen, if_neg hopen,
        runOn_bind (runOn_finish hsignature hlimit), runOn_pure, before_outcome, List.append_nil]
  · rw [consume_if_false hts hname, if_neg hname,
      runOn_bind_clean (runOn_skipLine hts hlimit), runOn_pure, before_outcome]
    rfl

/-! ### Statements -/

theorem runOn_staticDecl {keyword : Token} (h : Left tokens (keyword :: ts))
    (hk : keyword.kind ≠ .endOfFile) (hlimit : tokens.length < limit) :
    (staticDecl limit).runOn tokens ts = outcome tokens (Statement.readStatic keyword ts) := by
  have hts : Left tokens ts := h.behind hk
  rw [staticDecl, previous_bind h]
  obtain ⟨t, ts, rfl⟩ := hts.cons
  have hread : Statement.readStatic keyword (t :: ts) =
      if starts (.keyword .var) (t :: ts) then
        Statement.map .var (Statement.readVariable true t ts)
      else if starts (.keyword .func) (t :: ts) then
        Statement.map .func (Statement.readFunction true t ts)
      else
        { value := .blank, rest := Tokens.skipLine (t :: ts)
          faults := [⟨.strayStatic, keyword.span⟩] } := by
    simp [Statement.readStatic, starts, next]
  rw [hread]
  by_cases hvar : starts (.keyword .var) (t :: ts)
  · have hrun := runOn_varDecl true hts (kind_ne_of_starts hvar) hlimit
    rw [if_pos hvar, accept_if_true hts hvar]
    exact runOn_bind_pure hrun
  rw [if_neg hvar, accept_if_false hts hvar]
  by_cases hfunc : starts (.keyword .func) (t :: ts)
  · have hrun := runOn_funcDecl true hts (kind_ne_of_starts hfunc) hlimit
    rw [if_pos hfunc, accept_if_true hts hfunc]
    exact runOn_bind_pure hrun
  · rw [if_neg hfunc, accept_if_false hts hfunc, report_bind,
      runOn_bind_clean (runOn_skipLine hts hlimit), runOn_pure, before_outcome]
    rfl

/-- Whether a statement that declares something or is reported starts with the token; the others
are passed over. -/
def StartsStatement (t : Token) : Prop :=
  t.endsLine = false ∧ t.kind ≠ .indent ∧ t.kind ≠ .tag ∧ t.isSemicolon = false

theorem runOn_statement (hasName hasBase : Bool) {t : Token} (h : Left tokens (t :: ts))
    (ht : StartsStatement t) (hlimit : tokens.length < limit) (hhint : HintEnds t ts) :
    (statement limit hasName hasBase).runOn tokens (t :: ts) =
      outcome tokens (Statement.read hasName hasBase t ts) := by
  obtain ⟨hline, hindent, htag, hsemicolon⟩ := ht
  have he : t.kind ≠ .endOfFile := fun he => by simp [Token.endsLine, he] at hline
  have hnewline : t.kind ≠ .newline := fun hk => by simp [Token.endsLine, hk] at hline
  have hnext : (next (t :: ts)).kind = t.kind := rfl
  rw [statement, peek_bind h, Statement.read, hnext]
  have hother : (unexpected limit).runOn tokens (t :: ts) =
      outcome tokens
        (if t.isSemicolon then { value := .blank, rest := ts }
        else
          { value := .other, rest := Tokens.skipLine ts
            faults := [⟨.unexpectedStatement t.text, t.span⟩] }) := by
    rw [hsemicolon, if_neg Bool.false_ne_true]
    exact runOn_unexpected h hline hlimit
  cases hk : t.kind with
  | endOfFile => exact absurd hk he
  | newline => exact absurd hk hnewline
  | indent => exact absurd hk hindent
  | tag => exact absurd hk htag
  | identifier => exact runOn_word h hk hlimit hhint
  | keyword k =>
    have hnesting : Tokens.nesting t = 0 := by rw [Tokens.nesting, hk]
    have hskipped : Tokens.skipStatement (t :: ts) = Tokens.skipStatement ts := by
      rw [Tokens.skipStatement, skipTo_cons, hline, hsemicolon, hnesting]
      rfl
    cases k with
    | className =>
      exact (advance_cons_bind h he).trans (runOn_header hasName hasBase h he hlimit)
    | extending =>
      exact (advance_cons_bind h he).trans (runOn_bind_pure (runOn_extending hasBase h he hlimit))
    | var =>
      exact (advance_cons_bind h he).trans (runOn_bind_pure (runOn_varDecl false h he hlimit))
    | func =>
      exact (advance_cons_bind h he).trans (runOn_bind_pure (runOn_funcDecl false h he hlimit))
    | signal =>
      exact (advance_cons_bind h he).trans (runOn_bind_pure (runOn_signalDecl h he hlimit))
    | static => exact (advance_cons_bind h he).trans (runOn_staticDecl h he hlimit)
    | const | enumeration =>
      dsimp only
      rw [runOn_bind_clean (runOn_skipStatement h hlimit), runOn_pure, hskipped]
    | innerClass =>
      dsimp only
      rw [runOn_bind_clean (runOn_skipLine h hlimit), runOn_pure, skipLine_cons hline]
    | trueLiteral | falseLiteral | nullLiteral => exact hother
  | integer | float | text | opening | closing | comma | colon | colonEquals | equals | arrow | dot
    | operator => exact hother

end ScriptBridge.Walk
