import ScriptBridge.Proofs.Script.WalkSteps

/-! Walking to the end of a line, over tags, over old modifiers, and over the head of a class. What
a walk brings is what is read of the tokens that are left, and the cursor stops where reading stops.
Each loop takes tokens in every turn but one: the loop over the hint of an `export` stands still at
a semicolon outside brackets. Proved: it ends if there is none in the hint, and otherwise takes as
many turns as it is given. -/

namespace ScriptBridge.Walk

open Tokens (next starts endsLine faultHere Leaves)

variable {tokens ts : List Token} {limit : Nat}

/-! ### Skipping -/

theorem runOn_skipLine (h : Left tokens ts) (hlimit : tokens.length < limit) :
    (skipLine limit).runOn tokens ts =
      outcome tokens { value := (), rest := Tokens.skipLine ts } := by
  refine runOn_loop (R := fun _ ts => { value := (), rest := Tokens.skipLine ts })
    (I := fun _ _ => True) (fun _ ts _ h => ?_) trivial h (h.length_lt hlimit)
  obtain ⟨t, ts, rfl⟩ := h.cons
  have hread : Tokens.skipLine (t :: ts) =
      if starts .endOfFile (t :: ts) then t :: ts
      else if (next (t :: ts)).kind == .newline then ts
      else Tokens.skipLine ts := by simp [Tokens.skipLine, starts, next]
  by_cases he : starts .endOfFile (t :: ts)
  · refine .done ?_ (by rw [hread, if_pos he])
    rw [atEnd_bind h, if_pos he, runOn_pure]
  · by_cases hk : (next (t :: ts)).kind == .newline
    · refine .done ?_ (by rw [hread, if_neg he, if_pos hk])
      rw [atEnd_bind h, if_neg he, advance_bind h he, if_pos hk, runOn_pure]
      rfl
    · refine .again () ts [] ?_ (Nat.lt_succ_self _) (h.tail_of_not_end he) trivial ?_
      · rw [atEnd_bind h, if_neg he, advance_bind h he, if_neg hk, runOn_pure]
        rfl
      · rintro _ rfl
        rw [hread, if_neg he, if_neg hk, List.nil_append]

/-- The end of the script ends a line. -/
theorem not_starts_of_not_endsLine (h : ¬endsLine ts) : ¬starts .endOfFile ts := fun hs =>
  h (Bool.or_eq_true_iff.2 (.inl hs))

theorem runOn_skipTo (stop : Token → Bool) (h : Left tokens ts) (hlimit : tokens.length < limit) :
    (skipTo limit stop).runOn tokens ts =
      outcome tokens { value := (), rest := Tokens.skipTo stop 0 ts } := by
  refine runOn_loop (R := fun depth ts => { value := (), rest := Tokens.skipTo stop depth ts })
    (I := fun _ _ => True) (fun depth ts _ h => ?_) trivial h
    (h.length_lt hlimit)
  obtain ⟨t, ts, rfl⟩ := h.cons
  have hread : Tokens.skipTo stop depth (t :: ts) =
      if endsLine (t :: ts) || (depth == 0 && stop (next (t :: ts))) then t :: ts
      else Tokens.skipTo stop (depth + Tokens.nesting t) ts := rfl
  by_cases hline : endsLine (t :: ts)
  · refine .done ?_ (by rw [hread, hline, Bool.true_or, if_pos rfl])
    rw [atLineEnd_bind h, if_pos hline, runOn_pure]
  · have he := not_starts_of_not_endsLine hline
    by_cases hstop : depth == 0 && stop (next (t :: ts))
    · refine .done ?_ (by rw [hread, hstop, Bool.or_true, if_pos rfl])
      rw [atLineEnd_bind h, if_neg hline, peek_bind h, if_pos hstop, runOn_pure]
    · refine .again (depth + Tokens.nesting t) ts [] ?_ (Nat.lt_succ_self _)
        (h.tail_of_not_end he) trivial ?_
      · rw [atLineEnd_bind h, if_neg hline, peek_bind h, if_neg hstop, advance_bind h he,
          runOn_pure]
        rfl
      · rintro _ rfl
        rw [hread, if_neg (by simp [hline, hstop]), List.nil_append]

theorem runOn_skipExpression (h : Left tokens ts) (hlimit : tokens.length < limit) :
    (skipExpression limit).runOn tokens ts =
      outcome tokens { value := (), rest := Tokens.skipExpression ts } := runOn_skipTo _ h hlimit

theorem kind_of_isSemicolon {t : Token} (h : t.isSemicolon) : t.kind = .operator :=
  beq_iff_eq.1 (Bool.and_eq_true_iff.1 h).1

/-- A semicolon is no end of the script. -/
theorem starts_of_isSemicolon (h : (next ts).isSemicolon) : starts .operator ts :=
  beq_iff_eq.2 (kind_of_isSemicolon h)

theorem not_endsLine_of_isSemicolon {t : Token} (h : t.isSemicolon) : ¬t.endsLine := by
  simp [Token.endsLine, kind_of_isSemicolon h]

theorem runOn_endStatement (h : Left tokens ts) (hlimit : tokens.length < limit) :
    (endStatement limit).runOn tokens ts =
      outcome tokens { value := (), rest := Tokens.endStatement ts } := by
  rw [endStatement, atSemicolon_bind h, Tokens.endStatement]
  by_cases hs : (next ts).isSemicolon
  · have he := not_starts_endOfFile (starts_of_isSemicolon hs)
    rw [if_pos hs, if_pos hs, advance_bind h he, runOn_pure]
  · rw [if_neg hs, if_neg hs, runOn_skipLine h hlimit]

theorem runOn_skipStatement (h : Left tokens ts) (hlimit : tokens.length < limit) :
    (skipStatement limit).runOn tokens ts =
      outcome tokens { value := (), rest := Tokens.skipStatement ts } := by
  rw [skipStatement, runOn_bind_clean (runOn_skipTo _ h hlimit)]
  exact runOn_endStatement (h.of_leaves (Tokens.skipTo_leaves _ _ _)) hlimit

theorem runOn_finish (h : Left tokens ts) (hlimit : tokens.length < limit) :
    (finish limit).runOn tokens ts = outcome tokens (Tokens.finish ts) := by
  rw [finish, atSemicolon_bind h, Tokens.finish, Tokens.endStatement]
  by_cases hs : (next ts).isSemicolon
  · have he := not_starts_endOfFile (starts_of_isSemicolon hs)
    rw [if_pos hs, if_pos hs, advance_bind h he, runOn_pure, hs]
    rfl
  · rw [if_neg hs, if_neg hs, atLineEnd_bind h]
    by_cases hline : endsLine ts
    · rw [if_pos hline, runOn_skipLine h hlimit, hline, Bool.or_true]
      rfl
    · rw [if_neg hline, reportHere_bind h, runOn_skipLine h hlimit, before_outcome,
        if_neg (by simp [hs, hline])]
      rfl

/-! ### Tags -/

theorem runOn_tagArguments (h : Left tokens ts) (hlimit : tokens.length < limit) :
    (tagArguments limit).runOn tokens ts =
      outcome tokens
        { value := (Statement.tagArguments 0 "" ts).1
          rest := (Statement.tagArguments 0 "" ts).2 } := by
  refine runOn_loop
    (R := fun (s : TagState) ts =>
      { value := s.arguments ++ (Statement.tagArguments s.depth s.text ts).1
        rest := (Statement.tagArguments s.depth s.text ts).2 })
    (I := fun _ _ => True) (fun s ts _ h => ?_) trivial h (h.length_lt hlimit)
  obtain ⟨t, ts, rfl⟩ := h.cons
  have hread : Statement.tagArguments s.depth s.text (t :: ts) =
      if endsLine (t :: ts) then ([], t :: ts)
      else if s.depth == 0 && (next (t :: ts)).kind == .closing .paren then ([s.text], t :: ts)
      else if s.depth == 0 && (next (t :: ts)).kind == .comma then
        (s.text :: (Statement.tagArguments 0 "" ts).1, (Statement.tagArguments 0 "" ts).2)
      else Statement.tagArguments (s.depth + Statement.tagNesting t) (s.text ++ t.text) ts := rfl
  by_cases hline : endsLine (t :: ts)
  · refine .done ?_ (by rw [hread, if_pos hline])
    rw [atLineEnd_bind h, if_pos hline, runOn_pure, List.append_nil]
  have he := not_starts_of_not_endsLine hline
  by_cases hclose : s.depth == 0 && (next (t :: ts)).kind == .closing .paren
  · refine .done ?_ (by rw [hread, if_neg hline, if_pos hclose])
    rw [atLineEnd_bind h, if_neg hline, peek_bind h, if_pos hclose, runOn_pure]
  by_cases hcomma : s.depth == 0 && (next (t :: ts)).kind == .comma
  · refine .again { arguments := s.arguments ++ [s.text] } ts [] ?_ (Nat.lt_succ_self _)
      (h.tail_of_not_end he) trivial ?_
    · rw [atLineEnd_bind h, if_neg hline, peek_bind h, if_neg hclose, advance_bind h he,
        if_pos hcomma, runOn_pure]
      rfl
    · rintro _ rfl
      rw [hread, if_neg hline, if_neg hclose, if_pos hcomma, List.nil_append, List.append_assoc]
      rfl
  · refine .again
      { s with depth := s.depth + Statement.tagNesting t, text := s.text ++ t.text } ts [] ?_
      (Nat.lt_succ_self _) (h.tail_of_not_end he) trivial ?_
    · rw [atLineEnd_bind h, if_neg hline, peek_bind h, if_neg hclose, advance_bind h he,
        if_neg hcomma, runOn_pure]
      rfl
    · rintro _ rfl
      rw [hread, if_neg hline, if_neg hclose, if_neg hcomma, List.nil_append]

theorem runOn_tag {t : Token} (h : Left tokens (t :: ts)) (ht : t.kind ≠ .endOfFile)
    (hlimit : tokens.length < limit) :
    (tag limit).runOn tokens (t :: ts) = outcome tokens (Statement.readTag t ts) := by
  have hts : Left tokens ts := h.behind ht
  rw [tag, advance_cons_bind h ht, Statement.readTag]
  by_cases hopen : starts (.opening .paren) ts
  · have harguments := hts.tail hopen
    have hend := harguments.of_leaves (Statement.tagArguments_leaves 0 "" ts.tail)
    rw [if_pos hopen, accept_if_true hts hopen,
      runOn_bind_clean (runOn_tagArguments harguments hlimit)]
    by_cases hclose : starts (.closing .paren) (Statement.tagArguments 0 "" ts.tail).2
    · rw [consume_bind_true hend hclose, runOn_pure, if_pos hclose]
    · rw [consume_bind_false hend hclose, runOn_pure, if_neg hclose]
      rfl
  · rw [if_neg hopen, accept_if_false hts hopen, runOn_pure]

/-! ### Old modifiers -/

/-- Where the hint behind an opening parenthesis ends: at the closing one, at a semicolon, or with
the line. -/
def hintEnd (ts : List Token) : List Token :=
  Tokens.skipTo (fun t => t.kind == .closing .paren || t.isSemicolon) 0 ts

theorem skipTo_cons (stop : Token → Bool) (depth : Int) (t : Token) (ts : List Token) :
    Tokens.skipTo stop depth (t :: ts) =
      if t.endsLine || (depth == 0 && stop t) then t :: ts
      else Tokens.skipTo stop (depth + Tokens.nesting t) ts := rfl

/-- Where skipping has stopped it stops again. -/
theorem skipTo_skipTo (stop : Token → Bool) (depth : Int) (ts : List Token) :
    Tokens.skipTo stop 0 (Tokens.skipTo stop depth ts) = Tokens.skipTo stop depth ts := by
  induction ts generalizing depth with
  | nil => rfl
  | cons t ts ih =>
    rw [skipTo_cons]
    split
    · next hstop =>
      have hstop : (t.endsLine || ((0 : Int) == 0 && stop t)) = true := by
        simp only [Bool.or_eq_true, Bool.and_eq_true] at hstop ⊢
        exact hstop.imp_right fun hs => ⟨rfl, hs.2⟩
      rw [skipTo_cons, if_pos hstop]
    · exact ih _

/-- A hint ends where an expression in it ends, or behind the comma there. -/
theorem skipTo_hint (depth : Int) (ts : List Token) :
    Tokens.skipTo (fun t => t.kind == .closing .paren || t.isSemicolon) depth ts =
      let us := Tokens.skipTo
        (fun t => t.kind == .comma || t.kind == .closing .paren || t.isSemicolon) depth ts
      if starts .comma us then hintEnd us.tail else us := by
  induction ts generalizing depth with
  | nil => rfl
  | cons t ts ih =>
    rw [skipTo_cons, skipTo_cons]
    by_cases hk : t.kind = .comma
    · have hline : t.endsLine = false := by simp [Token.endsLine, hk]
      have hsemicolon : t.isSemicolon = false := by simp [Token.isSemicolon, hk]
      have hnesting : Tokens.nesting t = 0 := by simp [Tokens.nesting, hk]
      by_cases hd : depth = 0
      · simp [hline, hsemicolon, hnesting, hd, hk, starts, next, hintEnd]
      · simpa [hline, hsemicolon, hnesting, hd, hk] using ih depth
    · have hcomma : (t.kind == .comma) = false := beq_eq_false_iff_ne.2 hk
      rw [hcomma, Bool.false_or]
      split
      · exact (if_neg (by simpa [starts, next] using hk)).symm
      · exact ih _

theorem hintEnd_eq_self
    (h : endsLine ts ∨ starts (.closing .paren) ts ∨ (next ts).isSemicolon) : hintEnd ts = ts := by
  cases ts with
  | nil => rfl
  | cons t ts =>
    have hstop : (t.endsLine || ((0 : Int) == 0 &&
        (t.kind == .closing .paren || t.isSemicolon))) = true := by
      rw [Bool.or_eq_true, Bool.and_eq_true, Bool.or_eq_true]
      exact h.imp_right fun hs => ⟨rfl, hs⟩
    rw [hintEnd, skipTo_cons, if_pos hstop]

/-- A semicolon stands outside brackets, before the parenthesis that closes a hint and before the
end of the line. So many brackets are open in front of the tokens. -/
inductive SemicolonIn : Int → List Token → Prop where
  | here {t : Token} {ts : List Token} (ht : t.isSemicolon) : SemicolonIn 0 (t :: ts)
  | behind {depth : Int} {t : Token} {ts : List Token} (hline : ¬t.endsLine)
      (hclose : depth = 0 → t.kind ≠ .closing .paren)
      (h : SemicolonIn (depth + Tokens.nesting t) ts) : SemicolonIn depth (t :: ts)

/-- The condition is that skipping the hint stops at a semicolon. -/
theorem semicolonIn_iff (depth : Int) (ts : List Token) :
    SemicolonIn depth ts ↔ (next (Tokens.skipTo
      (fun t => t.kind == .closing .paren || t.isSemicolon) depth ts)).isSemicolon := by
  induction ts generalizing depth with
  | nil => exact ⟨nofun, nofun⟩
  | cons t ts ih =>
    rw [skipTo_cons]
    split
    · next hstop =>
      rw [Bool.or_eq_true, Bool.and_eq_true, Bool.or_eq_true, beq_iff_eq, beq_iff_eq] at hstop
      constructor
      · intro h
        cases h with
        | here ht => exact ht
        | behind hline hclose _ =>
          obtain ⟨hdepth, hk | ht⟩ := hstop.resolve_left hline
          · exact absurd hk (hclose hdepth)
          · exact ht
      · intro ht
        obtain ⟨rfl, -⟩ := hstop.resolve_left (not_endsLine_of_isSemicolon ht)
        exact .here ht
    · next hgo =>
      rw [Bool.or_eq_true, Bool.and_eq_true, Bool.or_eq_true, beq_iff_eq, beq_iff_eq] at hgo
      rw [← ih]
      constructor
      · intro h
        cases h with
        | here ht => exact absurd (.inr ⟨rfl, .inr ht⟩) hgo
        | behind _ _ h => exact h
      · intro h
        exact .behind (fun hline => hgo (.inl hline))
          (fun hdepth hk => hgo (.inr ⟨hdepth, .inl hk⟩)) h

/-- An expression takes tokens unless it stops at the first one. -/
theorem length_skipExpression_lt (hline : ¬endsLine ts)
    (hcomma : ¬starts .comma ts) (hclose : ¬starts (.closing .paren) ts)
    (hsemicolon : ¬(next ts).isSemicolon) :
    (Tokens.skipExpression ts).length < ts.length := by
  cases ts with
  | nil => exact absurd rfl hline
  | cons t ts =>
    have hgo : ¬(t.endsLine || ((0 : Int) == 0 &&
        (t.kind == .comma || t.kind == .closing .paren || t.isSemicolon))) := by
      rw [Bool.or_eq_true, Bool.and_eq_true, Bool.or_eq_true, Bool.or_eq_true]
      rintro (hs | ⟨-, (hs | hs) | hs⟩)
      · exact hline hs
      · exact hcomma hs
      · exact hclose hs
      · exact hsemicolon hs
    rw [Tokens.skipExpression, skipTo_cons, if_neg hgo]
    exact Nat.lt_succ_of_le (Tokens.skipTo_leaves _ _ _).length_le

theorem skipExpression_eq_self (h : starts .comma ts) : Tokens.skipExpression ts = ts := by
  cases ts with
  | nil => rfl
  | cons t ts =>
    have hstop : (t.endsLine || ((0 : Int) == 0 &&
        (t.kind == .comma || t.kind == .closing .paren || t.isSemicolon))) = true := by
      have hk : t.kind = .comma := beq_iff_eq.1 h
      simp [hk]
    rw [Tokens.skipExpression, skipTo_cons, if_pos hstop]

/-- What is left behind an expression of a hint and its comma. -/
def hintRest (ts : List Token) : List Token :=
  if starts .comma (Tokens.skipExpression ts) then (Tokens.skipExpression ts).tail
  else Tokens.skipExpression ts

theorem hintRest_leaves (ts : List Token) : Leaves ts (hintRest ts) := by
  have hleaves := Tokens.skipExpression_leaves ts
  unfold hintRest
  split
  · next hcomma => exact hleaves.trans (.tail hcomma (by simp))
  · exact hleaves

theorem hintEnd_hintRest (ts : List Token) : hintEnd (hintRest ts) = hintEnd ts := by
  have hhint : hintEnd ts = if starts .comma (Tokens.skipExpression ts) then
      hintEnd (Tokens.skipExpression ts).tail else Tokens.skipExpression ts := skipTo_hint 0 ts
  unfold hintRest
  split
  · next hcomma => rw [hhint, if_pos hcomma]
  · next hcomma =>
    rw [if_neg hcomma] at hhint
    rw [← hhint]
    exact skipTo_skipTo _ _ _

/-- A turn takes tokens unless the hint ends here. -/
theorem length_hintRest_lt (hline : ¬endsLine ts) (hclose : ¬starts (.closing .paren) ts)
    (hsemicolon : ¬(next ts).isSemicolon) : (hintRest ts).length < ts.length := by
  have hleaves := Tokens.skipExpression_leaves ts
  unfold hintRest
  split
  · next hcomma => exact Statement.length_tail_lt hcomma hleaves (by simp)
  · next hcomma =>
    refine length_skipExpression_lt hline (fun hs => hcomma ?_) hclose hsemicolon
    rwa [skipExpression_eq_self hs]

theorem runOn_hintTurn (h : Left tokens ts) (hlimit : tokens.length < limit)
    (hline : ¬endsLine ts) (hclose : ¬starts (.closing .paren) ts) :
    (hintTurn limit).runOn tokens ts =
      outcome tokens { value := .again (), rest := hintRest ts } := by
  have hleft := h.of_leaves (Tokens.skipExpression_leaves ts)
  rw [hintTurn, atLineEnd_bind h, if_neg hline, check_bind h, if_neg hclose,
    runOn_bind_clean (runOn_skipExpression h hlimit), hintRest]
  by_cases hcomma : starts .comma (Tokens.skipExpression ts)
  · rw [accept_bind_true hleft hcomma, runOn_pure, if_pos hcomma]
  · rw [accept_bind_false hleft hcomma, runOn_pure, if_neg hcomma]

theorem semicolonIn_hintRest : SemicolonIn 0 (hintRest ts) ↔ SemicolonIn 0 ts := by
  have hend := hintEnd_hintRest ts
  unfold hintEnd at hend
  rw [semicolonIn_iff, semicolonIn_iff, hend]

/-- The loop over a hint ends unless a semicolon stands in the hint outside brackets. -/
theorem runOn_hint (h : Left tokens ts) (hlimit : tokens.length < limit)
    (hsemicolon : ¬SemicolonIn 0 ts) :
    (loop limit (fun _ => hintTurn limit) ()).runOn tokens ts =
      outcome tokens { value := (), rest := hintEnd ts } := by
  refine runOn_loop (R := fun _ ts => { value := (), rest := hintEnd ts })
    (I := fun _ ts => ¬SemicolonIn 0 ts) (fun _ ts hs h => ?_) hsemicolon h
    (h.length_lt hlimit)
  by_cases hline : endsLine ts
  · refine .done ?_ (by rw [hintEnd_eq_self (.inl hline)])
    rw [hintTurn, atLineEnd_bind h, if_pos hline, runOn_pure]
  by_cases hclose : starts (.closing .paren) ts
  · refine .done ?_ (by rw [hintEnd_eq_self (.inr (.inl hclose))])
    rw [hintTurn, atLineEnd_bind h, if_neg hline, check_bind h, if_pos hclose, runOn_pure]
  have hnext : ¬(next ts).isSemicolon := fun ht => by
    obtain ⟨t, us, rfl⟩ := h.cons
    exact hs (.here ht)
  refine .again () (hintRest ts) [] (runOn_hintTurn h hlimit hline hclose)
    (length_hintRest_lt hline hclose hnext) (h.of_leaves (hintRest_leaves ts)) ?_ ?_
  · rwa [semicolonIn_hintRest]
  · rintro _ rfl
    rw [hintEnd_hintRest, List.nil_append]

/-- With a semicolon in the hint the loop takes as many turns as it may. -/
theorem runOn_hint_endless (h : Left tokens ts) (hlimit : tokens.length < limit)
    (hsemicolon : SemicolonIn 0 ts) (turns : Nat) :
    (loop turns (fun _ => hintTurn limit) ()).runOn tokens ts = .error .endless := by
  induction turns generalizing ts with
  | zero => rfl
  | succ turns ih =>
    obtain ⟨hline, hclose⟩ : ¬endsLine ts ∧ ¬starts (.closing .paren) ts := by
      cases hsemicolon with
      | @here t ts ht =>
        exact ⟨not_endsLine_of_isSemicolon ht, by simp [starts, next, kind_of_isSemicolon ht]⟩
      | behind hline hclose _ => exact ⟨hline, mt beq_iff_eq.1 (hclose rfl)⟩
    rw [loop, runOn_bind_clean (runOn_hintTurn h hlimit hline hclose)]
    exact ih (h.of_leaves (hintRest_leaves ts)) (semicolonIn_hintRest.2 hsemicolon)

theorem hintEnd_leaves (ts : List Token) : Leaves ts (hintEnd ts) := Tokens.skipTo_leaves _ _ _

theorem runOn_exportHint (h : Left tokens ts) (hlimit : tokens.length < limit)
    (hsemicolon : starts (.opening .paren) ts → ¬SemicolonIn 0 ts.tail) :
    (exportHint limit).runOn tokens ts = outcome tokens (Statement.exportHint ts) := by
  have hread : Statement.exportHint ts =
      if starts (.opening .paren) ts then
        if starts (.closing .paren) (hintEnd ts.tail) then
          { value := (), rest := (hintEnd ts.tail).tail }
        else
          { value := (), rest := hintEnd ts.tail
            faults := [faultHere .unclosedExportHint (hintEnd ts.tail)] }
      else { value := (), rest := ts } := rfl
  rw [exportHint, hread]
  by_cases hopen : starts (.opening .paren) ts
  · have hbody := h.tail hopen
    have hend := hbody.of_leaves (hintEnd_leaves ts.tail)
    rw [if_pos hopen, accept_if_true h hopen,
      runOn_bind_clean (runOn_hint hbody hlimit (hsemicolon hopen))]
    by_cases hclose : starts (.closing .paren) (hintEnd ts.tail)
    · rw [consume_bind_true hend hclose, runOn_pure, if_pos hclose]
    · rw [consume_bind_false hend hclose, runOn_pure, before_outcome, if_neg hclose]
      rfl
  · rw [if_neg hopen, accept_if_false h hopen, runOn_pure]

/-- The hint of an export that has a semicolon in it is not walked over, whatever the limit. -/
theorem runOn_exportHint_endless (h : Left tokens ts) (hlimit : tokens.length < limit)
    (hopen : starts (.opening .paren) ts) (hsemicolon : SemicolonIn 0 ts.tail) :
    (exportHint limit).runOn tokens ts = .error .endless := by
  have hloop := runOn_hint_endless (h.tail hopen) hlimit hsemicolon limit
  rw [exportHint, accept_if_true h hopen]
  exact runOn_bind_error hloop

theorem skipLine_cons {t : Token} (ht : t.endsLine = false) :
    Tokens.skipLine (t :: ts) = Tokens.skipLine ts := by
  simp only [Token.endsLine, Bool.or_eq_false_iff, beq_eq_false_iff_ne] at ht
  rw [Tokens.skipLine, if_neg ht.1, if_neg ht.2]

/-- A statement that nothing is known of goes up to the end of its line. -/
theorem runOn_unexpected {t : Token} (h : Left tokens (t :: ts)) (ht : t.endsLine = false)
    (hlimit : tokens.length < limit) :
    (unexpected limit).runOn tokens (t :: ts) =
      outcome tokens
        { value := .other, rest := Tokens.skipLine ts
          faults := [⟨.unexpectedStatement t.text, t.span⟩] } := by
  rw [unexpected, peek_bind h, report_bind, runOn_bind_clean (runOn_skipLine h hlimit), runOn_pure,
    skipLine_cons ht]
  rfl

/-- In the hint that follows the token if it is an `export`, there is no semicolon. -/
def HintEnds (t : Token) (ts : List Token) : Prop :=
  t.kind = .identifier → t.text = "export" → starts (.opening .paren) ts → ¬SemicolonIn 0 ts.tail

theorem runOn_modifier {t : Token} (h : Left tokens (t :: ts)) (ht : t.kind = .identifier)
    (hlimit : tokens.length < limit) (hhint : HintEnds t ts) :
    (modifier limit t).runOn tokens (t :: ts) =
      outcome tokens
        (if Statement.modifiers.contains t.text then
          let hint :=
            if t.text == "export" then Statement.exportHint ts else { value := (), rest := ts }
          { value := .tag ⟨t.text, [], t.span⟩, rest := hint.rest, faults := hint.faults }
        else
          { value := .other, rest := Tokens.skipLine ts
            faults := [⟨.unexpectedStatement t.text, t.span⟩] }) := by
  have he : t.kind ≠ .endOfFile := by simp [ht]
  have hline : t.endsLine = false := by simp [Token.endsLine, ht]
  have hts : Left tokens ts := h.behind he
  rw [modifier]
  by_cases hmodifier : Statement.modifiers.contains t.text
  · rw [if_pos hmodifier, if_pos hmodifier, advance_cons_bind h he]
    by_cases hexport : t.text == "export"
    · rw [if_pos hexport, if_pos hexport,
        runOn_bind (runOn_exportHint hts hlimit (hhint ht (beq_iff_eq.1 hexport))), runOn_pure,
        before_outcome, List.append_nil]
    · rw [if_neg hexport, if_neg hexport, runOn_pure]
  · rw [if_neg hmodifier, if_neg hmodifier, runOn_unexpected h hline hlimit]

theorem runOn_word {t : Token} (h : Left tokens (t :: ts)) (ht : t.kind = .identifier)
    (hlimit : tokens.length < limit) (hhint : HintEnds t ts) :
    (word limit).runOn tokens (t :: ts) = outcome tokens (Statement.readWord t ts) := by
  have he : t.kind ≠ .endOfFile := by simp [ht]
  rw [word, peek_bind h, Statement.readWord]
  by_cases htool : t.text == "tool"
  · have htool' : (next (t :: ts)).text == "tool" := htool
    rw [if_pos htool', ahead_bind h, htool, Bool.true_and]
    by_cases hline : (Tokens.ahead (t :: ts) 1).kind == .newline
    · rw [if_pos hline, if_pos hline, advance_cons_bind h he, runOn_pure]
      rfl
    · rw [if_neg hline, if_neg hline]
      exact runOn_modifier h ht hlimit hhint
  · have htool' : ¬(next (t :: ts)).text == "tool" := htool
    rw [if_neg htool', if_neg (by simp [htool])]
    exact runOn_modifier h ht hlimit hhint

/-! ### The head of the class -/

theorem baseSegments_of_not_dot (path : String) (span : Span) (h : ¬starts .dot ts) :
    Statement.baseSegments path span ts = { value := (path, span), rest := ts } := by
  match ts with
  | [] => rfl
  | [t] => exact if_neg (mt beq_iff_eq.2 h)
  | t :: u :: ts =>
    rw [Statement.baseSegments]
    exact if_neg (mt beq_iff_eq.2 h)

theorem runOn_baseSegments (s : String × Span) (h : Left tokens ts)
    (hlimit : tokens.length < limit) :
    (baseSegments limit s).runOn tokens ts =
      outcome tokens (Statement.baseSegments s.1 s.2 ts) := by
  refine runOn_loop (R := fun (s : String × Span) ts => Statement.baseSegments s.1 s.2 ts)
    (I := fun _ _ => True) (fun s ts _ h => ?_) trivial h (h.length_lt hlimit)
  by_cases hdot : starts .dot ts
  · obtain ⟨dot, us, rfl⟩ := h.cons
    have hus : Left tokens us := h.tail hdot
    obtain ⟨t, us, rfl⟩ := hus.cons
    have hread : Statement.baseSegments s.1 s.2 (dot :: t :: us) =
        if starts .identifier (t :: us) then
          Statement.baseSegments (s.1 ++ "." ++ t.text) (s.2.hull t.span) us
        else
          { value := s, rest := t :: us, faults := [faultHere .missingBaseSegment (t :: us)] } := by
      have hk : dot.kind = .dot := beq_iff_eq.1 hdot
      simp [Statement.baseSegments, hk, starts, next]
    by_cases hpart : starts .identifier (t :: us)
    · refine .again (s.1 ++ "." ++ t.text, s.2.hull t.span) us [] ?_
        (Nat.lt_succ_of_lt (Nat.lt_succ_self _)) (hus.tail hpart) trivial ?_
      · rw [accept_if_true h hdot]
        exact consume_if_true hus hpart
      · rintro _ rfl
        rw [hread, if_pos hpart, List.nil_append]
    · refine .done ?_ (by rw [hread, if_neg hpart])
      rw [accept_if_true h hdot]
      exact consume_if_false hus hpart
  · refine .done ?_ (baseSegments_of_not_dot s.1 s.2 hdot)
    rw [accept_if_false h hdot, runOn_pure]

theorem runOn_base (toBase : String → Base) {t : Token} (h : Left tokens (t :: ts))
    (ht : t.kind ≠ .endOfFile) (hlimit : tokens.length < limit) :
    (base limit toBase).runOn tokens (t :: ts) =
      outcome tokens (Statement.finishBase toBase t ts) := by
  have hts : Left tokens ts := h.behind ht
  have hend := hts.of_leaves (Statement.baseSegments_leaves t.text t.span ts)
  rw [base, advance_cons_bind h ht, runOn_bind (runOn_baseSegments _ hts hlimit),
    runOn_bind (runOn_finish hend hlimit), runOn_pure, before_outcome, before_outcome,
    List.append_nil]
  rfl

theorem runOn_extending (hasBase : Bool) {keyword : Token} (h : Left tokens (keyword :: ts))
    (hk : keyword.kind ≠ .endOfFile) (hlimit : tokens.length < limit) :
    (extending limit hasBase).runOn tokens ts =
      outcome tokens (Statement.readBase hasBase keyword ts) := by
  have hts : Left tokens ts := h.behind hk
  rw [extending, previous_bind h]
  cases hasBase with
  | true =>
    rw [if_pos rfl, report_bind, runOn_bind_clean (runOn_skipLine hts hlimit), runOn_pure]
    rfl
  | false =>
    obtain ⟨t, ts, rfl⟩ := hts.cons
    have hread : Statement.readBase false keyword (t :: ts) =
        if starts .text (t :: ts) then Statement.finishBase .script t ts
        else if starts .identifier (t :: ts) then Statement.finishBase Base.ofName t ts
        else
          { value := none, rest := Tokens.skipLine (t :: ts)
            faults := [faultHere .missingBase (t :: ts)] } := by
      simp [Statement.readBase, starts, next]
    rw [if_neg Bool.false_ne_true, check_bind hts, hread]
    by_cases htext : starts .text (t :: ts)
    · rw [if_pos htext, if_pos htext, runOn_base _ hts (kind_ne_of_starts htext) hlimit]
    rw [if_neg htext, if_neg htext, check_bind hts]
    by_cases hname : starts .identifier (t :: ts)
    · rw [if_pos hname, if_pos hname, runOn_base _ hts (kind_ne_of_starts hname) hlimit]
    · rw [if_neg hname, if_neg hname, reportHere_bind hts,
        runOn_bind_clean (runOn_skipLine hts hlimit), runOn_pure]
      rfl

theorem runOn_icon (h : Left tokens ts) :
    icon.runOn tokens ts = outcome tokens (Statement.readIcon ts) := by
  by_cases hcomma : starts .comma ts
  · obtain ⟨comma, us, rfl⟩ := h.cons
    have hus : Left tokens us := h.tail hcomma
    obtain ⟨t, us, rfl⟩ := hus.cons
    have hread : Statement.readIcon (comma :: t :: us) =
        if starts .text (t :: us) then { value := some ⟨"icon", [t.text], t.span⟩, rest := us }
        else
          { value := none, rest := t :: us, faults := [faultHere .missingIconPath (t :: us)] } := by
      rw [Statement.readIcon, if_pos hcomma]
      simp [starts, next]
    rw [icon, hread, accept_if_true h hcomma]
    by_cases htext : starts .text (t :: us)
    · rw [if_pos htext]
      exact consume_if_true hus htext
    · rw [if_neg htext]
      exact consume_if_false hus htext
  · rw [icon, Statement.readIcon, if_neg hcomma, accept_if_false h hcomma, runOn_pure]

/-- What stands behind the name and the icon of a class. -/
theorem runOn_headerEnd (hasBase : Bool) (name : String) (span : Span) (icon : Option Tag)
    (h : Left tokens ts) (hlimit : tokens.length < limit) :
    (headerEnd limit hasBase name span icon).runOn tokens ts =
      outcome tokens
        { value := .header name span icon (Statement.readHeaderEnd hasBase ts).value
          rest := (Statement.readHeaderEnd hasBase ts).rest
          faults := (Statement.readHeaderEnd hasBase ts).faults } := by
  obtain ⟨t, ts, rfl⟩ := h.cons
  have hread : Statement.readHeaderEnd hasBase (t :: ts) =
      if starts (.keyword .extending) (t :: ts) then Statement.readBase hasBase t ts
      else
        { value := none, rest := (Tokens.finish (t :: ts)).rest
          faults := (Tokens.finish (t :: ts)).faults } := by
    simp [Statement.readHeaderEnd, starts, next]
  rw [headerEnd, hread]
  by_cases hextending : starts (.keyword .extending) (t :: ts)
  · have hbase := runOn_extending hasBase h (kind_ne_of_starts hextending) hlimit
    rw [if_pos hextending, accept_if_true h hextending]
    refine (runOn_bind hbase _).trans ?_
    rw [runOn_pure, before_outcome, List.append_nil]
  · rw [if_neg hextending, accept_if_false h hextending,
      runOn_bind (runOn_finish h hlimit), runOn_pure, before_outcome, List.append_nil]

theorem runOn_header (hasName hasBase : Bool) {keyword : Token} (h : Left tokens (keyword :: ts))
    (hk : keyword.kind ≠ .endOfFile) (hlimit : tokens.length < limit) :
    (header limit hasName hasBase).runOn tokens ts =
      outcome tokens (Statement.readHeader hasName hasBase keyword ts) := by
  have hts : Left tokens ts := h.behind hk
  rw [header, previous_bind h]
  cases hasName with
  | true =>
    rw [if_pos rfl, report_bind, runOn_bind_clean (runOn_skipLine hts hlimit), runOn_pure]
    rfl
  | false =>
    obtain ⟨t, ts, rfl⟩ := hts.cons
    have hread : Statement.readHeader false hasBase keyword (t :: ts) =
        if starts .identifier (t :: ts) then
          { value := .header t.text (keyword.span.hull t.span) (Statement.readIcon ts).value
              (Statement.readHeaderEnd hasBase (Statement.readIcon ts).rest).value
            rest := (Statement.readHeaderEnd hasBase (Statement.readIcon ts).rest).rest
            faults := (Statement.readIcon ts).faults ++
              (Statement.readHeaderEnd hasBase (Statement.readIcon ts).rest).faults }
        else
          { value := .blank, rest := Tokens.skipLine (t :: ts)
            faults := [faultHere .missingClassName (t :: ts)] } := by
      simp [Statement.readHeader, starts, next]
    rw [if_neg Bool.false_ne_true, hread]
    by_cases hname : starts .identifier (t :: ts)
    · have hrest : Left tokens ts := hts.tail hname
      have hicon := hrest.of_leaves (Statement.readIcon_leaves ts)
      rw [consume_if_true hts hname, if_pos hname]
      refine (runOn_bind (runOn_icon hrest) _).trans ?_
      rw [runOn_headerEnd _ _ _ _ hicon hlimit, before_outcome]
      rfl
    · rw [consume_if_false hts hname, if_neg hname,
        runOn_bind_clean (runOn_skipLine hts hlimit), runOn_pure]
      rfl

end ScriptBridge.Walk
