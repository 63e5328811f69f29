import Mathlib
import ScriptBridge.Proofs.Script.WalkDeclarations

/-! Walking over a whole script. The statements of a script are walked over one after another, and
tags that stand one behind the other in one go. What `Draft.read` brings from a draft on stays the
same from turn to turn, and every turn takes a token, so the walk is over after as many turns as
there are tokens. Proved: with no semicolon outside brackets in the hint of an `export`, a walk over
tokens that end with an end of the script stays inside the list, comes to the first end of the
script, and brings the class that is read from the tokens. With such a semicolon it goes on for
ever. -/

namespace ScriptBridge

open Tokens (next starts endsLine Leaves)

/-! ### Statement after statement -/

namespace Draft

variable {d : Draft} {t : Token} {ts : List Token} {r q : Reading Draft}

/-- What a statement is in the class that has been read so far. -/
def statement (d : Draft) (t : Token) (ts : List Token) : Reading Statement :=
  Statement.read (d.script.name != "") d.script.base.isSome t ts

/-! Most tokens that start no declaration are passed over. -/

theorem statement_newline (h : t.kind = .newline) :
    d.statement t ts = { value := .blank, rest := ts } := Statement.read_newline h

theorem statement_indent (h : t.kind = .indent) :
    d.statement t ts = { value := .blank, rest := Tokens.skipLine ts } := Statement.read_indent h

theorem statement_tag (h : t.kind = .tag) :
    d.statement t ts = Statement.map .tag (Statement.readTag t ts) := Statement.read_tag h

theorem statement_semicolon (h : t.isSemicolon) :
    d.statement t ts = { value := .blank, rest := ts } := Statement.read_semicolon h

theorem read_end (d : Draft) (h : t.kind = .endOfFile) :
    d.read (t :: ts) = { value := d, rest := t :: ts } := by
  rw [Draft.read, if_pos h]

theorem read_cons (d : Draft) (h : t.kind ≠ .endOfFile) :
    d.read (t :: ts) =
      let s := d.statement t ts
      let r := (d.record s.value).read s.rest
      { value := r.value, rest := r.rest, faults := s.faults ++ r.faults } := by
  rw [Draft.read, if_neg h]
  rfl

/-- Reading goes up to the end of the script. -/
theorem starts_read (d : Draft) (ts : List Token) : starts .endOfFile (d.read ts).rest := by
  fun_induction Draft.read d ts with
  | case1 => rfl
  | case2 d t ts h => exact beq_iff_eq.2 h
  | case3 d t ts _ s r ih => exact ih

theorem read_leaves (d : Draft) (ts : List Token) : Leaves ts (d.read ts).rest := by
  fun_induction Draft.read d ts with
  | case1 => exact .all _
  | case2 => exact .all _
  | case3 d t ts h s r ih => exact .step h ((Statement.read_leaves _ _ t ts).trans ih)

/-- The hints in parentheses that follow the word `export` where a statement starts with it. Each
is given with all the tokens behind it. -/
def hints (d : Draft) : List Token → List (List Token)
  | [] => []
  | t :: ts =>
    if t.kind = .endOfFile then []
    else
      let more := hints (d.record (d.statement t ts).value) (d.statement t ts).rest
      if t.kind = .identifier ∧ t.text = "export" ∧ starts (.opening .paren) ts then ts.tail :: more
      else more
termination_by ts => ts.length
decreasing_by exact Nat.lt_succ_of_le (Statement.read_leaves _ _ t ts).length_le

theorem hints_end (d : Draft) (h : t.kind = .endOfFile) : d.hints (t :: ts) = [] := by
  rw [hints, if_pos h]

theorem hints_cons (d : Draft) (h : t.kind ≠ .endOfFile) :
    d.hints (t :: ts) =
      (if t.kind = .identifier ∧ t.text = "export" ∧ starts (.opening .paren) ts then [ts.tail]
        else []) ++
      (d.record (d.statement t ts).value).hints (d.statement t ts).rest := by
  rw [hints, if_neg h]
  dsimp only
  split <;> rfl

/-- Reading on from a draft comes to another, `r.value`, with no semicolon in a hint before. -/
structure Comes (d : Draft) (ts : List Token) (r : Reading Draft) : Prop where
  leaves : Leaves ts r.rest
  read : d.read ts =
    { value := (r.value.read r.rest).value, rest := (r.value.read r.rest).rest
      faults := r.faults ++ (r.value.read r.rest).faults }
  hints : ∃ front, d.hints ts = front ++ r.value.hints r.rest ∧
    ∀ us ∈ front, ¬Walk.SemicolonIn 0 us

namespace Comes

theorem here (d : Draft) (ts : List Token) : d.Comes ts { value := d, rest := ts } where
  leaves := .all ts
  read := rfl
  hints := ⟨[], rfl, nofun⟩

theorem statement (d : Draft) (h : t.kind ≠ .endOfFile) (hhint : Walk.HintEnds t ts) :
    d.Comes (t :: ts)
      { value := d.record (d.statement t ts).value
        rest := (d.statement t ts).rest
        faults := (d.statement t ts).faults } where
  leaves := .step h (Statement.read_leaves _ _ t ts)
  read := read_cons d h
  hints := by
    refine ⟨_, hints_cons d h, fun us hus => ?_⟩
    split at hus
    · next hexport =>
      obtain ⟨hk, htext, hopen⟩ := hexport
      rw [List.mem_singleton.1 hus]
      exact hhint hk htext hopen
    · cases hus

theorem trans (h : d.Comes ts r) (k : r.value.Comes r.rest q) :
    d.Comes ts { q with faults := r.faults ++ q.faults } where
  leaves := h.leaves.trans k.leaves
  read := by rw [h.read, k.read, List.append_assoc]
  hints := by
    obtain ⟨front, hfront, hends⟩ := h.hints
    obtain ⟨back, hback, hends'⟩ := k.hints
    refine ⟨front ++ back, by rw [hfront, hback, List.append_assoc], fun us hus => ?_⟩
    exact (List.mem_append.1 hus).elim (hends us) (hends' us)

end Comes

end Draft

namespace Walk

variable {tokens ts : List Token} {limit : Nat} {d : Draft}

/-- Tags that stand one behind the other are read one after another. -/
theorem exists_runOn_tags (d : Draft) (h : Left tokens ts) (hlimit : tokens.length < limit) :
    ∃ r, (tags limit d).runOn tokens ts = outcome tokens r ∧
      d.Comes ts r ∧ (starts .tag ts → r.rest.length < ts.length) := by
  refine exists_runOn_loop
    (P := fun (d : Draft) ts r => d.Comes ts r ∧ (starts .tag ts → r.rest.length < ts.length))
    (I := fun _ _ => True) (fun d ts _ h => ?_) trivial h (h.length_lt hlimit)
  by_cases htag : starts .tag ts
  · obtain ⟨t, ts, rfl⟩ := h.cons
    have he := kind_ne_of_starts htag
    have hk : t.kind = .tag := kind_of_starts htag
    have hcomes : d.Comes (t :: ts) _ := .statement d he (by simp [HintEnds, hk])
    rw [Draft.statement_tag hk] at hcomes
    have hless : (Statement.readTag t ts).rest.length < (t :: ts).length :=
      Nat.lt_succ_of_le (Statement.readTag_leaves t ts).length_le
    refine .again (d.record (.tag (Statement.readTag t ts).value)) (Statement.readTag t ts).rest
      (Statement.readTag t ts).faults ?_ hless (h.of_leaves hcomes.leaves) trivial ?_
    · rw [check_bind h, if_pos htag, runOn_bind (runOn_tag h he hlimit), runOn_pure,
        before_outcome, List.append_nil]
    · rintro r ⟨hr, -⟩
      exact ⟨hcomes.trans hr, fun _ => Nat.lt_of_le_of_lt hr.leaves.length_le hless⟩
  · refine .done (r := { value := d, rest := ts }) ?_ ⟨.here d ts, fun hs => absurd hs htag⟩
    rw [check_bind h, if_neg htag, runOn_pure]

/-- A turn takes a token at least, and comes to another draft. -/
theorem exists_runOn_statementTurn (d : Draft) {t : Token} (h : Left tokens (t :: ts))
    (he : t.kind ≠ .endOfFile) (hhint : HintEnds t ts) (hlimit : tokens.length < limit) :
    ∃ r : Reading Draft, (statementTurn limit d).runOn tokens (t :: ts) =
        outcome tokens { value := .again r.value, rest := r.rest, faults := r.faults } ∧
      d.Comes (t :: ts) r ∧ r.rest.length < (t :: ts).length := by
  have hcomes : d.Comes (t :: ts) _ := .statement d he hhint
  have hless : (d.statement t ts).rest.length < (t :: ts).length :=
    Nat.lt_succ_of_le (Statement.read_leaves _ _ t ts).length_le
  have hend : ¬starts .endOfFile (t :: ts) := mt beq_iff_eq.1 he
  rw [statementTurn, atEnd_bind h, if_neg hend]
  by_cases hnewline : starts .newline (t :: ts)
  · refine ⟨_, ?_, hcomes, hless⟩
    rw [accept_if_true h hnewline, runOn_pure, Draft.statement_newline (kind_of_starts hnewline)]
    rfl
  have hline : t.endsLine = false := Bool.or_eq_false_iff.2
    ⟨beq_eq_false_iff_ne.2 he, Bool.eq_false_iff.2 hnewline⟩
  rw [accept_if_false h hnewline, check_bind h]
  by_cases hindent : starts .indent (t :: ts)
  · refine ⟨_, ?_, hcomes, hless⟩
    rw [if_pos hindent, runOn_bind_clean (runOn_skipLine h hlimit), runOn_pure,
      Draft.statement_indent (kind_of_starts hindent), skipLine_cons hline]
    rfl
  rw [if_neg hindent, check_bind h]
  by_cases htag : starts .tag (t :: ts)
  · obtain ⟨r, hrun, hcomes, hless⟩ := exists_runOn_tags d h hlimit
    refine ⟨r, ?_, hcomes, hless htag⟩
    rw [if_pos htag, runOn_bind hrun, runOn_pure, before_outcome, List.append_nil]
  rw [if_neg htag, atSemicolon_bind h]
  refine ⟨_, ?_, hcomes, hless⟩
  by_cases hsemicolon : (next (t :: ts)).isSemicolon
  · rw [if_pos hsemicolon, advance_cons_bind h he, runOn_pure,
      Draft.statement_semicolon (t := t) hsemicolon]
    rfl
  · have hstarts : StartsStatement t :=
      ⟨hline, mt beq_iff_eq.2 hindent, mt beq_iff_eq.2 htag, Bool.eq_false_iff.2 hsemicolon⟩
    rw [if_neg hsemicolon, runOn_bind (runOn_statement _ _ h hstarts hlimit hhint), runOn_pure,
      before_outcome, List.append_nil]
    rfl

theorem runOn_statements (d : Draft) (h : Left tokens ts) (hlimit : tokens.length < limit)
    (hhints : ∀ us ∈ d.hints ts, ¬SemicolonIn 0 us) :
    (statements limit d).runOn tokens ts = outcome tokens (d.read ts) := by
  refine runOn_loop (R := Draft.read) (I := fun d ts => ∀ us ∈ d.hints ts, ¬SemicolonIn 0 us)
    (fun d ts hhints h => ?_) hhints h (h.length_lt hlimit)
  obtain ⟨t, ts, rfl⟩ := h.cons
  by_cases he : starts .endOfFile (t :: ts)
  · refine .done ?_ (Draft.read_end d (kind_of_starts he))
    rw [statementTurn, atEnd_bind h, if_pos he, runOn_pure]
  have he : t.kind ≠ .endOfFile := mt beq_iff_eq.2 he
  have hhint : HintEnds t ts := fun hk htext hopen => hhints _ (by
    rw [Draft.hints_cons d he, if_pos ⟨hk, htext, hopen⟩]
    exact List.mem_cons_self)
  obtain ⟨r, hrun, hcomes, hless⟩ := exists_runOn_statementTurn d h he hhint hlimit
  obtain ⟨front, hfront, -⟩ := hcomes.hints
  refine .again r.value r.rest r.faults hrun hless (h.of_leaves hcomes.leaves)
    (fun us hus => hhints us (hfront ▸ List.mem_append_right front hus)) ?_
  rintro _ rfl
  exact hcomes.read

/-- An `export` with a semicolon in its hint is not got over. -/
theorem runOn_statementTurn_endless (d : Draft) {t : Token} (h : Left tokens (t :: ts))
    (hhint : ¬HintEnds t ts) (hlimit : tokens.length < limit) :
    (statementTurn limit d).runOn tokens (t :: ts) = .error .endless := by
  obtain ⟨hk, htext, hopen, hsemicolon⟩ : t.kind = .identifier ∧ t.text = "export" ∧
      starts (.opening .paren) ts ∧ SemicolonIn 0 ts.tail := by
    simpa only [HintEnds, Classical.not_imp, Classical.not_not] using hhint
  have he : t.kind ≠ .endOfFile := by simp [hk]
  have hstarts (kind : TokenKind) (hne : kind ≠ .identifier) : ¬starts kind (t :: ts) := fun hs =>
    hne ((kind_of_starts hs).symm.trans hk)
  have hword : (next (t :: ts)).kind = .identifier := hk
  have hmodifier : Statement.modifiers.contains t.text := by rw [htext]; rfl
  have htool : ¬(next (t :: ts)).text == "tool" := by simp [next, htext]
  have hendless := runOn_exportHint_endless (h.behind he) hlimit hopen hsemicolon
  rw [statementTurn, atEnd_bind h, if_neg (hstarts _ (by simp)),
    accept_if_false h (hstarts _ (by simp)), check_bind h, if_neg (hstarts _ (by simp)),
    check_bind h, if_neg (hstarts _ (by simp)), atSemicolon_bind h,
    if_neg (fun hs => hstarts _ (by simp) (starts_of_isSemicolon hs))]
  refine runOn_bind_error ?_
  rw [statement, peek_bind h, hword]
  dsimp only
  rw [word, peek_bind h, if_neg htool]
  change (modifier limit t).runOn tokens (t :: ts) = _
  rw [modifier, if_pos hmodifier, advance_cons_bind h he, if_pos (by simp [htext])]
  exact runOn_bind_error hendless

/-- With a semicolon in a hint, statements are walked over for ever. -/
theorem runOn_statements_endless (d : Draft) (h : Left tokens ts) (hlimit : tokens.length < limit)
    (hhint : ∃ us ∈ d.hints ts, SemicolonIn 0 us) :
    (statements limit d).runOn tokens ts = .error .endless := by
  suffices hloop : ∀ turns, (loop turns (statementTurn limit) d).runOn tokens ts = .error .endless
    from hloop limit
  intro turns
  induction turns generalizing d ts with
  | zero => rfl
  | succ turns ih =>
    obtain ⟨us, hus, hsemicolon⟩ := hhint
    obtain ⟨t, ts, rfl⟩ := h.cons
    have he : t.kind ≠ .endOfFile := fun he => by
      rw [Draft.hints_end d he] at hus
      cases hus
    rw [loop]
    by_cases hends : HintEnds t ts
    · obtain ⟨r, hrun, hcomes, -⟩ := exists_runOn_statementTurn d h he hends hlimit
      obtain ⟨front, hfront, hfree⟩ := hcomes.hints
      rw [hfront] at hus
      have hrest : us ∈ r.value.hints r.rest :=
        (List.mem_append.1 hus).resolve_left fun hus => hfree us hus hsemicolon
      rw [runOn_bind hrun]
      change before _ ((loop turns (statementTurn limit) r.value).runOn tokens r.rest) = _
      rw [ih _ (h.of_leaves hcomes.leaves) ⟨us, hrest, hsemicolon⟩]
      rfl
    · exact runOn_bind_error (runOn_statementTurn_endless d h hends hlimit)

/-! ### The end of the script -/

/-- The first end of the script is where taking tokens comes to an end. -/
theorem findIdx_endOfFile {us : List Token} (hl : Leaves ts us) (hend : starts .endOfFile us)
    (hus : us ≠ []) : ts.findIdx (·.kind == .endOfFile) = ts.length - us.length := by
  induction hl with
  | all ts =>
    obtain ⟨t, ts, rfl⟩ := List.exists_cons_of_ne_nil hus
    rw [List.findIdx_cons, kind_of_starts hend, Nat.sub_self]
    rfl
  | @step t ts us hk hl ih =>
    have hle := hl.length_le
    rw [List.findIdx_cons, beq_eq_false_iff_ne.2 hk, cond_false, ih hend hus, List.length_cons]
    omega

theorem left_self (h : ∃ t, tokens.getLast? = some t ∧ t.kind = .endOfFile) :
    Left tokens tokens := by
  obtain ⟨t, ht, hk⟩ := h
  exact ⟨List.suffix_refl tokens, t, List.mem_of_getLast? ht, hk⟩

/-- If the last token is an end of the script and no hint of an `export` has a semicolon in it, then
the walk comes to the first end of the script and brings the class that is read. It has asked for no
token outside the list, and no loop has taken more turns than a number above that of the tokens. -/
theorem run_script (path : String) (hend : ∃ t, tokens.getLast? = some t ∧ t.kind = .endOfFile)
    (hhints : ∀ us ∈ Draft.hints { script := { path } } tokens, ¬SemicolonIn 0 us)
    (hlimit : tokens.length < limit) :
    (script limit path).run tokens 0 =
      .ok
        { value := (ScriptClass.ofTokens path tokens).1
          place := tokens.findIdx (·.kind == .endOfFile)
          faults := (ScriptClass.ofTokens path tokens).2 } := by
  have h := left_self hend
  have hleaves := Draft.read_leaves { script := { path } } tokens
  have hplace := findIdx_endOfFile hleaves (Draft.starts_read _ _)
    (List.ne_nil_of_length_pos (h.of_leaves hleaves).length_pos)
  have hrun : (script limit path).runOn tokens tokens =
      outcome tokens
        { value := (Draft.read { script := { path } } tokens).value.finish
          rest := (Draft.read { script := { path } } tokens).rest
          faults := (Draft.read { script := { path } } tokens).faults } := by
    rw [script, runOn_bind (runOn_statements _ h hlimit hhints), runOn_pure, before_outcome,
      List.append_nil]
  rw [runOn, placeOf, Nat.sub_self] at hrun
  rw [hrun, hplace]
  rfl

/-- Tokens with a semicolon inside brackets in a hint, and with tokens behind the end. -/
def hinted : List Token :=
  [{ kind := .identifier, text := "export" }, { kind := .opening .paren },
    { kind := .opening .square }, { kind := .operator, text := ";" }, { kind := .closing .square },
    { kind := .closing .paren }, { kind := .keyword .var },
    { kind := .identifier, text := "speed" }, { kind := .newline }, { kind := .endOfFile },
    { kind := .identifier }, { kind := .endOfFile }]

theorem run_script_hinted :
    (∃ t, hinted.getLast? = some t ∧ t.kind = .endOfFile) ∧
      (∀ us ∈ Draft.hints { script := { path := "speed.gd" } } hinted, ¬SemicolonIn 0 us) ∧
      hinted.length < 13 ∧
      (script 13 "speed.gd").run hinted 0 =
        .ok
          { value := (ScriptClass.ofTokens "speed.gd" hinted).1
            place := 9
            faults := (ScriptClass.ofTokens "speed.gd" hinted).2 } := by
  have hend : ∃ t, hinted.getLast? = some t ∧ t.kind = .endOfFile := ⟨_, rfl, rfl⟩
  have hread : Draft.hints { script := { path := "speed.gd" } } hinted = [hinted.drop 2] := by cbv
  have hhints (us) (hus : us ∈ Draft.hints { script := { path := "speed.gd" } } hinted) :
      ¬SemicolonIn 0 us := by
    rw [hread, List.mem_singleton] at hus
    rw [hus, semicolonIn_iff]
    decide
  have hlimit : hinted.length < 13 := by decide
  exact ⟨hend, hhints, hlimit, run_script "speed.gd" hend hhints hlimit⟩

/-- With a semicolon in a hint no limit is enough. -/
theorem run_script_endless (path : String)
    (hend : ∃ t, tokens.getLast? = some t ∧ t.kind = .endOfFile) (hlimit : tokens.length < limit)
    (hhint : ∃ us ∈ Draft.hints { script := { path } } tokens, SemicolonIn 0 us) :
    (script limit path).run tokens 0 = .error .endless := by
  have hrun : (script limit path).runOn tokens tokens = .error .endless := by
    rw [script]
    exact runOn_bind_error (runOn_statements_endless _ (left_self hend) hlimit hhint)
  rwa [runOn, placeOf, Nat.sub_self] at hrun

end Walk

/-! ### What a script yields -/

theorem Lexed.exists_getLast?_ofText (source : String) :
    ∃ t, (ofText source).tokens.getLast? = some t ∧ t.kind = .endOfFile :=
  ⟨_, List.getLast?_concat, rfl⟩

namespace ScriptClass

/-- What the script at `path` yields if it is walked over. The walk over its tokens has to come to
an end, as soon as its loops have turns enough; otherwise the script yields nothing at all. -/
def Yields (path source : String) (result : Option ScriptClass × List LocatedFault) : Prop :=
  let lexed := Lexed.ofText source
  ∃ p : Passage ScriptClass,
    (∃ least, ∀ limit, least ≤ limit → (Walk.script limit path).run lexed.tokens 0 = .ok p) ∧
    result =
      (if (lexed.faults ++ p.faults).isEmpty && p.value.name != "" then some p.value else none,
        lexed.faults ++ p.faults)

variable {path source : String} {result : Option ScriptClass × List LocatedFault}

/-- A script yields what is read from it, unless a hint in it has a semicolon outside brackets. -/
theorem yields_iff :
    Yields path source result ↔
      (∀ us ∈ Draft.hints { script := { path } } (Lexed.ofText source).tokens,
        ¬Walk.SemicolonIn 0 us) ∧ ofSource path source = result := by
  have hend := Lexed.exists_getLast?_ofText source
  constructor
  · rintro ⟨p, ⟨least, hrun⟩, rfl⟩
    have henough := hrun (max least ((Lexed.ofText source).tokens.length + 1)) (le_max_left _ _)
    have hlimit := lt_of_lt_of_le (Nat.lt_succ_self _)
      (le_max_right least ((Lexed.ofText source).tokens.length + 1))
    have hhints : ∀ us ∈ Draft.hints { script := { path } } (Lexed.ofText source).tokens,
        ¬Walk.SemicolonIn 0 us := by
      by_contra! hhint
      rw [Walk.run_script_endless path hend hlimit hhint] at henough
      cases henough
    rw [Walk.run_script path hend hhints hlimit] at henough
    obtain rfl := Except.ok.inj henough
    exact ⟨hhints, rfl⟩
  · rintro ⟨hhints, rfl⟩
    exact ⟨_, ⟨_, fun limit hlimit => Walk.run_script path hend hhints hlimit⟩, rfl⟩

end ScriptClass

end ScriptBridge
