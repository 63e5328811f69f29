import ScriptBridge.Proofs.Script.TypeReading
import ScriptBridge.Proofs.Script.WalkReading

/-! Walking over types. A type may have types as arguments, which may have arguments again. Proved:
a type is walked over to where reading it stops, within a limit on the turns, and on how deep types
stand in one another, that is above the number of tokens left. -/

namespace ScriptBridge.Walk

open Tokens (next starts endsLine faultHere Leaves)

variable {tokens ts : List Token} {limit : Nat}

theorem segments_of_not_dot (path : String) (span : Span)
    (h : ¬(starts .dot ts && (Tokens.ahead ts 1).kind == .identifier)) :
    TypeExpr.segments path span ts = ((path, span), ts) := by
  match ts with
  | [] => rfl
  | [t] => rfl
  | dot :: t :: ts => exact if_neg h

theorem runOn_segments (s : String × Span) (h : Left tokens ts) (hlimit : ts.length < limit) :
    (segments limit s).runOn tokens ts =
      outcome tokens
        { value := (TypeExpr.segments s.1 s.2 ts).1
          rest := (TypeExpr.segments s.1 s.2 ts).2 } := by
  refine runOn_loop
    (R := fun (s : String × Span) ts =>
      { value := (TypeExpr.segments s.1 s.2 ts).1, rest := (TypeExpr.segments s.1 s.2 ts).2 })
    (I := fun _ _ => True) (fun s ts _ h => ?_) trivial h hlimit
  by_cases hdot : starts .dot ts
  · by_cases hname : (Tokens.ahead ts 1).kind == .identifier
    · obtain ⟨dot, us, rfl⟩ := h.cons
      have hus : Left tokens us := h.tail hdot
      obtain ⟨t, us, rfl⟩ := hus.cons
      have hpart : starts .identifier (t :: us) := hname
      have hread : TypeExpr.segments s.1 s.2 (dot :: t :: us) =
          TypeExpr.segments (s.1 ++ "." ++ t.text) (s.2.hull t.span) us :=
        if_pos (Bool.and_eq_true_iff.2 ⟨hdot, hname⟩)
      refine .again (s.1 ++ "." ++ t.text, s.2.hull t.span) us [] ?_
        (Nat.lt_succ_of_lt (Nat.lt_succ_self _)) (hus.tail hpart) trivial ?_
      · rw [check_bind h, if_pos hdot, ahead_bind h, if_pos hname,
          advance_cons_bind h (kind_ne_of_starts hdot),
          advance_cons_bind hus (kind_ne_of_starts hpart), runOn_pure]
      · rintro _ rfl
        rw [hread, List.nil_append]
    · refine .done ?_ (by rw [segments_of_not_dot _ _ (by simp [hname])])
      rw [check_bind h, if_pos hdot, ahead_bind h, if_neg hname, runOn_pure]
  · refine .done ?_ (by rw [segments_of_not_dot _ _ (by simp [hdot])])
    rw [check_bind h, if_neg hdot, runOn_pure]

section Arguments
variable {one : Walk (Option (TypeExpr × Span))}

open TypeExpr (argumentList moreArguments endArguments consArgument endsArguments)

/-- What is read of a list of arguments behind some that were read before. -/
def readOn (es : List TypeExpr) (r : Reading (Option (List TypeExpr × Span))) :
    Reading (Option (List TypeExpr × Span)) where
  value := r.value.map fun v => (es ++ v.1, v.2)
  rest := r.rest
  faults := r.faults

theorem runOn_closeArguments (es : List TypeExpr) (h : Left tokens ts) :
    (closeArguments es).runOn tokens ts =
      outcome tokens
        { value := .done (readOn es (endArguments ts)).value
          rest := (endArguments ts).rest, faults := (endArguments ts).faults } := by
  obtain ⟨t, ts, rfl⟩ := h.cons
  by_cases hclose : starts (.closing .square) (t :: ts)
  · have hread : endArguments (t :: ts) = { value := some ([], t.span), rest := ts } := by
      have hk : t.kind = .closing .square := beq_iff_eq.1 hclose
      simp [endArguments, TypeExpr.closeArguments, hk]
    rw [closeArguments, consume_if_true h hclose, runOn_pure, hread]
    simp [readOn, next]
  · have hread : endArguments (t :: ts) =
        { value := none, rest := t :: ts
          faults := [faultHere .unclosedElementType (t :: ts)] } := by
      have hk : t.kind ≠ .closing .square := mt beq_iff_eq.2 hclose
      simp [endArguments, TypeExpr.closeArguments, hk]
    rw [closeArguments, consume_if_false h hclose, runOn_pure, hread]
    rfl

/-- A type that is read takes tokens. -/
theorem length_read_lt {v : TypeExpr × Span} (hv : (TypeExpr.read ts).value = some v) :
    (TypeExpr.read ts).rest.length < ts.length := by
  cases ts with
  | nil =>
    rw [TypeExpr.read_nil] at hv
    cases hv
  | cons t ts =>
    have hsegments := TypeExpr.segments_leaves t.text t.span ts
    rw [TypeExpr.read_cons] at hv ⊢
    refine Nat.lt_succ_of_le ?_
    split at hv
    · next hk =>
      rw [if_pos hk]
      dsimp only
      split
      · next hopen =>
        exact (hsegments.trans ((Leaves.tail hopen (by simp)).trans
          (TypeExpr.readArguments _).2)).length_le
      · exact hsegments.length_le
    · cases hv

/-- What is read of arguments is read of the first and of the others behind it. -/
theorem consArgument_some {e : TypeExpr × Span} (he : (TypeExpr.read ts).value = some e) :
    consArgument ts =
      { value := (moreArguments (TypeExpr.read ts).rest).value.map fun w => (e.1 :: w.1, w.2)
        rest := (moreArguments (TypeExpr.read ts).rest).rest
        faults :=
          (TypeExpr.read ts).faults ++ (moreArguments (TypeExpr.read ts).rest).faults } := by
  rw [consArgument, he]

theorem consArgument_none (he : (TypeExpr.read ts).value = none) :
    consArgument ts =
      { value := none, rest := (TypeExpr.read ts).rest, faults := (TypeExpr.read ts).faults } := by
  rw [consArgument, he]

/-- What is read of a list of arguments, with those that were read before. -/
def readArguments (es : List TypeExpr) (ts : List Token) :
    Reading (Option (List TypeExpr × Span)) :=
  readOn es (if es.isEmpty then argumentList ts else moreArguments ts)

/-- A turn that walks over one more argument. -/
theorem leads_argument {us : List Token} {es : List TypeExpr}
    {w : Walk (Turn (List TypeExpr) (Option (List TypeExpr × Span)))}
    (hone : one.runOn tokens us = outcome tokens (TypeExpr.read us)) (hus : Left tokens us)
    (hlength : us.length ≤ ts.length) (hlimit : ts.length < limit)
    (hrun : w.runOn tokens ts = (argument one es).runOn tokens us)
    (hread : readArguments es ts = readOn es (consArgument us)) :
    Leads tokens (fun es ts r => readArguments es ts = r) (fun _ ts => ts.length < limit) es ts
      w := by
  rw [argument, runOn_bind hone] at hrun
  cases he : (TypeExpr.read us).value with
  | none =>
    rw [he, runOn_pure, before_outcome, List.append_nil] at hrun
    refine .done (r := readOn es (consArgument us)) ?_ hread
    rw [hrun, consArgument_none he]
    rfl
  | some e =>
    have hless := length_read_lt he
    rw [he, runOn_pure, before_outcome, List.append_nil] at hrun
    refine .again (es ++ [e.1]) (TypeExpr.read us).rest (TypeExpr.read us).faults hrun (by omega)
      (hus.of_leaves (TypeExpr.read_leaves us)) (by omega) ?_
    rintro _ rfl
    have hsome : (es ++ [e.1]).isEmpty = false := by simp
    rw [hread, consArgument_some he, readArguments, hsome, if_neg Bool.false_ne_true]
    simp [readOn, Function.comp_def]

theorem runOn_arguments
    (hone : ∀ us, Left tokens us → us.length < limit →
      one.runOn tokens us = outcome tokens (TypeExpr.read us))
    (h : Left tokens ts) (hlimit : ts.length < limit) :
    (arguments one limit []).runOn tokens ts = outcome tokens (argumentList ts) := by
  have hstart : readArguments [] ts = argumentList ts := by
    simp [readArguments, readOn]
  rw [← hstart]
  refine runOn_loop (R := readArguments) (I := fun _ ts => ts.length < limit)
    (fun es ts hlimit h => ?_) hlimit h hlimit
  have hends (he : endsArguments ts) : readArguments es ts = readOn es (endArguments ts) := by
    rw [readArguments, TypeExpr.argumentList_eq, TypeExpr.moreArguments_eq, if_pos he, if_pos he,
      ite_self]
  by_cases hclose : starts (.closing .square) ts
  · refine .done ?_ (hends (Bool.or_eq_true_iff.2 (.inl hclose)))
    rw [check_bind h, if_pos hclose, runOn_closeArguments es h]
    rfl
  by_cases hline : endsLine ts
  · refine .done ?_ (hends (Bool.or_eq_true_iff.2 (.inr hline)))
    rw [check_bind h, if_neg hclose, atLineEnd_bind h, if_pos hline,
      runOn_closeArguments es h]
    rfl
  have he : ¬endsArguments ts := fun he => (Bool.or_eq_true_iff.1 he).elim hclose hline
  by_cases hempty : es.isEmpty
  · refine leads_argument (hone ts h hlimit) h (Nat.le_refl _) hlimit ?_ ?_
    · rw [check_bind h, if_neg hclose, atLineEnd_bind h, if_neg hline, if_pos hempty]
    · rw [readArguments, if_pos hempty, TypeExpr.argumentList_eq, if_neg he]
  obtain ⟨t, ts, rfl⟩ := h.cons
  have hmore : readArguments es (t :: ts) = readOn es
      (if starts .comma (t :: ts) then consArgument ts
        else { value := none, rest := t :: ts }) := by
    rw [readArguments, if_neg hempty, TypeExpr.moreArguments_eq, if_neg he]
    simp [starts, next]
  by_cases hcomma : starts .comma (t :: ts)
  · have hts : Left tokens ts := h.tail hcomma
    refine leads_argument (hone ts hts (by simp at hlimit; omega)) hts (Nat.le_succ _) hlimit ?_ ?_
    · rw [check_bind h, if_neg hclose, atLineEnd_bind h, if_neg hline, if_neg hempty,
        accept_if_true h hcomma]
      rfl
    · rw [hmore, if_pos hcomma]
  · refine .done ?_ (by rw [hmore, if_neg hcomma])
    rw [check_bind h, if_neg hclose, atLineEnd_bind h, if_neg hline, if_neg hempty,
      accept_if_false h hcomma, runOn_pure]
    rfl

end Arguments

/-- A type is walked over within a limit above the number of tokens left. -/
theorem runOn_typeExpr (h : Left tokens ts) (hlimit : ts.length < limit) :
    (typeExpr limit).runOn tokens ts = outcome tokens (TypeExpr.read ts) := by
  induction limit generalizing ts with
  | zero => exact absurd hlimit (Nat.not_lt_zero _)
  | succ limit ih =>
    obtain ⟨t, ts, rfl⟩ := h.cons
    have hlimit : ts.length < limit := Nat.lt_of_succ_lt_succ hlimit
    have hread : TypeExpr.read (t :: ts) =
        if starts .identifier (t :: ts) then
          let s := TypeExpr.segments t.text t.span ts
          if starts (.opening .square) s.2 then
            let a := TypeExpr.argumentList s.2.tail
            { value := a.value.map fun v => (.applied s.1.1 v.1, s.1.2.hull v.2)
              rest := a.rest
              faults := a.faults }
          else { value := some (.name s.1.1, s.1.2), rest := s.2 }
        else { value := none, rest := t :: ts } := by
      rw [TypeExpr.read_cons]
      simp [starts, next]
    rw [typeExpr, check_bind h, hread]
    by_cases hname : starts .identifier (t :: ts)
    · have hleaves := TypeExpr.segments_leaves t.text t.span ts
      have hts : Left tokens ts := h.tail hname
      have hrest := hts.of_leaves hleaves
      rw [if_pos hname, if_pos hname, advance_cons_bind h (kind_ne_of_starts hname),
        runOn_bind_clean (runOn_segments _ hts hlimit)]
      dsimp only
      by_cases hopen : starts (.opening .square) (TypeExpr.segments t.text t.span ts).2
      · have hlength := Statement.length_tail_lt hopen hleaves (by simp)
        have ha := runOn_arguments (fun us hus hlimit => ih hus hlimit)
          (hrest.tail hopen) (Nat.lt_trans hlength hlimit)
        rw [if_pos hopen, accept_if_true hrest hopen, runOn_bind ha,
          runOn_pure, before_outcome, List.append_nil]
      · rw [if_neg hopen, accept_if_false hrest hopen,
          runOn_pure]
    · rw [if_neg hname, if_neg hname, runOn_pure]

end ScriptBridge.Walk
