import ScriptBridge.Script.TypeExpr

/-! The reading of type expressions as plain equations, without the bounds on what is
left that make it end, and its induction: a type is read after its arguments, a list of
arguments after its first element and what follows that. -/

namespace ScriptBridge.TypeExpr

open Tokens

/-- The arguments after an opening bracket. -/
def argumentList (ts : List Token) : Reading (Option (List TypeExpr × Span)) := (readArguments ts).1

/-- The arguments after the first, each behind a comma. -/
def moreArguments (ts : List Token) : Reading (Option (List TypeExpr × Span)) := (readMore ts).1

/-- A list of arguments that ends here. -/
def endArguments (ts : List Token) : Reading (Option (List TypeExpr × Span)) where
  value := (closeArguments ts).value.map fun s => ([], s)
  rest := (closeArguments ts).rest
  faults := (closeArguments ts).faults

/-- An argument and those after it. -/
def consArgument (ts : List Token) : Reading (Option (List TypeExpr × Span)) :=
  match (read ts).value with
  | none => { value := none, rest := (read ts).rest, faults := (read ts).faults }
  | some v =>
    { value := (moreArguments (read ts).rest).value.map fun w => (v.1 :: w.1, w.2)
      rest := (moreArguments (read ts).rest).rest
      faults := (read ts).faults ++ (moreArguments (read ts).rest).faults }

/-- A list of arguments ends at a closing bracket, and at the end of the line. -/
def endsArguments (ts : List Token) : Bool := starts (.closing .square) ts || endsLine ts

theorem read_nil : read [] = { value := none, rest := [] } := by
  rw [read, readWithin]

theorem read_cons (t : Token) (ts : List Token) :
    read (t :: ts) =
      if t.kind = .identifier then
        let s := segments t.text t.span ts
        if starts (.opening .square) s.2 then
          let a := argumentList s.2.tail
          { value := a.value.map fun v => (applied s.1.1 v.1, s.1.2.hull v.2)
            rest := a.rest
            faults := a.faults }
        else { value := some (name s.1.1, s.1.2), rest := s.2 }
      else { value := none, rest := t :: ts } := by
  rw [read, readWithin]
  split
  · dsimp only
    split <;> rfl
  · rfl

theorem argumentList_eq (ts : List Token) :
    argumentList ts = if endsArguments ts then endArguments ts else consArgument ts := by
  rw [argumentList, readArguments, endsArguments]
  split
  · rfl
  · unfold consArgument
    dsimp only
    split <;> simp_all [read, moreArguments]

theorem moreArguments_eq (ts : List Token) :
    moreArguments ts =
      if endsArguments ts then endArguments ts
      else match ts with
        | [] => { value := none, rest := [] }
        | t :: r =>
          if t.kind = .comma then consArgument r else { value := none, rest := t :: r } := by
  rw [moreArguments, readMore.eq_def, endsArguments]
  by_cases he : (starts (.closing .square) ts || endsLine ts) = true
  · rw [if_pos he, if_pos he]
    rfl
  · rw [if_neg he, if_neg he]
    cases ts with
    | nil => rfl
    | cons t r =>
      dsimp only
      by_cases hk : t.kind = .comma
      · rw [dif_pos hk, if_pos hk]
        unfold consArgument
        split <;> simp_all [read, moreArguments]
      · rw [dif_neg hk, if_neg hk]

/-- Induction along the reading of types (`P`), of lists of arguments (`A`) and of the
arguments after the first (`M`). -/
theorem reading_induction {P A M : List Token → Prop} (nil : P [])
    (cons : ∀ t ts, (∀ us, us.length ≤ ts.length → A us) → P (t :: ts))
    (list : ∀ ts, P ts → (∀ us, us.length ≤ ts.length → M us) → A ts)
    (more_nil : M [])
    (more_cons : ∀ t ts, P ts → (∀ us, us.length ≤ ts.length → M us) → M (t :: ts)) :
    (∀ ts, P ts) ∧ (∀ ts, A ts) ∧ ∀ ts, M ts := by
  suffices h : ∀ n (ts : List Token), ts.length ≤ n → P ts ∧ M ts ∧ A ts from
    ⟨fun ts => (h _ ts (Nat.le_refl _)).1, fun ts => (h _ ts (Nat.le_refl _)).2.2,
      fun ts => (h _ ts (Nat.le_refl _)).2.1⟩
  intro n
  induction n with
  | zero =>
    intro ts hts
    obtain rfl : ts = [] := List.length_eq_zero_iff.1 (Nat.le_zero.1 hts)
    refine ⟨nil, more_nil, list [] nil fun us hus => ?_⟩
    obtain rfl : us = [] := List.length_eq_zero_iff.1 (Nat.le_zero.1 hus)
    exact more_nil
  | succ n ih =>
    have hM (ts : List Token) (hts : ts.length ≤ n + 1) : M ts := by
      cases ts with
      | nil => exact more_nil
      | cons t ts =>
        have hts : ts.length ≤ n := Nat.le_of_succ_le_succ hts
        exact more_cons t ts (ih ts hts).1 fun us hus => (ih us (Nat.le_trans hus hts)).2.1
    intro ts hts
    have hP : P ts := by
      cases ts with
      | nil => exact nil
      | cons t ts =>
        have hts : ts.length ≤ n := Nat.le_of_succ_le_succ hts
        exact cons t ts fun us hus => (ih us (Nat.le_trans hus hts)).2.2
    exact ⟨hP, hM ts hts, list ts hP fun us hus => hM us (Nat.le_trans hus hts)⟩

end ScriptBridge.TypeExpr
