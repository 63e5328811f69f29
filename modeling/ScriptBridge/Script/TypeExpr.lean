import ScriptBridge.Script.Reading

/-! Type expressions: a dotted name, or a dotted name with a bracketed list of type
expressions. The written form puts a comma and a blank between arguments and
nothing elsewhere. Reading recurs through the list of tokens, which every step
shortens. -/

namespace ScriptBridge

inductive TypeExpr where
  | name (path : String)
  | applied (path : String) (arguments : List TypeExpr)

namespace TypeExpr

/-- The written form. -/
def text : TypeExpr → String
  | name path => path
  | applied path arguments => path ++ "[" ++ ", ".intercalate (arguments.map text) ++ "]"

open Tokens

/-- The segments that extend a name, each a dot and an identifier. -/
def segments (path : String) (span : Span) : List Token → (String × Span) × List Token
  | dot :: t :: ts =>
    if dot.kind = .dot && t.kind = .identifier then
      segments (path ++ "." ++ t.text) (span.hull t.span) ts
    else ((path, span), dot :: t :: ts)
  | ts => ((path, span), ts)

theorem segments_leaves (path : String) (span : Span) (ts : List Token) :
    Leaves ts (segments path span ts).2 := by
  fun_induction segments path span ts with
  | case1 path span dot t ts h ih =>
    simp only [Bool.and_eq_true, decide_eq_true_eq] at h
    exact .step (by simp [h.1]) (.step (by simp [h.2]) ih)
  | case2 => exact .all _
  | case3 => exact .all _

/-- The end of a list of arguments: the closing bracket. -/
def closeArguments (ts : List Token) : Reading (Option Span) :=
  match ts with
  | t :: r =>
    if t.kind = .closing .square then { value := some t.span, rest := r }
    else { value := none, rest := t :: r, faults := [faultHere .unclosedElementType ts] }
  | [] => { value := none, rest := [], faults := [faultHere .unclosedElementType ts] }

theorem closeArguments_leaves (ts : List Token) : Leaves ts (closeArguments ts).rest := by
  unfold closeArguments
  split
  · split
    · next h => exact .step (by simp [h]) (.all _)
    · exact .all _
  · exact .all _

/-- A reading that leaves a part of `ts`. -/
abbrev Within (α : Type) (ts : List Token) := { r : Reading α // Leaves ts r.rest }

mutual

/-- A type expression, with the tokens it takes. Without a closing bracket the
missing bracket is reported; anything else that is no type is left to the caller. -/
def readWithin (ts : List Token) : Within (Option (TypeExpr × Span)) ts :=
  match ts with
  | [] => ⟨{ value := none, rest := [] }, .all _⟩
  | t :: r =>
    if ht : t.kind = .identifier then
      let s := segments t.text t.span r
      have hs : Leaves (t :: r) s.2 := .step (by simp [ht]) (segments_leaves _ _ _)
      if hb : starts (.opening .square) s.2 then
        have hr : Leaves s.2 s.2.tail := .tail hb (by decide)
        let a := readArguments s.2.tail
        ⟨{ value := a.1.value.map fun v => (applied s.1.1 v.1, s.1.2.hull v.2)
           rest := a.1.rest
           faults := a.1.faults },
          (hs.trans hr).trans a.2⟩
      else ⟨{ value := some (name s.1.1, s.1.2), rest := s.2 }, hs⟩
    else ⟨{ value := none, rest := t :: r }, .all _⟩
termination_by (ts.length, 0)
decreasing_by
  refine Prod.Lex.left _ _ (Nat.lt_succ_of_le ?_)
  exact ((segments_leaves t.text t.span r).trans hr).length_le

/-- The arguments after an opening bracket, and the span of the closing one. -/
def readArguments (ts : List Token) : Within (Option (List TypeExpr × Span)) ts :=
  if starts (.closing .square) ts || endsLine ts then
    let c := closeArguments ts
    ⟨{ value := c.value.map fun s => ([], s), rest := c.rest, faults := c.faults },
      closeArguments_leaves ts⟩
  else
    let e := readWithin ts
    match e.1.value with
    | none => ⟨{ value := none, rest := e.1.rest, faults := e.1.faults }, e.2⟩
    | some v =>
      let m := readMore e.1.rest
      ⟨{ value := m.1.value.map fun w => (v.1 :: w.1, w.2)
         rest := m.1.rest
         faults := e.1.faults ++ m.1.faults },
        e.2.trans m.2⟩
termination_by (ts.length, 2)
decreasing_by
  · exact Prod.Lex.right _ (by decide)
  · rcases Nat.lt_or_eq_of_le e.2.length_le with h | h
    · exact Prod.Lex.left _ _ h
    · rw [h]
      exact Prod.Lex.right _ (by decide)

/-- The arguments after the first, each behind a comma. -/
def readMore (ts : List Token) : Within (Option (List TypeExpr × Span)) ts :=
  if starts (.closing .square) ts || endsLine ts then
    let c := closeArguments ts
    ⟨{ value := c.value.map fun s => ([], s), rest := c.rest, faults := c.faults },
      closeArguments_leaves ts⟩
  else
    match ts with
    | [] => ⟨{ value := none, rest := [] }, .all _⟩
    | t :: r =>
      if ht : t.kind = .comma then
        have hr : Leaves (t :: r) r := .step (by simp [ht]) (.all _)
        let e := readWithin r
        match e.1.value with
        | none => ⟨{ value := none, rest := e.1.rest, faults := e.1.faults }, hr.trans e.2⟩
        | some v =>
          let m := readMore e.1.rest
          ⟨{ value := m.1.value.map fun w => (v.1 :: w.1, w.2)
             rest := m.1.rest
             faults := e.1.faults ++ m.1.faults },
            (hr.trans e.2).trans m.2⟩
      else ⟨{ value := none, rest := t :: r }, .all _⟩
termination_by (ts.length, 1)
decreasing_by
  · exact Prod.Lex.left _ _ (Nat.lt_succ_self _)
  · exact Prod.Lex.left _ _ (Nat.lt_succ_of_le e.2.length_le)

end

/-- Reads a type expression with its span, if there is one. -/
def read (ts : List Token) : Reading (Option (TypeExpr × Span)) := (readWithin ts).1

theorem read_leaves (ts : List Token) : Leaves ts (read ts).rest := (readWithin ts).2

end TypeExpr

end ScriptBridge
