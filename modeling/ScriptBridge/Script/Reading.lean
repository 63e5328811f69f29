import ScriptBridge.Script.Fault
import ScriptBridge.Script.Token

/-! Reading from a list of tokens. A reading is a value, the faults found on the
way, and the tokens that are left. Reading never goes past the end of the script,
and a script without tokens counts as ended. Proved: skipping leaves an end part of
the tokens and takes no end of the script. -/

namespace ScriptBridge

structure Reading (α : Type) where
  value : α
  rest : List Token
  faults : List LocatedFault := []

namespace Tokens

/-- The token that comes next. -/
def next (ts : List Token) : Token := ts.headD .endOfFile

/-- The token `n` places on, or the last one if there are not so many. -/
def ahead (ts : List Token) (n : Nat) : Token :=
  match ts[n]? with
  | some t => t
  | none => ts.getLastD .endOfFile

def starts (kind : TokenKind) (ts : List Token) : Bool := (next ts).kind == kind

def endsLine (ts : List Token) : Bool := (next ts).endsLine

/-- The fault of not finding at this place what has to stand there. -/
def faultHere (fault : Fault) (ts : List Token) : LocatedFault := ⟨fault, (next ts).span⟩

/-! ### Skipping -/

/-- What follows the next line end. -/
def skipLine : List Token → List Token
  | [] => []
  | t :: ts =>
    if t.kind = .endOfFile then t :: ts
    else if t.kind = .newline then ts
    else skipLine ts

/-- The change that a token makes to the number of open brackets. -/
def nesting (t : Token) : Int :=
  match t.kind with
  | .opening _ => 1
  | .closing _ => -1
  | _ => 0

/-- Stops at the end of the line, and before that at the first token outside
brackets at which `stop` holds. -/
def skipTo (stop : Token → Bool) : Int → List Token → List Token
  | _, [] => []
  | depth, t :: ts =>
    if t.endsLine || (depth == 0 && stop t) then t :: ts
    else skipTo stop (depth + nesting t) ts

/-- Skips an expression in a list of arguments. -/
def skipExpression : List Token → List Token :=
  skipTo (fun t => t.kind == .comma || t.kind == .closing .paren || t.isSemicolon) 0

/-- A semicolon ends a statement without ending the line. -/
def endStatement (ts : List Token) : List Token :=
  if (next ts).isSemicolon then ts.tail else skipLine ts

/-- Skips the rest of a statement, whatever stands in it. -/
def skipStatement (ts : List Token) : List Token := endStatement (skipTo Token.isSemicolon 0 ts)

/-- Ends a statement in which nothing more may stand. -/
def finish (ts : List Token) : Reading Unit where
  value := ()
  rest := endStatement ts
  faults :=
    if (next ts).isSemicolon || endsLine ts then [] else [faultHere .trailingTokens ts]

/-! ### What reading leaves -/

/-- `rest` is what remains of `ts` after taking tokens none of which ends the script. -/
inductive Leaves : List Token → List Token → Prop where
  | all (ts : List Token) : Leaves ts ts
  | step {t : Token} {ts rest : List Token} (h : t.kind ≠ .endOfFile) (r : Leaves ts rest) :
      Leaves (t :: ts) rest

namespace Leaves

variable {ts us rest : List Token}

theorem trans (h : Leaves ts us) (k : Leaves us rest) : Leaves ts rest := by
  induction h with
  | all => exact k
  | step hk _ ih => exact .step hk (ih k)

theorem length_le (h : Leaves ts rest) : rest.length ≤ ts.length := by
  induction h with
  | all => exact Nat.le_refl _
  | step _ _ ih => exact Nat.le_succ_of_le ih

theorem tail {kind : TokenKind} (h : starts kind ts) (hk : kind ≠ .endOfFile) :
    Leaves ts ts.tail := by
  cases ts with
  | nil => exact .all _
  | cons t r =>
    refine .step ?_ (.all r)
    have : t.kind = kind := by simpa [starts, next] using h
    exact this ▸ hk

theorem tail_of_isSemicolon (h : (next ts).isSemicolon) : Leaves ts ts.tail := by
  simp only [Token.isSemicolon, Bool.and_eq_true] at h
  have hs : starts .operator ts := h.1
  exact tail hs (by decide)

end Leaves

theorem skipLine_leaves (ts : List Token) : Leaves ts (skipLine ts) := by
  fun_induction skipLine ts with
  | case1 => exact .all _
  | case2 => exact .all _
  | case3 t ts h _ => exact .step h (.all _)
  | case4 t ts h _ ih => exact .step h ih

theorem skipTo_leaves (stop : Token → Bool) (depth : Int) (ts : List Token) :
    Leaves ts (skipTo stop depth ts) := by
  fun_induction skipTo stop depth ts with
  | case1 => exact .all _
  | case2 => exact .all _
  | case3 depth t ts h ih =>
    refine .step (fun he => h ?_) ih
    simp [Token.endsLine, he]

theorem skipExpression_leaves (ts : List Token) : Leaves ts (skipExpression ts) :=
  skipTo_leaves _ _ _

theorem endStatement_leaves (ts : List Token) : Leaves ts (endStatement ts) := by
  unfold endStatement
  split
  · exact .tail_of_isSemicolon ‹_›
  · exact skipLine_leaves _

theorem skipStatement_leaves (ts : List Token) : Leaves ts (skipStatement ts) :=
  (skipTo_leaves _ _ _).trans (endStatement_leaves _)

theorem finish_leaves (ts : List Token) : Leaves ts (finish ts).rest := endStatement_leaves _

end Tokens

end ScriptBridge
