import ScriptBridge.Proofs.Script.Brackets
import ScriptBridge.Proofs.Script.TokenOrder
import ScriptBridge.Proofs.Script.WalkToEnd

/-! The stretches of a script that are read, and those that are skipped whatever they hold:
indented lines, the value of a variable, the body of a function, constants, enumerations and inner
classes, default values, and the arguments of tags and export hints. Proved: in a script that
yields a class the brackets that are read are balanced, and if those in each skipped stretch are
balanced, so are all brackets of the script. -/

namespace ScriptBridge

open Tokens

/-- Tokens in a row, which are read one by one, or skipped. -/
inductive Stretch where
  | read (ts : List Token)
  | skipped (ts : List Token)

namespace Stretch

def tokens : Stretch → List Token
  | read ts => ts
  | skipped ts => ts

/-- The tokens that are read. -/
def seen : Stretch → List Token
  | read ts => ts
  | skipped _ => []

/-- All tokens of stretches. -/
def whole (parts : List Stretch) : List Token := parts.flatMap tokens

/-- The tokens of stretches that are read. -/
def inspected (parts : List Stretch) : List Token := parts.flatMap seen

/-- The tokens of `ts` in front of those that are left. -/
def taken (ts rest : List Token) : List Token := ts.take (ts.length - rest.length)

/-- What is read up to `mid`, and skipped from there on. -/
def upTo (ts mid rest : List Token) : List Stretch :=
  [read (taken ts mid), skipped (taken mid rest)]

end Stretch

open Stretch

/-! ### Stretches of statements -/

namespace Statement

/-- Parentheses and what stands in them, as far as `inner` skips it. -/
def enclosedParts (inner : List Token → List Token) (ts : List Token) : List Stretch :=
  if starts (.opening .paren) ts then
    let r := inner ts.tail
    upTo ts ts.tail r ++ if starts (.closing .paren) r then [.read (taken r r.tail)] else []
  else []

/-- What a variable leaves before the rest of its statement is skipped. -/
def variableHead (ts : List Token) : List Token :=
  if starts .identifier ts then
    if starts .colon ts.tail then
      if starts .equals ts.tail.tail then ts.tail.tail.tail else (TypeExpr.read ts.tail.tail).rest
    else if starts .colonEquals ts.tail then ts.tail.tail
    else ts.tail
  else ts

/-- What a parameter leaves before its default value is skipped. -/
def defaultHead (ts : List Token) : List Token :=
  if starts .equals ts || starts .colonEquals ts then ts.tail else ts

def parameterHead (ts : List Token) : List Token :=
  if starts .identifier ts then
    if starts .colon ts.tail then
      if starts .equals ts.tail.tail then defaultHead ts.tail.tail
      else
        let e := TypeExpr.read ts.tail.tail
        if e.value.isSome then defaultHead e.rest else e.rest
    else defaultHead ts.tail
  else ts

def parametersParts (ts : List Token) : List Stretch :=
  if starts (.closing .paren) ts || endsLine ts then []
  else
    let p := readParameter ts
    let here := upTo ts (parameterHead ts) p.rest
    if _h : starts .comma p.rest then
      here ++ .read (taken p.rest p.rest.tail) :: parametersParts p.rest.tail
    else here
termination_by ts.length
decreasing_by exact length_tail_lt _h (readParameter_leaves ts) (by simp)

/-- A name, a list of parameters and what is behind it. -/
def withParameters (ending : List Token → List Stretch) (ts rest : List Token) : List Stretch :=
  if starts .identifier ts && starts (.opening .paren) ts.tail then
    .read (taken ts ts.tail.tail) ::
      (parametersParts ts.tail.tail ++ ending (readParameters ts.tail.tail).rest)
  else [.read (taken ts rest)]

/-- What the head of a function leaves before the body is skipped. -/
def signatureHead (ts : List Token) : List Token :=
  if starts (.closing .paren) ts then
    let r := readReturnType ts.tail
    if starts .colon r.rest then r.rest.tail else r.rest
  else ts

def functionParts (ts rest : List Token) : List Stretch :=
  withParameters (fun us => upTo us (signatureHead us) rest) ts rest

def signalParts (ts rest : List Token) : List Stretch :=
  withParameters (fun us => [.read (taken us rest)]) ts rest

def staticParts (t : Token) (ts rest : List Token) : List Stretch :=
  match ts with
  | u :: us =>
    if u.kind = .keyword .var then .read [t] :: .read [u] :: upTo us (variableHead us) rest
    else if u.kind = .keyword .func then .read [t] :: .read [u] :: functionParts us rest
    else [.read (taken (t :: ts) rest)]
  | [] => [.read (taken (t :: ts) rest)]

/-- The stretches of the statement that starts with the token `t`. -/
def stretches (hasName hasBase : Bool) (t : Token) (ts : List Token) : List Stretch :=
  let rest := (Statement.read hasName hasBase t ts).rest
  match t.kind with
  | .indent => [.skipped (taken (t :: ts) rest)]
  | .tag => .read [t] :: enclosedParts (fun us => (tagArguments 0 "" us).2) ts
  | .keyword .var => .read [t] :: upTo ts (variableHead ts) rest
  | .keyword .func => .read [t] :: functionParts ts rest
  | .keyword .signal => .read [t] :: signalParts ts rest
  | .keyword .static => staticParts t ts rest
  | .keyword .const => upTo (t :: ts) ts rest
  | .keyword .enumeration => upTo (t :: ts) ts rest
  | .keyword .innerClass => upTo (t :: ts) ts rest
  | .identifier =>
    if t.text == "export" then
      .read [t] ::
        enclosedParts (skipTo (fun t => t.kind == .closing .paren || t.isSemicolon) 0) ts
    else [.read (taken (t :: ts) rest)]
  | _ => [.read (taken (t :: ts) rest)]

end Statement

/-- The stretches of a script, up to its end. -/
def Draft.stretches (d : Draft) : List Token → List Stretch
  | [] => []
  | t :: ts =>
    if t.kind = .endOfFile then []
    else
      let s := Statement.read (d.script.name != "") d.script.base.isSome t ts
      Statement.stretches (d.script.name != "") d.script.base.isSome t ts ++
        (d.record s.value).stretches s.rest
termination_by ts => ts.length
decreasing_by exact Nat.lt_succ_of_le (Statement.read_leaves _ _ t ts).length_le

/-! ### Stretches of tokens -/

namespace Stretch

variable {ts us mid rest : List Token} {parts more : List Stretch} {b : Bracket}

theorem whole_append (parts more : List Stretch) :
    whole (parts ++ more) = whole parts ++ whole more := List.flatMap_append

theorem inspected_append (parts more : List Stretch) :
    inspected (parts ++ more) = inspected parts ++ inspected more := List.flatMap_append

theorem inspected_read (ts : List Token) : inspected [.read ts] = ts := List.append_nil ts

theorem inspected_upTo (ts mid rest : List Token) : inspected (upTo ts mid rest) = taken ts mid := by
  simp [inspected, upTo, seen]

theorem taken_append (front rest : List Token) : taken (front ++ rest) rest = front := by
  simp [taken]

theorem neat_taken (h : Passes ts rest) : Neat (taken ts rest) := by
  obtain ⟨front, rfl, hfront⟩ := h
  rwa [taken_append]

theorem openAfter_taken (h : Closes b ts rest) (stack : List Bracket) :
    openAfter (b :: stack) (taken ts rest) = some stack := by
  obtain ⟨front, rfl, hfront⟩ := h
  rw [taken_append]
  exact hfront stack

/-- The stretches are the tokens in front of the rest. -/
def Covers (parts : List Stretch) (ts rest : List Token) : Prop := whole parts ++ rest = ts

namespace Covers

theorem nil (ts : List Token) : Covers [] ts ts := rfl

theorem append (h : Covers parts ts us) (k : Covers more us rest) :
    Covers (parts ++ more) ts rest := by
  rw [Covers, whole_append, List.append_assoc, k, h]

theorem read (h : Leaves ts rest) : Covers [.read (taken ts rest)] ts rest := by
  obtain ⟨front, rfl⟩ := h.suffix
  rw [taken_append]
  simp [Covers, whole, tokens]

theorem skipped (h : Leaves ts rest) : Covers [.skipped (taken ts rest)] ts rest := by
  obtain ⟨front, rfl⟩ := h.suffix
  rw [taken_append]
  simp [Covers, whole, tokens]

theorem upTo (h : Leaves ts mid) (k : Leaves mid rest) : Covers (upTo ts mid rest) ts rest :=
  (read h).append (skipped k)

theorem cons (t : Token) (h : Covers parts ts rest) :
    Covers (.read [t] :: parts) (t :: ts) rest := by
  rw [Covers] at h ⊢
  simp [whole, tokens, ← h]

end Covers

/-- Skipped stretches that are balanced make no difference. -/
theorem openAfter_whole (h : ∀ ts, .skipped ts ∈ parts → Matched ts) (stack : List Bracket) :
    openAfter stack (whole parts) = openAfter stack (inspected parts) := by
  induction parts generalizing stack with
  | nil => rfl
  | cons part parts ih =>
    have hparts : ∀ ts, .skipped ts ∈ parts → Matched ts :=
      fun ts hts => h ts (List.mem_cons_of_mem part hts)
    cases part with
    | read ts =>
      change openAfter stack (ts ++ whole parts) = openAfter stack (ts ++ inspected parts)
      rw [openAfter_append, openAfter_append]
      exact congrArg _ (funext fun s => ih hparts s)
    | skipped ts =>
      have hts : Neat ts := neat_iff_matched.2 (h ts List.mem_cons_self)
      change openAfter stack (ts ++ whole parts) = openAfter stack (inspected parts)
      rw [openAfter_append, hts stack]
      exact ih hparts stack

end Stretch

/-! ### The stretches are all tokens -/

namespace Statement

variable {ts : List Token}

theorem enclosedParts_covers {inner : List Token → List Token} (hinner : ∀ us, Leaves us (inner us))
    (ts : List Token) :
    Covers (enclosedParts inner ts) ts
      (if starts (.opening .paren) ts then
        if starts (.closing .paren) (inner ts.tail) then (inner ts.tail).tail else inner ts.tail
      else ts) := by
  unfold enclosedParts
  dsimp only
  split_ifs with hopen hclose
  · exact (Covers.upTo (.tail hopen (by simp)) (hinner _)).append (.read (.tail hclose (by simp)))
  · exact (Covers.upTo (.tail hopen (by simp)) (hinner _)).append (.nil _)
  · exact .nil ts

theorem variableHead_leaves (isStatic : Bool) (keyword : Token) (ts : List Token) :
    Leaves ts (variableHead ts) ∧
      Leaves (variableHead ts) (readVariable isStatic keyword ts).rest := by
  unfold variableHead readVariable readVariableType
  dsimp only
  split_ifs with hname hcolon hequals hboth
  · have hts := ((Leaves.tail hname (by simp)).trans (.tail hcolon (by simp))).trans
      (.tail hequals (by simp))
    exact ⟨hts, skipStatement_leaves _⟩
  · have hts := ((Leaves.tail hname (by simp)).trans (.tail hcolon (by simp))).trans
      (TypeExpr.read_leaves ts.tail.tail)
    refine ⟨hts, ?_⟩
    split
    · exact skipStatement_leaves _
    · exact skipLine_leaves _
  · exact ⟨(Leaves.tail hname (by simp)).trans (.tail hboth (by simp)), skipStatement_leaves _⟩
  · exact ⟨.tail hname (by simp), skipStatement_leaves _⟩
  · exact ⟨.all ts, skipLine_leaves ts⟩

theorem defaultHead_leaves (inferred : Bool) (p : Parameter) (ts : List Token) :
    Leaves ts (defaultHead ts) ∧ Leaves (defaultHead ts) (readDefault inferred p ts).rest := by
  unfold defaultHead readDefault
  split
  · next h =>
    refine ⟨?_, skipExpression_leaves _⟩
    rcases Bool.or_eq_true_iff.1 h with h | h <;> exact .tail h (by simp)
  · exact ⟨.all ts, .all ts⟩

theorem parameterHead_leaves (ts : List Token) :
    Leaves ts (parameterHead ts) ∧ Leaves (parameterHead ts) (readParameter ts).rest := by
  unfold parameterHead readParameter readParameterType
  dsimp only
  split_ifs with hname hcolon hequals htype
  · obtain ⟨hhead, hrest⟩ := defaultHead_leaves true
      { name := (next ts).text, span := (next ts).span } ts.tail.tail
    exact ⟨((Leaves.tail hname (by simp)).trans (.tail hcolon (by simp))).trans hhead, hrest⟩
  · have hts := ((Leaves.tail hname (by simp)).trans (.tail hcolon (by simp))).trans
      (TypeExpr.read_leaves ts.tail.tail)
    obtain ⟨v, hv⟩ := Option.isSome_iff_exists.1 htype
    rw [hv]
    obtain ⟨hhead, hrest⟩ := defaultHead_leaves false _ (TypeExpr.read ts.tail.tail).rest
    exact ⟨hts.trans hhead, hrest⟩
  · have hts := ((Leaves.tail hname (by simp)).trans (.tail hcolon (by simp))).trans
      (TypeExpr.read_leaves ts.tail.tail)
    rw [Option.not_isSome_iff_eq_none.1 htype]
    exact ⟨hts, skipExpression_leaves _⟩
  · obtain ⟨hhead, hrest⟩ := defaultHead_leaves (starts .colonEquals ts.tail)
      { name := (next ts).text, span := (next ts).span } ts.tail
    exact ⟨(Leaves.tail hname (by simp)).trans hhead, hrest⟩
  · exact ⟨.all ts, skipExpression_leaves ts⟩

theorem parametersParts_covers (ts : List Token) :
    Covers (parametersParts ts) ts (readParameters ts).rest := by
  fun_induction readParameters ts with
  | case1 ts hend =>
    rw [parametersParts, if_pos hend]
    exact .nil ts
  | case2 ts hend p here hcomma more ih =>
    rw [parametersParts, if_neg hend]
    dsimp only
    rw [dif_pos hcomma]
    obtain ⟨hhead, hrest⟩ := parameterHead_leaves ts
    exact (Covers.upTo hhead hrest).append ((Covers.read (.tail hcomma (by simp))).append ih)
  | case3 ts hend p here hcomma =>
    rw [parametersParts, if_neg hend]
    dsimp only
    rw [dif_neg hcomma]
    obtain ⟨hhead, hrest⟩ := parameterHead_leaves ts
    exact .upTo hhead hrest

/-- A colon makes no difference to skipping its line. -/
theorem skipLine_leaves_tail (h : starts .colon ts) : Leaves ts.tail (skipLine ts) := by
  cases ts with
  | nil => cases h
  | cons t ts =>
    have hk : t.kind = .colon := beq_iff_eq.1 h
    rw [skipLine, if_neg (by simp [hk]), if_neg (by simp [hk])]
    exact skipLine_leaves ts

theorem signatureHead_leaves (f : FunctionDecl) (ts : List Token) :
    Leaves ts (signatureHead ts) ∧ Leaves (signatureHead ts) (readSignatureEnd f ts).rest := by
  unfold signatureHead readSignatureEnd
  dsimp only
  split_ifs with hclose hcolon
  · have hreturn := (Leaves.tail hclose (by simp)).trans (readReturnType_leaves ts.tail)
    refine ⟨hreturn.trans (.tail hcolon (by simp)), ?_⟩
    split
    · exact skipLine_leaves_tail hcolon
    · exact skipLine_leaves_tail hcolon
  · have hreturn := (Leaves.tail hclose (by simp)).trans (readReturnType_leaves ts.tail)
    refine ⟨hreturn, ?_⟩
    split
    · exact noFunction_leaves _ _
    · exact noFunction_leaves _ _
  · exact ⟨.all ts, noFunction_leaves _ _⟩

/-- What is behind the parameters is covered if `ending` covers it. -/
theorem withParameters_covers {ending : List Token → List Stretch} {rest : List Token}
    (hending : starts .identifier ts → starts (.opening .paren) ts.tail →
      Covers (ending (readParameters ts.tail.tail).rest) (readParameters ts.tail.tail).rest rest)
    (hrest : Leaves ts rest) : Covers (withParameters ending ts rest) ts rest := by
  unfold withParameters
  split
  · next h =>
    rw [Bool.and_eq_true] at h
    have hname : Leaves ts ts.tail.tail := (Leaves.tail h.1 (by simp)).trans (.tail h.2 (by simp))
    exact (Covers.read hname).append ((parametersParts_covers _).append (hending h.1 h.2))
  · exact .read hrest

theorem functionParts_covers (isStatic : Bool) (keyword : Token) (ts : List Token) :
    Covers (functionParts ts (readFunction isStatic keyword ts).rest) ts
      (readFunction isStatic keyword ts).rest := by
  refine withParameters_covers (fun hname hopen => ?_) (readFunction_leaves isStatic keyword ts)
  unfold readFunction
  rw [if_pos hname, if_pos hopen]
  obtain ⟨hhead, hrest⟩ := signatureHead_leaves _ (readParameters ts.tail.tail).rest
  exact .upTo hhead hrest

theorem signalParts_covers (keyword : Token) (ts : List Token) :
    Covers (signalParts ts (readSignal keyword ts).rest) ts (readSignal keyword ts).rest := by
  refine withParameters_covers (fun hname hopen => .read ?_) (readSignal_leaves keyword ts)
  unfold readSignal
  rw [if_pos hname, if_pos hopen]
  dsimp only
  split
  · next hclose => exact (Leaves.tail hclose (by simp)).trans (finish_leaves _)
  · exact skipLine_leaves _

theorem staticParts_covers {t : Token} (hk : t.kind = .keyword .static) (ts : List Token) :
    Covers (staticParts t ts (readStatic t ts).rest) (t :: ts) (readStatic t ts).rest := by
  have hall : Leaves (t :: ts) (readStatic t ts).rest :=
    .step (by simp [hk]) (readStatic_leaves t ts)
  unfold staticParts
  split
  · next u us =>
    split_ifs with hvar hfunc
    · obtain ⟨hhead, hleft⟩ := variableHead_leaves true u us
      rw [readStatic_variable hvar]
      exact .cons t (.cons u (.upTo hhead hleft))
    · rw [readStatic_function hfunc]
      exact .cons t (.cons u (functionParts_covers true u us))
    · exact .read hall
  · exact .read hall

/-- What `export` leaves is what its hint leaves. -/
theorem readWord_export {t : Token} (ht : t.text = "export") (ts : List Token) :
    (readWord t ts).rest = (exportHint ts).rest ∧ (readWord t ts).faults = (exportHint ts).faults := by
  have hmodifier : modifiers.contains "export" = true := by decide
  have htool : ("export" == "tool") = false := by decide
  unfold readWord
  rw [ht, htool, hmodifier]
  exact ⟨rfl, rfl⟩

theorem readTag_covers (name : Token) (ts : List Token) :
    Covers (enclosedParts (fun us => (tagArguments 0 "" us).2) ts) ts (readTag name ts).rest := by
  have hrest := enclosedParts_covers (fun us => tagArguments_leaves 0 "" us) ts
  unfold readTag
  dsimp only
  split_ifs at hrest ⊢ <;> exact hrest

theorem exportHint_covers (ts : List Token) :
    Covers (enclosedParts (skipTo (fun t => t.kind == .closing .paren || t.isSemicolon) 0) ts) ts
      (exportHint ts).rest := by
  have hrest := enclosedParts_covers
    (skipTo_leaves (fun t => t.kind == .closing .paren || t.isSemicolon) 0) ts
  unfold exportHint
  dsimp only
  split_ifs at hrest ⊢ <;> exact hrest

theorem stretches_covers (hasName hasBase : Bool) {t : Token} (ht : t.kind ≠ .endOfFile)
    (ts : List Token) :
    Covers (stretches hasName hasBase t ts) (t :: ts) (read hasName hasBase t ts).rest := by
  have hall : Leaves (t :: ts) (read hasName hasBase t ts).rest :=
    .step ht (read_leaves hasName hasBase t ts)
  unfold stretches
  dsimp only
  split
  case h_1 => exact .skipped hall
  case h_2 hk =>
    rw [read_tag hk]
    exact .cons t (readTag_covers t ts)
  case h_3 hk =>
    obtain ⟨hhead, hleft⟩ := variableHead_leaves false t ts
    rw [read_variable hk]
    exact .cons t (.upTo hhead hleft)
  case h_4 hk =>
    rw [read_function hk]
    exact .cons t (functionParts_covers false t ts)
  case h_5 hk =>
    rw [read_signal hk]
    exact .cons t (signalParts_covers t ts)
  case h_6 hk =>
    rw [read_static hk]
    exact staticParts_covers hk ts
  case h_7 => exact .upTo (.step ht (.all ts)) (read_leaves _ _ _ _)
  case h_8 => exact .upTo (.step ht (.all ts)) (read_leaves _ _ _ _)
  case h_9 => exact .upTo (.step ht (.all ts)) (read_leaves _ _ _ _)
  case h_10 hk =>
    split
    · next hexport =>
      rw [read_word hk, (readWord_export (beq_iff_eq.1 hexport) ts).1]
      exact .cons t (exportHint_covers ts)
    · exact .read hall
  case h_11 => exact .read hall

end Statement

theorem Draft.stretches_covers (d : Draft) (ts : List Token) :
    Covers (d.stretches ts) ts (d.read ts).rest := by
  fun_induction Draft.read d ts with
  | case1 =>
    rw [stretches]
    exact .nil []
  | case2 d t ts h =>
    rw [stretches, if_pos h]
    exact .nil _
  | case3 d t ts h s r ih =>
    rw [stretches, if_neg h]
    exact (Statement.stretches_covers _ _ h ts).append ih

/-! ### The stretches that are read are balanced -/

namespace Statement

variable {ts : List Token} {b : Bracket}

/-- Tokens that open a bracket, balanced ones in it, and tokens that close it. -/
theorem neat_between {front inner back : List Token}
    (hfront : ∀ stack, openAfter stack front = some (b :: stack)) (hinner : Neat inner)
    (hback : ∀ stack, openAfter (b :: stack) back = some stack) : Neat (front ++ (inner ++ back)) := by
  intro stack
  rw [openAfter_append, hfront, Option.bind_some, openAfter_append, hinner, Option.bind_some]
  exact hback stack

theorem closes_tail (h : starts (.closing b) ts) : Closes b ts ts.tail := by
  cases ts with
  | nil => cases h
  | cons t ts => exact .here (beq_iff_eq.1 h)

theorem openAfter_opening (h : starts (.opening b) ts) (stack : List Bracket) :
    openAfter stack (taken ts ts.tail) = some (b :: stack) := by
  cases ts with
  | nil => cases h
  | cons t ts =>
    have hk : t.kind = .opening b := beq_iff_eq.1 h
    have htaken : taken (t :: ts) (t :: ts).tail = [t] := taken_append [t] ts
    rw [htaken]
    simp [openAfter, bracketStep, hk]

theorem openAfter_name (hname : starts .identifier ts) (h : starts (.opening b) ts.tail)
    (stack : List Bracket) : openAfter stack (taken ts ts.tail.tail) = some (b :: stack) := by
  match ts with
  | [] => cases hname
  | [t] => cases h
  | t :: u :: us =>
    have ht : t.kind = .identifier := beq_iff_eq.1 hname
    have hu : u.kind = .opening b := beq_iff_eq.1 h
    have htaken : taken (t :: u :: us) (t :: u :: us).tail.tail = [t, u] := taken_append [t, u] us
    rw [htaken]
    simp [openAfter, bracketStep, ht, hu]

theorem enclosedParts_neat {inner : List Token → List Token}
    (h : starts (.opening .paren) ts → starts (.closing .paren) (inner ts.tail)) :
    Neat (inspected (enclosedParts inner ts)) := by
  unfold enclosedParts
  dsimp only
  split_ifs with hopen hclose
  · rw [inspected_append, inspected_upTo, inspected_read]
    change Neat (_ ++ ([] ++ _))
    exact neat_between (openAfter_opening hopen) (fun _ => rfl) (openAfter_taken (closes_tail hclose))
  · exact absurd (h hopen) hclose
  · exact fun _ => rfl

theorem variableHead_passes {isStatic : Bool} {keyword : Token}
    (h : (readVariable isStatic keyword ts).faults = []) : Passes ts (variableHead ts) := by
  unfold readVariable readVariableType at h
  unfold variableHead
  dsimp only at h
  split_ifs at h ⊢ with hname hcolon hequals hboth
  · exact ((Passes.tail_of_starts hname rfl).trans (.tail_of_starts hcolon rfl)).trans
      (.tail_of_starts hequals rfl)
  · refine ((Passes.tail_of_starts hname rfl).trans (.tail_of_starts hcolon rfl)).trans
      (TypeExpr.read_passes ?_)
    split at h
    · next htype => rw [htype]; rfl
    · exact absurd (List.append_eq_nil_iff.1 h).2 nofun
  · exact (Passes.tail_of_starts hname rfl).trans (.tail_of_starts hboth rfl)
  · exact .tail_of_starts hname rfl

theorem defaultHead_passes (ts : List Token) : Passes ts (defaultHead ts) := by
  unfold defaultHead
  split
  · next h =>
    rcases Bool.or_eq_true_iff.1 h with h | h
    · exact .tail_of_starts h rfl
    · exact .tail_of_starts h rfl
  · exact .refl ts

theorem parameterHead_passes (h : (readParameter ts).faults = []) :
    Passes ts (parameterHead ts) := by
  unfold readParameter readParameterType at h
  unfold parameterHead
  dsimp only at h ⊢
  split_ifs at h ⊢ with hname hcolon hequals htype
  · exact ((Passes.tail_of_starts hname rfl).trans (.tail_of_starts hcolon rfl)).trans
      (defaultHead_passes _)
  · exact (((Passes.tail_of_starts hname rfl).trans (.tail_of_starts hcolon rfl)).trans
      (TypeExpr.read_passes htype)).trans (defaultHead_passes _)
  · rw [Option.not_isSome_iff_eq_none.1 htype] at h
    exact absurd (List.append_eq_nil_iff.1 h).2 nofun
  · exact (Passes.tail_of_starts hname rfl).trans (defaultHead_passes _)

theorem parametersParts_neat (h : (readParameters ts).faults = []) :
    Neat (inspected (parametersParts ts)) := by
  fun_induction readParameters ts with
  | case1 ts hend =>
    rw [parametersParts, if_pos hend]
    exact fun _ => rfl
  | case2 ts hend p here hcomma more ih =>
    obtain ⟨hp, hmore⟩ := List.append_eq_nil_iff.1 h
    rw [parametersParts, if_neg hend]
    dsimp only
    rw [dif_pos hcomma, inspected_append, inspected_upTo]
    exact (neat_taken (parameterHead_passes hp)).append
      ((neat_taken (.tail_of_starts hcomma rfl)).append (ih hmore))
  | case3 ts hend p here hcomma =>
    rw [parametersParts, if_neg hend]
    dsimp only
    rw [dif_neg hcomma, inspected_upTo]
    exact neat_taken (parameterHead_passes h)

/-- The return type in a signature without fault has none. -/
theorem readReturnType_faults {f : FunctionDecl} (hclose : starts (.closing .paren) ts)
    (h : (readSignatureEnd f ts).faults = []) : (readReturnType ts.tail).faults = [] := by
  unfold readSignatureEnd at h
  rw [if_pos hclose] at h
  dsimp only at h
  split at h
  · exact h
  · split at h
    · exact h
    · exact (List.append_eq_nil_iff.1 h).1

theorem signatureHead_closes {f : FunctionDecl} (h : (readSignatureEnd f ts).faults = []) :
    Closes .paren ts (signatureHead ts) := by
  by_cases hclose : starts (.closing .paren) ts
  · have hreturn := (closes_tail hclose).trans
      (readReturnType_passes ts.tail (readReturnType_faults hclose h))
    unfold signatureHead
    rw [if_pos hclose]
    dsimp only
    split_ifs with hcolon
    · exact hreturn.trans (.tail_of_starts hcolon rfl)
    · exact hreturn
  · unfold readSignatureEnd at h
    rw [if_neg hclose] at h
    cases h

theorem withParameters_neat {ending : List Token → List Stretch} {rest : List Token}
    (hending : starts .identifier ts → starts (.opening .paren) ts.tail →
      (readParameters ts.tail.tail).faults = [] ∧ ∀ stack,
        openAfter (.paren :: stack) (inspected (ending (readParameters ts.tail.tail).rest)) =
          some stack)
    (hplain : (starts .identifier ts && starts (.opening .paren) ts.tail) = false →
      Passes ts rest) :
    Neat (inspected (withParameters ending ts rest)) := by
  unfold withParameters
  split
  · next h =>
    rw [Bool.and_eq_true] at h
    obtain ⟨hfaults, hback⟩ := hending h.1 h.2
    change Neat (_ ++ inspected (_ ++ _))
    rw [inspected_append]
    exact neat_between (openAfter_name h.1 h.2) (parametersParts_neat hfaults) hback
  · next h =>
    rw [inspected_read]
    exact neat_taken (hplain (Bool.eq_false_iff.2 h))

theorem functionParts_neat {isStatic : Bool} {keyword : Token} {rest : List Token}
    (h : (readFunction isStatic keyword ts).faults = []) :
    Neat (inspected (functionParts ts rest)) := by
  refine withParameters_neat (fun hname hopen => ?_) fun hplain => ?_
  · unfold readFunction at h
    rw [if_pos hname, if_pos hopen] at h
    obtain ⟨hparameters, hend⟩ := List.append_eq_nil_iff.1 h
    refine ⟨hparameters, fun stack => ?_⟩
    rw [inspected_upTo]
    exact openAfter_taken (signatureHead_closes hend) stack
  · unfold readFunction at h
    split_ifs at h with hname hopen
    · simp [hname, hopen] at hplain
    · cases h
    · cases h

theorem signalParts_neat {keyword : Token} (h : (readSignal keyword ts).faults = []) :
    Neat (inspected (signalParts ts (readSignal keyword ts).rest)) := by
  refine withParameters_neat (fun hname hopen => ?_) fun hplain => ?_
  · unfold readSignal at h ⊢
    rw [if_pos hname, if_pos hopen] at h ⊢
    dsimp only at h ⊢
    split_ifs at h ⊢ with hclose
    · obtain ⟨hparameters, hend⟩ := List.append_eq_nil_iff.1 h
      refine ⟨hparameters, fun stack => ?_⟩
      rw [inspected_read]
      exact openAfter_taken ((closes_tail hclose).trans (finish_passes hend)) stack
    · exact absurd (List.append_eq_nil_iff.1 h).2 nofun
  · unfold readSignal at h ⊢
    split_ifs at h ⊢ with hname hopen
    · simp [hname, hopen] at hplain
    · exact (Passes.tail_of_starts hname rfl).trans (finish_passes h)

theorem neat_cons {t : Token} {parts : List Stretch} (ht : nesting t = 0)
    (h : Neat (inspected parts)) : Neat (inspected (.read [t] :: parts)) := by
  have hone : Neat [t] := fun stack => by rw [openAfter_cons, bracketStep_flat ht]; rfl
  exact hone.append h

/-- A word behind which all is skipped. -/
theorem neat_upTo {t : Token} {rest : List Token} (ht : nesting t = 0) :
    Neat (inspected (upTo (t :: ts) ts rest)) := by
  rw [inspected_upTo]
  exact neat_taken (.step ht (.refl ts))

theorem staticParts_neat {t : Token} (ht : t.kind = .keyword .static)
    (h : (readStatic t ts).faults = []) :
    Neat (inspected (staticParts t ts (readStatic t ts).rest)) := by
  unfold staticParts
  split
  · next u us =>
    have hflat : nesting t = 0 := by simp [nesting, ht]
    split_ifs with hvar hfunc
    · rw [readStatic_variable hvar] at h
      refine neat_cons hflat (neat_cons (by simp [nesting, hvar]) ?_)
      rw [inspected_upTo]
      exact neat_taken (variableHead_passes h)
    · rw [readStatic_function hfunc] at h
      exact neat_cons hflat (neat_cons (by simp [nesting, hfunc]) (functionParts_neat h))
    · simp [readStatic, hvar, hfunc] at h
  · cases h

theorem readTag_neat {name : Token} (h : (readTag name ts).faults = []) :
    Neat (inspected (enclosedParts (fun us => (tagArguments 0 "" us).2) ts)) := by
  refine enclosedParts_neat fun hopen => ?_
  by_contra hclose
  unfold readTag at h
  rw [if_pos hopen] at h
  dsimp only at h
  rw [if_neg hclose] at h
  cases h

theorem exportHint_neat (h : (exportHint ts).faults = []) :
    Neat (inspected
      (enclosedParts (skipTo (fun t => t.kind == .closing .paren || t.isSemicolon) 0) ts)) := by
  refine enclosedParts_neat fun hopen => ?_
  by_contra hclose
  unfold exportHint at h
  rw [if_pos hopen] at h
  dsimp only at h
  rw [if_neg hclose] at h
  cases h

/-- A word without fault, `export` apart, is taken alone. -/
theorem readWord_passes {t : Token} (hk : t.kind = .identifier) (ht : (t.text == "export") = false)
    (h : (readWord t ts).faults = []) : Passes (t :: ts) (readWord t ts).rest := by
  have hstep : Passes (t :: ts) ts := .step (by simp [nesting, hk]) (.refl ts)
  unfold readWord at h ⊢
  simp only [ht, Bool.false_eq_true, if_false] at h ⊢
  split_ifs at h ⊢
  · exact hstep
  · exact hstep

theorem read_passes {hasName hasBase : Bool} {t : Token}
    (hk : t.kind = .newline ∨ t.kind = .keyword .className ∨ t.kind = .keyword .extending ∨
      t.isSemicolon)
    (h : (read hasName hasBase t ts).faults = []) :
    Passes (t :: ts) (read hasName hasBase t ts).rest := by
  rcases hk with hk | hk | hk | hk
  · rw [read_newline hk]
    exact .step (by simp [nesting, hk]) (.refl ts)
  · rw [read_className hk] at h ⊢
    exact .step (by simp [nesting, hk]) (readHeader_passes _ _ _ _ h)
  · rw [read_extending hk] at h ⊢
    exact .step (by simp [nesting, hk]) (readBase_passes _ _ _ h)
  · have hoperator : t.kind = .operator := Walk.kind_of_isSemicolon hk
    rw [read_semicolon hk]
    exact .step (by simp [nesting, hoperator]) (.refl ts)

/-- Nothing else starts a statement without a fault. -/
theorem read_kinds {hasName hasBase : Bool} {t : Token}
    (h : (read hasName hasBase t ts).faults = []) :
    t.kind ∈ [.indent, .tag, .keyword .var, .keyword .func, .keyword .signal, .keyword .static,
      .keyword .const, .keyword .enumeration, .keyword .innerClass, .identifier] ∨
      t.kind = .newline ∨ t.kind = .keyword .className ∨ t.kind = .keyword .extending ∨
      t.isSemicolon := by
  unfold read at h
  split at h
  case h_14 =>
    split_ifs at h with hsemicolon
    exact .inr (.inr (.inr (.inr hsemicolon)))
  all_goals simp_all

theorem stretches_neat {hasName hasBase : Bool} {t : Token}
    (h : (read hasName hasBase t ts).faults = []) :
    Neat (inspected (stretches hasName hasBase t ts)) := by
  unfold stretches
  dsimp only
  split
  case h_1 => exact fun _ => rfl
  case h_2 hk =>
    rw [read_tag hk] at h
    exact neat_cons (by simp [nesting, hk]) (readTag_neat h)
  case h_3 hk =>
    rw [read_variable hk] at h
    refine neat_cons (by simp [nesting, hk]) ?_
    rw [inspected_upTo]
    exact neat_taken (variableHead_passes h)
  case h_4 hk =>
    rw [read_function hk] at h
    exact neat_cons (by simp [nesting, hk]) (functionParts_neat h)
  case h_5 hk =>
    rw [read_signal hk] at h ⊢
    exact neat_cons (by simp [nesting, hk]) (signalParts_neat h)
  case h_6 hk =>
    rw [read_static hk] at h ⊢
    exact staticParts_neat hk h
  case h_7 hk => exact neat_upTo (by simp [nesting, hk])
  case h_8 hk => exact neat_upTo (by simp [nesting, hk])
  case h_9 hk => exact neat_upTo (by simp [nesting, hk])
  case h_10 hk =>
    rw [read_word hk] at h ⊢
    split
    · next hexport =>
      rw [(readWord_export (beq_iff_eq.1 hexport) ts).2] at h
      exact neat_cons (by simp [nesting, hk]) (exportHint_neat h)
    · next hexport =>
      rw [inspected_read]
      exact neat_taken (readWord_passes hk (Bool.eq_false_iff.2 hexport) h)
  case h_11 =>
    rw [inspected_read]
    refine neat_taken (read_passes ((read_kinds h).resolve_left ?_) h)
    simp_all

end Statement

theorem Draft.stretches_neat {d : Draft} {ts : List Token} (h : (d.read ts).faults = []) :
    Neat (inspected (d.stretches ts)) := by
  fun_induction Draft.read d ts with
  | case1 =>
    rw [stretches]
    exact fun _ => rfl
  | case2 d t ts hend =>
    rw [stretches, if_pos hend]
    exact fun _ => rfl
  | case3 d t ts hend s r ih =>
    obtain ⟨hs, hr⟩ := List.append_eq_nil_iff.1 h
    rw [stretches, if_neg hend]
    dsimp only
    rw [inspected_append]
    exact (Statement.stretches_neat hs).append (ih hr)

/-! ### Whole scripts -/

/-- The stretches of a text are all its tokens but the last, which is the end of the script. -/
theorem Draft.stretches_ofText (d : Draft) (source : String) :
    ∃ last, (Lexed.ofText source).tokens =
      whole (d.stretches (Lexed.ofText source).tokens) ++ [last] ∧ last.kind = .endOfFile := by
  obtain ⟨⟨body, last, htokens, hlast, hbody, -⟩, -⟩ := Lexed.ofText_order source
  generalize (Lexed.ofText source).tokens = tokens at *
  have hcovers : whole (d.stretches tokens) ++ (d.read tokens).rest = tokens :=
    d.stretches_covers tokens
  have hleft := (Walk.left_self ⟨last, by rw [htokens, List.getLast?_concat], hlast⟩).of_leaves
    (d.read_leaves tokens)
  obtain ⟨t, us, hrest⟩ := List.exists_cons_of_length_pos hleft.length_pos
  have hends : starts .endOfFile (t :: us) := hrest ▸ d.starts_read tokens
  have ht : t.kind = .endOfFile := beq_iff_eq.1 hends
  rw [hrest] at hcovers
  generalize whole (d.stretches tokens) = front at hcovers ⊢
  obtain rfl | ⟨vs, x, rfl⟩ := us.eq_nil_or_concat
  · exact ⟨t, hcovers.symm, ht⟩
  · have hsplit : (front ++ t :: vs) ++ [x] = body ++ [last] := by
      rw [← htokens, ← hcovers]
      simp
    have hin : t ∈ body := by
      rw [← (List.append_inj' hsplit rfl).1]
      simp
    exact absurd ht (hbody t hin)

/-- In a script that yields a class the brackets that are read are balanced, and all brackets
are if those in each skipped stretch are. -/
theorem ScriptClass.ofSource_brackets {path source : String} {c : ScriptClass}
    (h : (ofSource path source).1 = some c) :
    let tokens := (Lexed.ofText source).tokens
    let parts := Draft.stretches { script := { path } } tokens
    (∃ last, tokens = whole parts ++ [last] ∧ last.kind = .endOfFile) ∧
      Matched (inspected parts) ∧
      ((∀ ts, .skipped ts ∈ parts → Matched ts) → Matched tokens) := by
  intro tokens parts
  simp only [ofSource, Option.ite_none_right_eq_some, Bool.and_eq_true, List.isEmpty_iff] at h
  have hfaults : (Draft.read { script := { path } } tokens).faults = [] :=
    (List.append_eq_nil_iff.1 h.1.1).2
  have hneat : Neat (inspected parts) := Draft.stretches_neat hfaults
  have hcovers := Draft.stretches_ofText { script := { path } } source
  refine ⟨hcovers, neat_iff_matched.1 hneat, fun hskipped => ?_⟩
  obtain ⟨last, htokens, hlast⟩ := hcovers
  replace htokens : tokens = whole parts ++ [last] := htokens
  have hflat : nesting last = 0 := by simp [nesting, hlast]
  rw [Matched, htokens, openAfter_append, openAfter_whole hskipped, hneat, Option.bind_some,
    openAfter_cons, bracketStep_flat hflat]
  rfl

/-- A bracket in a value and one in a body that match nothing, among brackets that are read. -/
def strayBrackets : String := "class_name A\nvar b: C[D] = )\nfunc e(f: G[H] = [1]): pass(\n"

theorem ScriptClass.ofSource_strayBrackets :
    ∃ c, (ofSource "" strayBrackets).1 = some c ∧
      let parts := Draft.stretches { script := {} } (Lexed.ofText strayBrackets).tokens
      Matched (inspected parts) ∧
      ((inspected parts).filter fun t => nesting t != 0).map Token.text =
        ["[", "]", "(", "[", "]", ")"] := by
  have hsome : (ofSource "" strayBrackets).1.isSome = true := by cbv
  obtain ⟨c, hc⟩ := Option.isSome_iff_exists.1 hsome
  refine ⟨c, hc, (ofSource_brackets hc).2.1, ?_⟩
  cbv

/-- Brackets that match nothing, one in each kind of stretch that is skipped: a value, an indented
line, a body, a constant, an enumeration, an inner class, a default value, the arguments of a tag
and an export hint. -/
def unmatched : List String :=
  ["class_name A\nvar b = (\nvar c\n", "class_name A\n\t)\n", "class_name A\nfunc b(): )\n",
    "class_name A\nconst B = )\n", "class_name A\nenum B )\n", "class_name A\nclass B: )\n",
    "class_name A\nfunc b(c = [)): pass\n", "class_name A\n@b([))\nvar c\n",
    "class_name A\nexport([)) var b\n"]

/-- They go unnoticed. -/
theorem ScriptClass.ofSource_unmatched :
    (unmatched.all fun source =>
      (ofSource "" source).1.isSome && !decide (Matched (Lexed.ofText source).tokens)) = true := by
  cbv

end ScriptBridge
