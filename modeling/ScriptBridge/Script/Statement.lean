import ScriptBridge.Script.Declaration
import ScriptBridge.Script.Inference
import ScriptBridge.Script.TypeExpr

/-! The statements at the top level of a script. Each is read by itself: what it
declares, the faults in it, and the tokens after it. A statement with a fault ends
with its line, so that the next line is read from its start. Indented lines belong
to bodies and to inner classes, and declare nothing. Proved: a statement leaves an
end part of the tokens and takes no end of the script. -/

namespace ScriptBridge

/-- What a statement contributes to the class. -/
inductive Statement where
  | blank
  /-- No declaration, but the tags before it have nothing left to describe. -/
  | other
  | tag (t : Tag)
  | header (name : String) (span : Span) (icon : Option Tag) (base : Option (Base × Span))
  | base (b : Base × Span)
  | var (v : VariableDecl)
  | func (f : FunctionDecl)
  | signal (s : SignalDecl)

namespace Statement

open Tokens

/-! ### Tags -/

/-- The change of depth in the arguments of a tag, where braces do not count. -/
def tagNesting (t : Token) : Int :=
  match t.kind with
  | .opening .brace => 0
  | .closing .brace => 0
  | _ => nesting t

/-- The texts between the commas, up to the closing parenthesis. `text` is what has
been read of the current one. -/
def tagArguments : Int → String → List Token → List String × List Token
  | _, _, [] => ([], [])
  | depth, text, t :: ts =>
    if t.endsLine then ([], t :: ts)
    else if depth == 0 && t.kind == .closing .paren then ([text], t :: ts)
    else if depth == 0 && t.kind == .comma then
      (text :: (tagArguments 0 "" ts).1, (tagArguments 0 "" ts).2)
    else tagArguments (depth + tagNesting t) (text ++ t.text) ts

/-- A tag, after its name. -/
def readTag (name : Token) (ts : List Token) : Reading Tag :=
  if starts (.opening .paren) ts then
    let a := tagArguments 0 "" ts.tail
    let tag : Tag := ⟨name.text, a.1, name.span.hull (next a.2).span⟩
    if starts (.closing .paren) a.2 then { value := tag, rest := a.2.tail }
    else { value := tag, rest := a.2, faults := [faultHere .unclosedTag a.2] }
  else { value := ⟨name.text, [], name.span⟩, rest := ts }

/-- Words that stand before a declaration in older scripts and do what tags do. -/
def modifiers : List String :=
  ["export", "onready", "remote", "master", "puppet", "sync", "slave", "remotesync", "mastersync",
    "puppetsync"]

/-- The hint in parentheses that may follow the word `export`. A loop over its expressions does not
get past a semicolon outside brackets; here the hint ends there as a faulty one. -/
def exportHint (ts : List Token) : Reading Unit :=
  if starts (.opening .paren) ts then
    let r := skipTo (fun t => t.kind == .closing .paren || t.isSemicolon) 0 ts.tail
    if starts (.closing .paren) r then { value := (), rest := r.tail }
    else { value := (), rest := r, faults := [faultHere .unclosedExportHint r] }
  else { value := (), rest := ts }

/-- A statement that starts with a name: an old modifier, or nothing known. -/
def readWord (t : Token) (ts : List Token) : Reading Statement :=
  if t.text == "tool" && (ahead (t :: ts) 1).kind == .newline then
    { value := .tag ⟨"tool", [], t.span⟩, rest := ts }
  else if modifiers.contains t.text then
    let hint := if t.text == "export" then exportHint ts else { value := (), rest := ts }
    { value := .tag ⟨t.text, [], t.span⟩, rest := hint.rest, faults := hint.faults }
  else
    { value := .other, rest := skipLine ts, faults := [⟨.unexpectedStatement t.text, t.span⟩] }

/-! ### The head of the class -/

/-- The segments of a base after its first, each behind a dot. -/
def baseSegments (path : String) (span : Span) : List Token → Reading (String × Span)
  | dot :: t :: ts =>
    if dot.kind = .dot then
      if t.kind = .identifier then baseSegments (path ++ "." ++ t.text) (span.hull t.span) ts
      else
        { value := (path, span), rest := t :: ts, faults := [faultHere .missingBaseSegment (t :: ts)] }
    else { value := (path, span), rest := dot :: t :: ts }
  | [dot] =>
    if dot.kind = .dot then
      { value := (path, span), rest := [], faults := [faultHere .missingBaseSegment []] }
    else { value := (path, span), rest := [dot] }
  | [] => { value := (path, span), rest := [] }

/-- A base that starts with `first`, and the end of its statement. -/
def finishBase (toBase : String → Base) (first : Token) (ts : List Token) :
    Reading (Option (Base × Span)) :=
  let s := baseSegments first.text first.span ts
  let e := finish s.rest
  { value := some (toBase s.value.1, s.value.2), rest := e.rest, faults := s.faults ++ e.faults }

/-- What follows `extends`. A class that has a base gets no second one. -/
def readBase (hasBase : Bool) (keyword : Token) (ts : List Token) :
    Reading (Option (Base × Span)) :=
  if hasBase then
    { value := none, rest := skipLine ts, faults := [⟨.duplicateBase, keyword.span⟩] }
  else match ts with
    | t :: r =>
      if t.kind = .text then finishBase .script t r
      else if t.kind = .identifier then finishBase Base.ofName t r
      else { value := none, rest := skipLine ts, faults := [faultHere .missingBase ts] }
    | [] => { value := none, rest := [], faults := [faultHere .missingBase ts] }

/-- The icon that may follow the name of the class. -/
def readIcon (ts : List Token) : Reading (Option Tag) :=
  if starts .comma ts then
    match ts.tail with
    | t :: r =>
      if t.kind = .text then { value := some ⟨"icon", [t.text], t.span⟩, rest := r }
      else { value := none, rest := t :: r, faults := [faultHere .missingIconPath (t :: r)] }
    | [] => { value := none, rest := [], faults := [faultHere .missingIconPath []] }
  else { value := none, rest := ts }

/-- What follows the name and the icon of a class: its base, or the end. -/
def readHeaderEnd (hasBase : Bool) (ts : List Token) : Reading (Option (Base × Span)) :=
  match ts with
  | t :: r =>
    if t.kind = .keyword .extending then readBase hasBase t r
    else { value := none, rest := (finish ts).rest, faults := (finish ts).faults }
  | [] => { value := none, rest := [] , faults := (finish ts).faults }

/-- What follows `class_name`. A class that has a name gets no second one. -/
def readHeader (hasName hasBase : Bool) (keyword : Token) (ts : List Token) : Reading Statement :=
  if hasName then
    { value := .blank, rest := skipLine ts, faults := [⟨.duplicateClassName, keyword.span⟩] }
  else match ts with
    | t :: r =>
      if t.kind = .identifier then
        let icon := readIcon r
        let base := readHeaderEnd hasBase icon.rest
        { value := .header t.text (keyword.span.hull t.span) icon.value base.value
          rest := base.rest
          faults := icon.faults ++ base.faults }
      else { value := .blank, rest := skipLine ts, faults := [faultHere .missingClassName ts] }
    | [] => { value := .blank, rest := [], faults := [faultHere .missingClassName ts] }

/-! ### Variables -/

/-- A variable after its name: its type, written or inferred, and its value, which
is skipped. -/
def readVariableType (v : VariableDecl) (ts : List Token) : Reading VariableDecl :=
  let inferred (r : List Token) : Reading VariableDecl :=
    { value := { v with isInferred := true, typeName := Inference.typeOf r }
      rest := skipStatement r }
  if starts .colon ts then
    if starts .equals ts.tail then inferred ts.tail.tail
    else
      let e := TypeExpr.read ts.tail
      match e.value with
      | some (type, span) =>
        { value := { v with typeName := type.text, span := v.span.hull span }
          rest := skipStatement e.rest
          faults := e.faults }
      | none =>
        { value := v, rest := skipLine e.rest
          faults := e.faults ++ [faultHere .missingVariableType e.rest] }
  else if starts .colonEquals ts then inferred ts.tail
  else { value := v, rest := skipStatement ts }

def readVariable (isStatic : Bool) (keyword : Token) (ts : List Token) : Reading VariableDecl :=
  if starts .identifier ts then
    readVariableType
      { name := (next ts).text, isStatic, span := keyword.span.hull (next ts).span } ts.tail
  else
    { value := { isStatic }, rest := skipLine ts, faults := [faultHere .missingVariableName ts] }

/-! ### Parameters -/

/-- The default value of a parameter. -/
def readDefault (inferred : Bool) (p : Parameter) (ts : List Token) : Reading Parameter :=
  if starts .equals ts || starts .colonEquals ts then
    { value :=
        { p with
          hasDefault := true
          typeName := if inferred then Inference.typeOf ts.tail else p.typeName }
      rest := skipExpression ts.tail }
  else { value := p, rest := ts }

/-- A parameter after its name. -/
def readParameterType (p : Parameter) (ts : List Token) : Reading Parameter :=
  if starts .colon ts then
    if starts .equals ts.tail then readDefault true p ts.tail
    else
      let e := TypeExpr.read ts.tail
      match e.value with
      | some (type, span) =>
        let d := readDefault false { p with typeName := type.text, span := p.span.hull span } e.rest
        { value := d.value, rest := d.rest, faults := e.faults }
      | none =>
        { value := p, rest := skipExpression e.rest
          faults := e.faults ++ [faultHere .missingParameterType e.rest] }
  else readDefault (starts .colonEquals ts) p ts

/-- A parameter; one without a name is reported and skipped. -/
def readParameter (ts : List Token) : Reading Parameter :=
  if starts .identifier ts then
    readParameterType { name := (next ts).text, span := (next ts).span } ts.tail
  else
    { value := {}, rest := skipExpression ts, faults := [faultHere .missingParameterName ts] }

theorem readDefault_leaves (inferred : Bool) (p : Parameter) (ts : List Token) :
    Leaves ts (readDefault inferred p ts).rest := by
  unfold readDefault
  split
  · next h =>
    refine .trans ?_ (skipExpression_leaves _)
    rcases Bool.or_eq_true_iff.1 h with h | h <;> exact .tail h (by decide)
  · exact .all _

theorem readParameterType_leaves (p : Parameter) (ts : List Token) :
    Leaves ts (readParameterType p ts).rest := by
  unfold readParameterType
  split
  · next hc =>
    have ht : Leaves ts ts.tail := .tail hc (by decide)
    have he := ht.trans (TypeExpr.read_leaves ts.tail)
    split
    · exact ht.trans (readDefault_leaves _ _ _)
    · dsimp only
      split
      · exact he.trans (readDefault_leaves _ _ _)
      · exact he.trans (skipExpression_leaves _)
  · exact readDefault_leaves _ _ _

theorem readParameter_leaves (ts : List Token) : Leaves ts (readParameter ts).rest := by
  unfold readParameter
  split
  · next h => exact (Leaves.tail h (by decide)).trans (readParameterType_leaves _ _)
  · exact skipExpression_leaves _

theorem length_tail_lt {kind : TokenKind} {ts us : List Token} (h : starts kind us = true)
    (hl : Leaves ts us) (hk : kind ≠ .endOfFile) : us.tail.length < ts.length := by
  cases us with
  | nil => exact absurd (by simpa [starts, next, Token.endOfFile] using h) hk.symm
  | cons t r => exact hl.length_le

/-- The parameters up to a closing parenthesis; reading also stops where no comma
follows a parameter. -/
def readParameters (ts : List Token) : Reading (List Parameter) :=
  if starts (.closing .paren) ts || endsLine ts then { value := [], rest := ts }
  else
    let p := readParameter ts
    let here := if p.value.name == "" then [] else [p.value]
    if _h : starts .comma p.rest then
      let more := readParameters p.rest.tail
      { value := here ++ more.value, rest := more.rest, faults := p.faults ++ more.faults }
    else { value := here, rest := p.rest, faults := p.faults }
termination_by ts.length
decreasing_by exact length_tail_lt _h (readParameter_leaves ts) (by decide)

/-! ### Functions and signals -/

/-- The return type after an arrow, if there is an arrow. -/
def readReturnType (ts : List Token) : Reading (Option (Option String × Span)) :=
  if starts .arrow ts then
    let e := TypeExpr.read ts.tail
    match e.value with
    | some (type, span) =>
      { value := some (some type.text, span), rest := e.rest, faults := e.faults }
    | none =>
      { value := none, rest := e.rest, faults := e.faults ++ [faultHere .missingReturnType e.rest] }
  else { value := some (none, {}), rest := ts }

/-- A function that cannot be read has no name. -/
def noFunction (ts : List Token) (faults : List LocatedFault) : Reading FunctionDecl :=
  { value := {}, rest := skipLine ts, faults }

/-- The end of a signature, from the parenthesis that closes the parameters. -/
def readSignatureEnd (f : FunctionDecl) (ts : List Token) : Reading FunctionDecl :=
  if starts (.closing .paren) ts then
    let r := readReturnType ts.tail
    match r.value with
    | none => noFunction r.rest r.faults
    | some (type, span) =>
      let closed := f.span.hull (next ts).span
      if starts .colon r.rest then
        { value :=
            { f with
              returnType := type
              span := if type.isSome then closed.hull span else closed }
          rest := skipLine r.rest
          faults := r.faults }
      else noFunction r.rest (r.faults ++ [faultHere .missingBodyColon r.rest])
  else noFunction ts [faultHere .unclosedParameterList ts]

def readFunction (isStatic : Bool) (keyword : Token) (ts : List Token) : Reading FunctionDecl :=
  if starts .identifier ts then
    if starts (.opening .paren) ts.tail then
      let p := readParameters ts.tail.tail
      let e := readSignatureEnd
        { name := (next ts).text, parameters := p.value, isStatic, span := keyword.span } p.rest
      { value := e.value, rest := e.rest, faults := p.faults ++ e.faults }
    else noFunction ts.tail [faultHere .missingParameterList ts.tail]
  else noFunction ts [faultHere .missingFunctionName ts]

/-- A signal that cannot be read has no name. -/
def readSignal (keyword : Token) (ts : List Token) : Reading SignalDecl :=
  if starts .identifier ts then
    let s : SignalDecl := { name := (next ts).text, span := keyword.span.hull (next ts).span }
    if starts (.opening .paren) ts.tail then
      let p := readParameters ts.tail.tail
      if starts (.closing .paren) p.rest then
        let e := finish p.rest.tail
        { value := { s with parameters := p.value, span := s.span.hull (next p.rest).span }
          rest := e.rest
          faults := p.faults ++ e.faults }
      else
        { value := {}, rest := skipLine p.rest
          faults := p.faults ++ [faultHere .unclosedSignalParameters p.rest] }
    else
      let e := finish ts.tail
      { value := s, rest := e.rest, faults := e.faults }
  else { value := {}, rest := skipLine ts, faults := [faultHere .missingSignalName ts] }

/-! ### Statements -/

def map {α β : Type} (f : α → β) (r : Reading α) : Reading β :=
  { value := f r.value, rest := r.rest, faults := r.faults }

/-- What follows `static`. -/
def readStatic (keyword : Token) (ts : List Token) : Reading Statement :=
  match ts with
  | t :: r =>
    if t.kind = .keyword .var then map .var (readVariable true t r)
    else if t.kind = .keyword .func then map .func (readFunction true t r)
    else { value := .blank, rest := skipLine ts, faults := [⟨.strayStatic, keyword.span⟩] }
  | [] => { value := .blank, rest := [], faults := [⟨.strayStatic, keyword.span⟩] }

/-- The statement that starts with the token `t`, which is not the end of the script,
in a class that may have a name and a base already. -/
def read (hasName hasBase : Bool) (t : Token) (ts : List Token) : Reading Statement :=
  match t.kind with
  | .newline => { value := .blank, rest := ts }
  | .indent => { value := .blank, rest := skipLine ts }
  | .tag => map .tag (readTag t ts)
  | .keyword .className => readHeader hasName hasBase t ts
  | .keyword .extending => map (Option.elim · .blank .base) (readBase hasBase t ts)
  | .keyword .var => map .var (readVariable false t ts)
  | .keyword .func => map .func (readFunction false t ts)
  | .keyword .signal => map .signal (readSignal t ts)
  | .keyword .static => readStatic t ts
  | .keyword .const => { value := .other, rest := skipStatement ts }
  | .keyword .enumeration => { value := .other, rest := skipStatement ts }
  | .keyword .innerClass => { value := .other, rest := skipLine ts }
  | .identifier => readWord t ts
  | _ =>
    if t.isSemicolon then { value := .blank, rest := ts }
    else
      { value := .other, rest := skipLine ts, faults := [⟨.unexpectedStatement t.text, t.span⟩] }

/-! ### What a statement leaves -/

theorem tagArguments_leaves (depth : Int) (text : String) (ts : List Token) :
    Leaves ts (tagArguments depth text ts).2 := by
  fun_induction tagArguments depth text ts with
  | case1 => exact .all _
  | case2 => exact .all _
  | case3 => exact .all _
  | case4 _ _ t ts h _ _ ih => exact .step (fun he => h (by simp [Token.endsLine, he])) ih
  | case5 _ _ t ts h _ _ ih => exact .step (fun he => h (by simp [Token.endsLine, he])) ih

theorem readTag_leaves (name : Token) (ts : List Token) : Leaves ts (readTag name ts).rest := by
  unfold readTag
  split
  · next h =>
    have ha := (Leaves.tail h (by decide)).trans (tagArguments_leaves 0 "" ts.tail)
    dsimp only
    split
    · next hc => exact ha.trans (.tail hc (by decide))
    · exact ha
  · exact .all _

theorem exportHint_leaves (ts : List Token) : Leaves ts (exportHint ts).rest := by
  unfold exportHint
  split
  · next h =>
    have ha := (Leaves.tail h (by decide)).trans
      (skipTo_leaves (fun t => t.kind == .closing .paren || t.isSemicolon) 0 ts.tail)
    dsimp only
    split
    · next hc => exact ha.trans (.tail hc (by decide))
    · exact ha
  · exact .all _

theorem readWord_leaves (t : Token) (ts : List Token) : Leaves ts (readWord t ts).rest := by
  unfold readWord
  split
  · exact .all _
  · split
    · dsimp only
      split
      · exact exportHint_leaves _
      · exact .all _
    · exact skipLine_leaves _

theorem baseSegments_leaves (path : String) (span : Span) (ts : List Token) :
    Leaves ts (baseSegments path span ts).rest := by
  fun_induction baseSegments path span ts with
  | case1 _ _ dot t ts h h' ih => exact .step (by simp [h]) (.step (by simp [h']) ih)
  | case2 _ _ dot t ts h => exact .step (by simp [h]) (.all _)
  | case3 => exact .all _
  | case4 _ _ dot h => exact .step (by simp [h]) (.all _)
  | case5 => exact .all _
  | case6 => exact .all _

theorem finishBase_leaves (toBase : String → Base) (first : Token) (ts : List Token) :
    Leaves ts (finishBase toBase first ts).rest :=
  (baseSegments_leaves _ _ _).trans (finish_leaves _)

theorem readBase_leaves (hasBase : Bool) (keyword : Token) (ts : List Token) :
    Leaves ts (readBase hasBase keyword ts).rest := by
  unfold readBase
  split
  · exact skipLine_leaves _
  · split
    · split
      · next h => exact .step (by simp [h]) (finishBase_leaves _ _ _)
      · split
        · next h => exact .step (by simp [h]) (finishBase_leaves _ _ _)
        · exact skipLine_leaves _
    · exact .all _

theorem readIcon_leaves (ts : List Token) : Leaves ts (readIcon ts).rest := by
  unfold readIcon
  split
  · next h =>
    have ht : Leaves ts ts.tail := .tail h (by decide)
    split
    · next t r heq =>
      rw [heq] at ht
      split
      · next hk => exact ht.trans (.step (by simp [hk]) (.all _))
      · exact ht
    · next heq =>
      rw [heq] at ht
      exact ht
  · exact .all _

theorem readHeaderEnd_leaves (hasBase : Bool) (ts : List Token) :
    Leaves ts (readHeaderEnd hasBase ts).rest := by
  unfold readHeaderEnd
  split
  · split
    · next h => exact .step (by simp [h]) (readBase_leaves _ _ _)
    · exact finish_leaves _
  · exact .all _

theorem readHeader_leaves (hasName hasBase : Bool) (keyword : Token) (ts : List Token) :
    Leaves ts (readHeader hasName hasBase keyword ts).rest := by
  unfold readHeader
  split
  · exact skipLine_leaves _
  · split
    · split
      · next h =>
        exact .step (by simp [h]) ((readIcon_leaves _).trans (readHeaderEnd_leaves _ _))
      · exact skipLine_leaves _
    · exact .all _

theorem readVariableType_leaves (v : VariableDecl) (ts : List Token) :
    Leaves ts (readVariableType v ts).rest := by
  unfold readVariableType
  dsimp only
  split
  · next hc =>
    have ht : Leaves ts ts.tail := .tail hc (by decide)
    have he := ht.trans (TypeExpr.read_leaves ts.tail)
    split
    · next h => exact (ht.trans (.tail h (by decide))).trans (skipStatement_leaves _)
    · split
      · exact he.trans (skipStatement_leaves _)
      · exact he.trans (skipLine_leaves _)
  · split
    · next h => exact (Leaves.tail h (by decide)).trans (skipStatement_leaves _)
    · exact skipStatement_leaves _

theorem readVariable_leaves (isStatic : Bool) (keyword : Token) (ts : List Token) :
    Leaves ts (readVariable isStatic keyword ts).rest := by
  unfold readVariable
  split
  · next h => exact (Leaves.tail h (by decide)).trans (readVariableType_leaves _ _)
  · exact skipLine_leaves _

theorem readParameters_leaves (ts : List Token) : Leaves ts (readParameters ts).rest := by
  fun_induction readParameters ts with
  | case1 => exact .all _
  | case2 ts _ p here h more ih =>
    exact ((readParameter_leaves ts).trans (.tail h (by decide))).trans ih
  | case3 ts _ p here h => exact readParameter_leaves ts

theorem readReturnType_leaves (ts : List Token) : Leaves ts (readReturnType ts).rest := by
  unfold readReturnType
  split
  · next h =>
    have he := (Leaves.tail h (by decide)).trans (TypeExpr.read_leaves ts.tail)
    dsimp only
    split <;> exact he
  · exact .all _

theorem noFunction_leaves (ts : List Token) (faults : List LocatedFault) :
    Leaves ts (noFunction ts faults).rest := skipLine_leaves _

theorem readSignatureEnd_leaves (f : FunctionDecl) (ts : List Token) :
    Leaves ts (readSignatureEnd f ts).rest := by
  unfold readSignatureEnd
  split
  · next h =>
    have hr := (Leaves.tail h (by decide)).trans (readReturnType_leaves ts.tail)
    dsimp only
    split
    · exact hr.trans (noFunction_leaves _ _)
    · split
      · exact hr.trans (skipLine_leaves _)
      · exact hr.trans (noFunction_leaves _ _)
  · exact noFunction_leaves _ _

theorem readFunction_leaves (isStatic : Bool) (keyword : Token) (ts : List Token) :
    Leaves ts (readFunction isStatic keyword ts).rest := by
  unfold readFunction
  split
  · next h =>
    have ht : Leaves ts ts.tail := .tail h (by decide)
    split
    · next hp =>
      exact ((ht.trans (.tail hp (by decide))).trans (readParameters_leaves _)).trans
        (readSignatureEnd_leaves _ _)
    · exact ht.trans (noFunction_leaves _ _)
  · exact noFunction_leaves _ _

theorem readSignal_leaves (keyword : Token) (ts : List Token) :
    Leaves ts (readSignal keyword ts).rest := by
  unfold readSignal
  split
  · next h =>
    have ht : Leaves ts ts.tail := .tail h (by decide)
    dsimp only
    split
    · next hp =>
      have hr := (ht.trans (.tail hp (by decide))).trans (readParameters_leaves _)
      split
      · next hc => exact (hr.trans (.tail hc (by decide))).trans (finish_leaves _)
      · exact hr.trans (skipLine_leaves _)
    · exact ht.trans (finish_leaves _)
  · exact skipLine_leaves _

theorem readStatic_leaves (keyword : Token) (ts : List Token) :
    Leaves ts (readStatic keyword ts).rest := by
  unfold readStatic
  split
  · split
    · next h => exact .step (by simp [h]) (readVariable_leaves _ _ _)
    · split
      · next h => exact .step (by simp [h]) (readFunction_leaves _ _ _)
      · exact skipLine_leaves _
  · exact .all _

/-- A statement leaves a part of the tokens after its first. -/
theorem read_leaves (hasName hasBase : Bool) (t : Token) (ts : List Token) :
    Leaves ts (read hasName hasBase t ts).rest := by
  unfold read
  split
  · exact .all _
  · exact skipLine_leaves _
  · exact readTag_leaves _ _
  · exact readHeader_leaves _ _ _ _
  · exact readBase_leaves _ _ _
  · exact readVariable_leaves _ _ _
  · exact readFunction_leaves _ _ _
  · exact readSignal_leaves _ _
  · exact readStatic_leaves _ _
  · exact skipStatement_leaves _
  · exact skipStatement_leaves _
  · exact skipLine_leaves _
  · exact readWord_leaves _ _
  · split
    · exact .all _
    · exact skipLine_leaves _

section Equations

/-! What each kind of token starts. -/

variable {hasName hasBase : Bool} {t : Token} {ts : List Token}

theorem read_newline (hk : t.kind = .newline) :
    read hasName hasBase t ts = { value := .blank, rest := ts } := by simp [read, hk]

theorem read_indent (hk : t.kind = .indent) :
    read hasName hasBase t ts = { value := .blank, rest := skipLine ts } := by simp [read, hk]

theorem read_tag (hk : t.kind = .tag) : read hasName hasBase t ts = map .tag (readTag t ts) := by
  simp [read, hk]

theorem read_className (hk : t.kind = .keyword .className) :
    read hasName hasBase t ts = readHeader hasName hasBase t ts := by simp [read, hk]

theorem read_extending (hk : t.kind = .keyword .extending) :
    read hasName hasBase t ts = map (Option.elim · .blank .base) (readBase hasBase t ts) := by
  simp [read, hk]

theorem read_variable (hk : t.kind = .keyword .var) :
    read hasName hasBase t ts = map .var (readVariable false t ts) := by simp [read, hk]

theorem read_function (hk : t.kind = .keyword .func) :
    read hasName hasBase t ts = map .func (readFunction false t ts) := by simp [read, hk]

theorem read_signal (hk : t.kind = .keyword .signal) :
    read hasName hasBase t ts = map .signal (readSignal t ts) := by simp [read, hk]

theorem read_static (hk : t.kind = .keyword .static) :
    read hasName hasBase t ts = readStatic t ts := by simp [read, hk]

theorem read_word (hk : t.kind = .identifier) : read hasName hasBase t ts = readWord t ts := by
  simp [read, hk]

theorem read_semicolon (h : t.isSemicolon) :
    read hasName hasBase t ts = { value := .blank, rest := ts } := by
  have hk : t.kind = .operator := beq_iff_eq.1 (Bool.and_eq_true_iff.1 h).1
  simp [read, hk, h]

theorem readStatic_variable {u : Token} (hk : u.kind = .keyword .var) :
    readStatic t (u :: ts) = map .var (readVariable true u ts) := by simp [readStatic, hk]

theorem readStatic_function {u : Token} (hk : u.kind = .keyword .func) :
    readStatic t (u :: ts) = map .func (readFunction true u ts) := by simp [readStatic, hk]

end Equations

end Statement

end ScriptBridge
