import ScriptBridge.Script.ClassReading

/-! Walking over the tokens of a script with a cursor. A walk holds the place of the next token in
a list that it does not take apart. It halts where it asks for a token outside the list, and its
loops take no more turns than a limit, so that a walk that goes on for ever halts too. The
parts of a script are walked over one by one here, down to the skipping of single tokens, and a
script up to its end. -/

namespace ScriptBridge

/-- Why a walk has no outcome. -/
inductive Halt where
  | outside
  | endless
  deriving DecidableEq

/-- What a walk brings, where it leaves the cursor, and the faults found on the way. -/
structure Passage (α : Type) where
  value : α
  place : Nat
  faults : List LocatedFault := []

/-- A way over the tokens of a list from the place of a cursor. -/
structure Walk (α : Type) where
  run : List Token → Nat → Except Halt (Passage α)

/-- What a turn of a loop leads to: the next turn, or the end of the loop. -/
inductive Turn (σ β : Type) where
  | again (state : σ)
  | done (result : β)

namespace Walk

variable {α σ β : Type}

/-- An outcome with the faults found before it. -/
def before (faults : List LocatedFault) (x : Except Halt (Passage α)) : Except Halt (Passage α) :=
  x.map fun p => { p with faults := faults ++ p.faults }

instance : Monad Walk where
  pure v := ⟨fun _ place => .ok { value := v, place }⟩
  bind w f := ⟨fun tokens place =>
    match w.run tokens place with
    | .ok p => before p.faults ((f p.value).run tokens p.place)
    | .error halt => .error halt⟩

/-- A walk that takes too many turns. -/
def tooLong : Walk α := ⟨fun _ _ => .error .endless⟩

/-- Takes turns up to the end of the loop, as many as the limit allows. -/
def loop : Nat → (σ → Walk (Turn σ β)) → σ → Walk β
  | 0, _, _ => tooLong
  | limit + 1, turn, state => do
    match ← turn state with
    | .again next => loop limit turn next
    | .done result => pure result

/-! ### Single tokens -/

/-- The token at a place, for a cursor that stays `here`. -/
def tokenAt (tokens : List Token) (place here : Nat) : Except Halt (Passage Token) :=
  match tokens[place]? with
  | some t => .ok { value := t, place := here }
  | none => .error .outside

def peek : Walk Token := ⟨fun tokens place => tokenAt tokens place place⟩

/-- The token before the cursor, or the first one at the start. -/
def previous : Walk Token := ⟨fun tokens place => tokenAt tokens (place - 1) place⟩

/-- The token `n` places on, or the last one if there are not so many. -/
def ahead (n : Nat) : Walk Token := ⟨fun tokens place =>
  tokenAt tokens (if place + n < tokens.length then place + n else tokens.length - 1) place⟩

def move : Walk Unit := ⟨fun _ place => .ok { value := (), place := place + 1 }⟩

def report (fault : Fault) (span : Span) : Walk Unit := ⟨fun _ place =>
  .ok { value := (), place, faults := [⟨fault, span⟩] }⟩

def atEnd : Walk Bool := do return (← peek).kind == .endOfFile

def atLineEnd : Walk Bool := do return (← peek).endsLine

def atSemicolon : Walk Bool := do return (← peek).isSemicolon

/-- Whether the next token has a kind, which the end of the script never has. -/
def check (kind : TokenKind) : Walk Bool := do
  if ← atEnd then pure false
  else return (← peek).kind == kind

/-- Takes a token; the end of the script is not taken. -/
def advance : Walk Token := do
  if ← atEnd then previous
  else
    move
    previous

/-- Takes a token of a kind, if there is one. -/
def accept (kind : TokenKind) : Walk Bool := do
  if ← check kind then
    let _ ← advance
    pure true
  else pure false

/-- Takes a token of a kind; another token stays, and is reported. -/
def consume (kind : TokenKind) (fault : Fault) : Walk Token := do
  if ← check kind then advance
  else
    let t ← peek
    report fault t.span
    pure t

/-- Reports a fault at the next token. -/
def reportHere (fault : Fault) : Walk Unit := do
  let t ← peek
  report fault t.span

section Parts
variable (limit : Nat)

/-! ### Skipping -/

def skipLine : Walk Unit :=
  loop limit (fun _ => do
    if ← atEnd then pure (.done ())
    else
      let t ← advance
      pure (if t.kind == .newline then .done () else .again ())) ()

/-- Up to the end of the line, or to a token outside brackets at which `stop` holds. -/
def skipTo (stop : Token → Bool) : Walk Unit :=
  loop limit (fun depth => do
    if ← atLineEnd then pure (.done ())
    else
      let t ← peek
      if depth == 0 && stop t then pure (.done ())
      else
        let _ ← advance
        pure (.again (depth + Tokens.nesting t))) (0 : Int)

def skipExpression : Walk Unit :=
  skipTo limit fun t => t.kind == .comma || t.kind == .closing .paren || t.isSemicolon

def endStatement : Walk Unit := do
  if ← atSemicolon then
    let _ ← advance
    pure ()
  else skipLine limit

def skipStatement : Walk Unit := do
  skipTo limit Token.isSemicolon
  endStatement limit

/-- Ends a statement in which nothing more may stand. -/
def finish : Walk Unit := do
  if ← atSemicolon then
    let _ ← advance
    pure ()
  else if ← atLineEnd then skipLine limit
  else
    reportHere .trailingTokens
    skipLine limit

/-! ### Tags -/

/-- What has been read of the arguments of a tag: the arguments that are complete, and of the
current one the open brackets and the text. -/
structure TagState where
  depth : Int := 0
  text : String := ""
  arguments : List String := []

def tagArguments : Walk (List String) :=
  loop limit (fun (s : TagState) => do
    if ← atLineEnd then pure (.done s.arguments)
    else
      let t ← peek
      if s.depth == 0 && t.kind == .closing .paren then pure (.done (s.arguments ++ [s.text]))
      else
        let _ ← advance
        if s.depth == 0 && t.kind == .comma then
          pure (.again { arguments := s.arguments ++ [s.text] })
        else
          pure (.again
            { s with depth := s.depth + Statement.tagNesting t, text := s.text ++ t.text })) {}

def tag : Walk Tag := do
  let name ← advance
  if ← accept (.opening .paren) then
    let arguments ← tagArguments limit
    let closing ← consume (.closing .paren) .unclosedTag
    pure ⟨name.text, arguments, name.span.hull closing.span⟩
  else pure ⟨name.text, [], name.span⟩

/-- Tags that stand one behind the other. -/
def tags : Draft → Walk Draft :=
  loop limit fun d => do
    if ← check .tag then
      let t ← tag limit
      pure (.again (d.record (.tag t)))
    else pure (.done d)

/-- An expression and a comma of a hint, up to the closing parenthesis. -/
def hintTurn : Walk (Turn Unit Unit) := do
  if ← atLineEnd then pure (.done ())
  else if ← check (.closing .paren) then pure (.done ())
  else
    skipExpression limit
    let _ ← accept .comma
    pure (.again ())

def exportHint : Walk Unit := do
  if ← accept (.opening .paren) then
    loop limit (fun _ => hintTurn limit) ()
    let _ ← consume (.closing .paren) .unclosedExportHint
    pure ()
  else pure ()

/-- A statement that nothing is known of. -/
def unexpected : Walk Statement := do
  let t ← peek
  report (.unexpectedStatement t.text) t.span
  skipLine limit
  pure .other

/-- An old modifier; otherwise nothing is known of the word. -/
def modifier (t : Token) : Walk Statement := do
  if Statement.modifiers.contains t.text then
    let t ← advance
    if t.text == "export" then
      exportHint limit
      pure (.tag ⟨t.text, [], t.span⟩)
    else pure (.tag ⟨t.text, [], t.span⟩)
  else unexpected limit

def word : Walk Statement := do
  let t ← peek
  if t.text == "tool" then
    let next ← ahead 1
    if next.kind == .newline then
      let _ ← advance
      pure (.tag ⟨"tool", [], t.span⟩)
    else modifier limit t
  else modifier limit t

/-! ### The head of the class -/

/-- The segments of a base after its first, each behind a dot. -/
def baseSegments : String × Span → Walk (String × Span) :=
  loop limit fun s => do
    if ← accept .dot then
      let part ← consume .identifier .missingBaseSegment
      if part.kind == .identifier then
        pure (.again (s.1 ++ "." ++ part.text, s.2.hull part.span))
      else pure (.done s)
    else pure (.done s)

def base (toBase : String → Base) : Walk (Option (Base × Span)) := do
  let first ← advance
  let s ← baseSegments limit (first.text, first.span)
  finish limit
  pure (some (toBase s.1, s.2))

/-- What follows `extends`. -/
def extending (hasBase : Bool) : Walk (Option (Base × Span)) := do
  let keyword ← previous
  if hasBase then
    report .duplicateBase keyword.span
    skipLine limit
    pure none
  else if ← check .text then base limit .script
  else if ← check .identifier then base limit Base.ofName
  else
    reportHere .missingBase
    skipLine limit
    pure none

/-- The icon that may follow the name of the class. -/
def icon : Walk (Option Tag) := do
  if ← accept .comma then
    let t ← consume .text .missingIconPath
    if t.kind == .text then pure (some ⟨"icon", [t.text], t.span⟩)
    else pure none
  else pure none

/-- What follows the name and the icon of a class. -/
def headerEnd (hasBase : Bool) (name : String) (span : Span) (icon : Option Tag) :
    Walk Statement := do
  if ← accept (.keyword .extending) then
    let b ← extending limit hasBase
    pure (.header name span icon b)
  else
    finish limit
    pure (.header name span icon none)

/-- What follows `class_name`. -/
def header (hasName hasBase : Bool) : Walk Statement := do
  let keyword ← previous
  if hasName then
    report .duplicateClassName keyword.span
    skipLine limit
    pure .blank
  else
    let name ← consume .identifier .missingClassName
    if name.kind == .identifier then
      let tag ← icon
      headerEnd limit hasBase name.text (keyword.span.hull name.span) tag
    else
      skipLine limit
      pure .blank

/-! ### Types -/

/-- The segments that extend a name, each a dot and an identifier. -/
def segments : String × Span → Walk (String × Span) :=
  loop limit fun s => do
    if ← check .dot then
      let next ← ahead 1
      if next.kind == .identifier then
        let _ ← advance
        let part ← advance
        pure (.again (s.1 ++ "." ++ part.text, s.2.hull part.span))
      else pure (.done s)
    else pure (.done s)

end Parts

section Arguments
variable (one : Walk (Option (TypeExpr × Span)))

/-- The bracket that closes the arguments. -/
def closeArguments (es : List TypeExpr) :
    Walk (Turn (List TypeExpr) (Option (List TypeExpr × Span))) := do
  let closing ← consume (.closing .square) .unclosedElementType
  if closing.kind == .closing .square then pure (.done (some (es, closing.span)))
  else pure (.done none)

/-- One more argument. -/
def argument (es : List TypeExpr) :
    Walk (Turn (List TypeExpr) (Option (List TypeExpr × Span))) := do
  match ← one with
  | some e => pure (.again (es ++ [e.1]))
  | none => pure (.done none)

/-- Arguments up to the closing bracket; before each but the first there is a comma. -/
def arguments (limit : Nat) : List TypeExpr → Walk (Option (List TypeExpr × Span)) :=
  loop limit fun es => do
    if ← check (.closing .square) then closeArguments es
    else if ← atLineEnd then closeArguments es
    else if es.isEmpty then argument one es
    else if ← accept .comma then argument one es
    else pure (.done none)

end Arguments

/-- A type expression, with no more types in one another than the limit allows. -/
def typeExpr : Nat → Walk (Option (TypeExpr × Span))
  | 0 => tooLong
  | limit + 1 => do
    if ← check .identifier then
      let first ← advance
      let s ← segments limit (first.text, first.span)
      if ← accept (.opening .square) then
        let a ← arguments (typeExpr limit) limit []
        pure (a.map fun v => (.applied s.1 v.1, s.2.hull v.2))
      else pure (some (.name s.1, s.2))
    else pure none

section Parts
variable (limit : Nat)

/-- The type of the value that starts here, which shows within four tokens. -/
def valueType : Walk String := do
  let value ← peek
  let second ← ahead 1
  let third ← ahead 2
  let fourth ← ahead 3
  pure (Inference.typeOf [value, second, third, fourth])

/-! ### Variables and parameters -/

def inferredVariable (v : VariableDecl) : Walk VariableDecl := do
  let typeName ← valueType
  skipStatement limit
  pure { v with isInferred := true, typeName }

/-- A variable after its name. -/
def variableType (v : VariableDecl) : Walk VariableDecl := do
  if ← accept .colon then
    if ← accept .equals then inferredVariable limit v
    else
      match ← typeExpr limit with
      | some type =>
        skipStatement limit
        pure { v with typeName := type.1.text, span := v.span.hull type.2 }
      | none =>
        reportHere .missingVariableType
        skipLine limit
        pure v
  else if ← accept .colonEquals then inferredVariable limit v
  else
    skipStatement limit
    pure v

/-- What follows `var`. -/
def varDecl (isStatic : Bool) : Walk VariableDecl := do
  let keyword ← previous
  let name ← consume .identifier .missingVariableName
  if name.kind == .identifier then
    variableType limit { name := name.text, isStatic, span := keyword.span.hull name.span }
  else
    skipLine limit
    pure { isStatic }

/-- A default value behind its sign. -/
def defaultExpression (inferred : Bool) (p : Parameter) : Walk Parameter := do
  if inferred then
    let typeName ← valueType
    skipExpression limit
    pure { p with hasDefault := true, typeName }
  else
    skipExpression limit
    pure { p with hasDefault := true }

def defaultValue (inferred : Bool) (p : Parameter) : Walk Parameter := do
  if ← accept .equals then defaultExpression limit inferred p
  else if ← accept .colonEquals then defaultExpression limit inferred p
  else pure p

/-- A parameter after its name. -/
def parameterType (p : Parameter) : Walk Parameter := do
  let inferred ← check .colonEquals
  if ← accept .colon then
    if ← check .equals then defaultValue limit true p
    else
      match ← typeExpr limit with
      | some type =>
        defaultValue limit false { p with typeName := type.1.text, span := p.span.hull type.2 }
      | none =>
        reportHere .missingParameterType
        skipExpression limit
        pure p
  else defaultValue limit inferred p

def parameter : Walk Parameter := do
  let name ← consume .identifier .missingParameterName
  if name.kind == .identifier then
    parameterType limit { name := name.text, span := name.span }
  else
    skipExpression limit
    pure {}

def parameters : Walk (List Parameter) :=
  loop limit (fun ps => do
    if ← check (.closing .paren) then pure (.done ps)
    else if ← atLineEnd then pure (.done ps)
    else
      let p ← parameter limit
      let named := if p.name == "" then ps else ps ++ [p]
      if ← accept .comma then pure (.again named)
      else pure (.done named)) []

/-! ### Functions and signals -/

/-- A function that cannot be walked over has no name. -/
def noFunction : Walk FunctionDecl := do
  skipLine limit
  pure {}

/-- The colon before the body, and the rest of its line. -/
def functionEnd (f : FunctionDecl) : Walk FunctionDecl := do
  if ← check .colon then
    skipLine limit
    pure f
  else
    reportHere .missingBodyColon
    noFunction limit

/-- A function behind its parameters. -/
def returnType (f : FunctionDecl) : Walk FunctionDecl := do
  if ← accept .arrow then
    match ← typeExpr limit with
    | some type =>
      functionEnd limit { f with returnType := some type.1.text, span := f.span.hull type.2 }
    | none =>
      reportHere .missingReturnType
      noFunction limit
  else functionEnd limit f

/-- The end of a signature, from the parenthesis that closes the parameters. -/
def signatureEnd (f : FunctionDecl) : Walk FunctionDecl := do
  let closing ← consume (.closing .paren) .unclosedParameterList
  if closing.kind == .closing .paren then
    returnType limit { f with span := f.span.hull closing.span }
  else noFunction limit

/-- What follows `func`. -/
def funcDecl (isStatic : Bool) : Walk FunctionDecl := do
  let keyword ← previous
  let name ← consume .identifier .missingFunctionName
  if name.kind == .identifier then
    if ← accept (.opening .paren) then
      let ps ← parameters limit
      signatureEnd limit { name := name.text, parameters := ps, isStatic, span := keyword.span }
    else
      reportHere .missingParameterList
      noFunction limit
  else noFunction limit

/-- What follows `signal`. -/
def signalDecl : Walk SignalDecl := do
  let keyword ← previous
  let name ← consume .identifier .missingSignalName
  if name.kind == .identifier then
    let span := keyword.span.hull name.span
    if ← accept (.opening .paren) then
      let ps ← parameters limit
      let closing ← consume (.closing .paren) .unclosedSignalParameters
      if closing.kind == .closing .paren then
        finish limit
        pure { name := name.text, parameters := ps, span := span.hull closing.span }
      else
        skipLine limit
        pure {}
    else
      finish limit
      pure { name := name.text, span }
  else
    skipLine limit
    pure {}

/-! ### Statements -/

def staticDecl : Walk Statement := do
  let keyword ← previous
  if ← accept (.keyword .var) then
    let v ← varDecl limit true
    pure (.var v)
  else if ← accept (.keyword .func) then
    let f ← funcDecl limit true
    pure (.func f)
  else
    report .strayStatic keyword.span
    skipLine limit
    pure .blank

/-- A statement that starts with a word. -/
def statement (hasName hasBase : Bool) : Walk Statement := do
  let t ← peek
  match t.kind with
  | .keyword .className =>
    let _ ← advance
    header limit hasName hasBase
  | .keyword .extending =>
    let _ ← advance
    let b ← extending limit hasBase
    pure (b.elim .blank .base)
  | .keyword .var =>
    let _ ← advance
    let v ← varDecl limit false
    pure (.var v)
  | .keyword .func =>
    let _ ← advance
    let f ← funcDecl limit false
    pure (.func f)
  | .keyword .signal =>
    let _ ← advance
    let s ← signalDecl limit
    pure (.signal s)
  | .keyword .static =>
    let _ ← advance
    staticDecl limit
  | .keyword .const | .keyword .enumeration =>
    skipStatement limit
    pure .other
  | .keyword .innerClass =>
    skipLine limit
    pure .other
  | .identifier => word limit
  | _ => unexpected limit

/-- A statement, or what may stand between statements, up to the end of the script. -/
def statementTurn (d : Draft) : Walk (Turn Draft Draft) := do
  if ← atEnd then pure (.done d)
  else if ← accept .newline then pure (.again d)
  else if ← check .indent then
    skipLine limit
    pure (.again d)
  else if ← check .tag then
    let d ← tags limit d
    pure (.again d)
  else if ← atSemicolon then
    let _ ← advance
    pure (.again d)
  else
    let s ← statement limit (d.script.name != "") d.script.base.isSome
    pure (.again (d.record s))

def statements : Draft → Walk Draft := loop limit (statementTurn limit)

/-- The class that the script at `path` declares. -/
def script (path : String) : Walk ScriptClass := do
  let d ← statements limit { script := { path } }
  pure d.finish

end Parts

end Walk

end ScriptBridge
