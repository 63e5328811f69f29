import Mathlib.Tactic.SplitIfs
import ScriptBridge.Proofs.Script.TypeReading
import ScriptBridge.Script.ClassReading

/-! Reading does not depend on places, and it does not look into texts. A respelling writes
every text anew, part by part, and leaves a text of one line as it is; what it makes of a token,
a fault or a declaration has no place. Proved: reading respelled tokens gives what reading the
tokens gives, respelled, for each statement and for the whole class. -/

namespace ScriptBridge

@[simp] theorem Span.hull_self (s : Span) : s.hull s = s := by
  unfold Span.hull
  split_ifs <;> rfl

/-- A way to write texts anew. -/
structure Respelling where
  spell : String → String
  spell_append (a b : String) : spell (a ++ b) = spell a ++ spell b
  spell_injective : Function.Injective spell
  spell_line {w : String} (h : '\n' ∉ w.toList) : spell w = w

namespace Respelling

/-- The respelling that changes no text. -/
def same : Respelling where
  spell := id
  spell_append _ _ := rfl
  spell_injective _ _ h := h
  spell_line _ := rfl

variable (φ : Respelling)

/-! ### What is respelled -/

abbrev token (t : Token) : Token := { kind := t.kind, text := φ.spell t.text }

def tokens (ts : List Token) : List Token := ts.map φ.token

def fault : Fault → Fault
  | .unexpectedStatement text => .unexpectedStatement (φ.spell text)
  | f => f

def located (f : LocatedFault) : LocatedFault := ⟨φ.fault f.fault, {}⟩

def tag (t : Tag) : Tag := { name := φ.spell t.name, arguments := t.arguments.map φ.spell }

def parameter (p : Parameter) : Parameter :=
  { name := φ.spell p.name, typeName := φ.spell p.typeName, hasDefault := p.hasDefault }

def variableDecl (v : VariableDecl) : VariableDecl :=
  { v with
    name := φ.spell v.name
    typeName := φ.spell v.typeName
    tags := v.tags.map φ.tag
    span := {} }

def functionDecl (f : FunctionDecl) : FunctionDecl :=
  { f with
    name := φ.spell f.name
    parameters := f.parameters.map φ.parameter
    returnType := f.returnType.map φ.spell
    tags := f.tags.map φ.tag
    span := {} }

def signalDecl (s : SignalDecl) : SignalDecl :=
  { name := φ.spell s.name, parameters := s.parameters.map φ.parameter }

def base : Base → Base
  | .engine kind => .engine kind
  | .named name => .named (φ.spell name)
  | .script path => .script (φ.spell path)

def typeExpr : TypeExpr → TypeExpr
  | .name path => .name (φ.spell path)
  | .applied path arguments => .applied (φ.spell path) (arguments.map typeExpr)

/-- A value that becomes another by `f`, and its span, which is forgotten. -/
def placed {α β : Type} (f : α → β) (x : α × Span) : β × Span := (f x.1, {})

def statement : Statement → Statement
  | .blank => .blank
  | .other => .other
  | .tag t => .tag (φ.tag t)
  | .header name _ icon b => .header (φ.spell name) {} (icon.map φ.tag) (b.map (placed φ.base))
  | .base b => .base (placed φ.base b)
  | .var v => .var (φ.variableDecl v)
  | .func f => .func (φ.functionDecl f)
  | .signal s => .signal (φ.signalDecl s)

/-- The path of a class is no text of its script. -/
def scriptClass (c : ScriptClass) : ScriptClass where
  name := φ.spell c.name
  path := c.path
  base := c.base.map (placed φ.base)
  tags := c.tags.map φ.tag
  vars := c.vars.map φ.variableDecl
  functions := c.functions.map φ.functionDecl
  signals := c.signals.map φ.signalDecl

def draft (d : Draft) : Draft :=
  { script := φ.scriptClass d.script, pending := d.pending.map φ.tag }

/-- A reading whose value becomes another by `f`. -/
def reading {α β : Type} (f : α → β) (r : Reading α) : Reading β where
  value := f r.value
  rest := φ.tokens r.rest
  faults := r.faults.map φ.located

/-! ### Texts -/

@[simp] theorem spell_empty : φ.spell "" = "" := φ.spell_line (by decide)

variable {w : String} {ws : List String}

/-- A respelled text is a text of one line exactly if it was that text before. -/
theorem spell_eq_iff (h : '\n' ∉ w.toList) (s : String) : φ.spell s = w ↔ s = w := by
  constructor
  · intro hs
    exact φ.spell_injective (hs.trans (φ.spell_line h).symm)
  · rintro rfl
    exact φ.spell_line h

theorem spell_beq (h : '\n' ∉ w.toList) (s : String) : (φ.spell s == w) = (s == w) := by
  rw [Bool.eq_iff_iff, beq_iff_eq, beq_iff_eq, φ.spell_eq_iff h]

@[simp] theorem spell_beq_empty (s : String) : (φ.spell s == "") = (s == "") :=
  φ.spell_beq (by decide) s

theorem contains_spell (h : ∀ w ∈ ws, '\n' ∉ w.toList) (s : String) :
    ws.contains (φ.spell s) = ws.contains s := by
  induction ws with
  | nil => rfl
  | cons w ws ih =>
    obtain ⟨hw, hws⟩ := List.forall_mem_cons.1 h
    rw [List.contains_cons, List.contains_cons, φ.spell_beq hw, ih hws]

theorem spell_intercalate (separator : String) (texts : List String) :
    φ.spell (separator.intercalate texts) =
      (φ.spell separator).intercalate (texts.map φ.spell) := by
  induction texts with
  | nil => simp
  | cons s texts ih =>
    cases texts with
    | nil => simp
    | cons t texts =>
      rw [String.intercalate_cons_cons, φ.spell_append, φ.spell_append, ih]
      simp only [List.map_cons, String.intercalate_cons_cons]

/-- The written form of a type is respelled as its names are. -/
theorem text_typeExpr (e : TypeExpr) : (φ.typeExpr e).text = φ.spell e.text := by
  induction e using TypeExpr.text.induct with
  | case1 path => simp only [typeExpr, TypeExpr.text]
  | case2 path arguments ih =>
    have hmap : (arguments.map φ.typeExpr).map TypeExpr.text =
        (arguments.map TypeExpr.text).map φ.spell := by
      rw [List.map_map, List.map_map]
      exact List.map_congr_left ih
    have hopening : φ.spell "[" = "[" := φ.spell_line (by decide)
    have hbetween : φ.spell ", " = ", " := φ.spell_line (by decide)
    have hclosing : φ.spell "]" = "]" := φ.spell_line (by decide)
    simp only [typeExpr, TypeExpr.text, hmap, φ.spell_append, φ.spell_intercalate, hopening,
      hbetween, hclosing]

theorem scriptName_line (kind : EngineKind) : '\n' ∉ kind.scriptName.toList := by
  cases kind <;> decide

theorem ofName_spell (name : String) : Base.ofName (φ.spell name) = φ.base (Base.ofName name) := by
  by_cases h : ∃ kind : EngineKind, kind.scriptName = name
  · obtain ⟨kind, rfl⟩ := h
    rw [φ.spell_line (scriptName_line kind), Base.ofName_eq_engine_iff.2 rfl, base]
  · have hname (kind : EngineKind) : kind.scriptName ≠ name := fun hk => h ⟨kind, hk⟩
    have hspell (kind : EngineKind) : kind.scriptName ≠ φ.spell name := fun hk =>
      hname kind ((φ.spell_eq_iff (scriptName_line kind) name).1 hk.symm).symm
    rw [Base.ofName_eq_named_iff.2 ⟨rfl, hname⟩, Base.ofName_eq_named_iff.2 ⟨rfl, hspell⟩, base]

/-! ### Parts of what is respelled -/

@[simp] theorem token_kind (t : Token) : (φ.token t).kind = t.kind := rfl

@[simp] theorem token_text (t : Token) : (φ.token t).text = φ.spell t.text := rfl

@[simp] theorem token_span (t : Token) : (φ.token t).span = {} := rfl

@[simp] theorem token_endsLine (t : Token) : (φ.token t).endsLine = t.endsLine := rfl

@[simp] theorem token_isSemicolon (t : Token) : (φ.token t).isSemicolon = t.isSemicolon := by
  rw [Token.isSemicolon, token_kind, token_text, φ.spell_beq (by decide)]
  rfl

@[simp] theorem token_endOfFile : φ.token .endOfFile = .endOfFile := by
  rw [token, Token.endOfFile, spell_empty]

@[simp] theorem tokens_nil : φ.tokens [] = [] := rfl

@[simp] theorem tokens_cons (t : Token) (ts : List Token) :
    φ.tokens (t :: ts) = φ.token t :: φ.tokens ts := rfl

@[simp] theorem tokens_tail (ts : List Token) : φ.tokens ts.tail = (φ.tokens ts).tail :=
  List.map_tail

variable {α β : Type}

@[simp] theorem reading_value (f : α → β) (r : Reading α) : (φ.reading f r).value = f r.value := rfl

@[simp] theorem reading_rest (f : α → β) (r : Reading α) :
    (φ.reading f r).rest = φ.tokens r.rest := rfl

@[simp] theorem reading_faults (f : α → β) (r : Reading α) :
    (φ.reading f r).faults = r.faults.map φ.located := rfl

/-! ### Looking at tokens and skipping them -/

open Tokens

@[simp] theorem next_tokens (ts : List Token) : next (φ.tokens ts) = φ.token (next ts) := by
  cases ts with
  | nil => exact φ.token_endOfFile.symm
  | cons t ts => rfl

@[simp] theorem ahead_tokens (ts : List Token) (n : Nat) :
    ahead (φ.tokens ts) n = φ.token (ahead ts n) := by
  simp only [ahead, tokens, List.getElem?_map]
  cases ts[n]? with
  | some t => rfl
  | none =>
    simp only [Option.map_none, List.getLastD_eq_getLast?, List.getLast?_map]
    cases ts.getLast? with
    | some t => rfl
    | none => exact φ.token_endOfFile.symm

@[simp] theorem starts_tokens (kind : TokenKind) (ts : List Token) :
    starts kind (φ.tokens ts) = starts kind ts := by simp [starts]

@[simp] theorem endsLine_tokens (ts : List Token) :
    endsLine (φ.tokens ts) = endsLine ts := by simp [endsLine]

@[simp] theorem faultHere_tokens (fault : Fault) (ts : List Token) :
    faultHere fault (φ.tokens ts) = ⟨fault, {}⟩ := by simp [faultHere]

@[simp] theorem skipLine_tokens (ts : List Token) :
    skipLine (φ.tokens ts) = φ.tokens (skipLine ts) := by
  induction ts with
  | nil => rfl
  | cons t ts ih =>
    simp only [tokens_cons, skipLine, ih]
    split_ifs <;> rfl

theorem skipTo_tokens {stop : Token → Bool} (hs : ∀ t, stop (φ.token t) = stop t) (depth : Int)
    (ts : List Token) : skipTo stop depth (φ.tokens ts) = φ.tokens (skipTo stop depth ts) := by
  induction ts generalizing depth with
  | nil => rfl
  | cons t ts ih =>
    have hn : nesting (φ.token t) = nesting t := rfl
    simp only [tokens_cons, skipTo, token_endsLine, hs, hn, ih]
    split_ifs <;> rfl

@[simp] theorem skipExpression_tokens (ts : List Token) :
    skipExpression (φ.tokens ts) = φ.tokens (skipExpression ts) :=
  φ.skipTo_tokens (fun _ => by simp) 0 ts

@[simp] theorem endStatement_tokens (ts : List Token) :
    endStatement (φ.tokens ts) = φ.tokens (endStatement ts) := by
  simp only [endStatement, next_tokens, token_isSemicolon, skipLine_tokens]
  split_ifs <;> simp

@[simp] theorem skipStatement_tokens (ts : List Token) :
    skipStatement (φ.tokens ts) = φ.tokens (skipStatement ts) := by
  rw [skipStatement, φ.skipTo_tokens φ.token_isSemicolon, endStatement_tokens]
  rfl

@[simp] theorem finish_tokens (ts : List Token) :
    finish (φ.tokens ts) = φ.reading id (finish ts) := by
  simp only [finish, reading, next_tokens, token_isSemicolon, endsLine_tokens,
    endStatement_tokens, faultHere_tokens]
  split_ifs <;> rfl

/-! ### Type expressions -/

section TypeExpressions

open TypeExpr

/-- A dotted name is respelled segment by segment. -/
theorem spell_segment (path name : String) :
    φ.spell path ++ "." ++ φ.spell name = φ.spell (path ++ "." ++ name) := by
  have hdot : φ.spell "." = "." := φ.spell_line (by decide)
  rw [φ.spell_append, φ.spell_append, hdot]

theorem segments_tokens (path : String) (span : Span) (ts : List Token) :
    segments (φ.spell path) {} (φ.tokens ts) =
      ((φ.spell (segments path span ts).1.1, {}), φ.tokens (segments path span ts).2) := by
  fun_induction segments path span ts with
  | case1 path span dot t ts h ih =>
    simp only [tokens_cons, segments, h, if_true, Span.hull_self, φ.spell_segment]
    exact ih
  | case2 path span dot t ts h =>
    simp only [tokens_cons, segments, h]
    rfl
  | case3 path span ts h =>
    cases ts with
    | nil => rfl
    | cons t ts =>
      cases ts with
      | nil => rfl
      | cons u us => exact absurd rfl (h t u us)

/-- Arguments of a type. -/
abbrev typeExprs (arguments : List TypeExpr) : List TypeExpr := arguments.map φ.typeExpr

@[simp] theorem closeArguments_tokens (ts : List Token) :
    closeArguments (φ.tokens ts) = φ.reading (Option.map fun _ => {}) (closeArguments ts) := by
  cases ts with
  | nil => rfl
  | cons t ts =>
    simp only [tokens_cons, closeArguments]
    split_ifs <;> rfl

@[simp] theorem endsArguments_tokens (ts : List Token) :
    endsArguments (φ.tokens ts) = endsArguments ts := by simp [endsArguments]

theorem endArguments_tokens (ts : List Token) :
    endArguments (φ.tokens ts) =
      φ.reading (Option.map (placed φ.typeExprs)) (endArguments ts) := by
  simp only [endArguments, closeArguments_tokens, reading]
  cases (closeArguments ts).value <;> rfl

theorem consArgument_tokens {ts : List Token}
    (hr : read (φ.tokens ts) = φ.reading (Option.map (placed φ.typeExpr)) (read ts))
    (hm : moreArguments (φ.tokens (read ts).rest) =
      φ.reading (Option.map (placed φ.typeExprs)) (moreArguments (read ts).rest)) :
    consArgument (φ.tokens ts) =
      φ.reading (Option.map (placed φ.typeExprs)) (consArgument ts) := by
  unfold consArgument
  rw [hr]
  simp only [reading_value, reading_rest, reading_faults, hm]
  cases (read ts).value with
  | none => rfl
  | some v =>
    simp only [Option.map_some, reading, List.map_append]
    cases (moreArguments (read ts).rest).value <;> rfl

theorem readType_tokens (ts : List Token) :
    read (φ.tokens ts) = φ.reading (Option.map (placed φ.typeExpr)) (read ts) := by
  refine (reading_induction
    (P := fun ts => read (φ.tokens ts) = φ.reading (Option.map (placed φ.typeExpr)) (read ts))
    (A := fun ts => argumentList (φ.tokens ts) =
      φ.reading (Option.map (placed φ.typeExprs)) (argumentList ts))
    (M := fun ts => moreArguments (φ.tokens ts) =
      φ.reading (Option.map (placed φ.typeExprs)) (moreArguments ts))
    ?_ ?_ ?_ ?_ ?_).1 ts
  · simp [read_nil, reading]
  · intro t ts ihA
    have hs := φ.segments_tokens t.text t.span ts
    have ha := ihA (segments t.text t.span ts).2.tail
      (Nat.le_trans (by simp) (segments_leaves t.text t.span ts).length_le)
    rw [tokens_tail] at ha
    simp only [tokens_cons, read_cons, hs, starts_tokens, ha]
    split_ifs
    · simp only [reading]
      cases (argumentList (segments t.text t.span ts).2.tail).value <;> simp [placed, typeExpr]
    · simp [reading, placed, typeExpr]
    · rfl
  · intro ts ihP ihM
    rw [argumentList_eq, argumentList_eq, endsArguments_tokens]
    split_ifs
    · exact φ.endArguments_tokens ts
    · exact φ.consArgument_tokens ihP (ihM _ (read_leaves ts).length_le)
  · have hend : moreArguments [] = endArguments [] := by
      rw [moreArguments_eq]
      rfl
    rw [tokens_nil, hend]
    exact φ.endArguments_tokens []
  · intro t ts ihP ihM
    rw [moreArguments_eq, moreArguments_eq, endsArguments_tokens]
    split_ifs
    · exact φ.endArguments_tokens (t :: ts)
    · simp only [tokens_cons]
      split_ifs
      · exact φ.consArgument_tokens ihP (ihM _ (read_leaves ts).length_le)
      · rfl

end TypeExpressions

/-! ### The types of values -/

theorem spell_literal (kind : TokenKind) :
    φ.spell (Inference.literal kind) = Inference.literal kind := by
  refine φ.spell_line ?_
  unfold Inference.literal
  split <;> decide

theorem signed_spell (sign : String) (kind : TokenKind) :
    Inference.signed (φ.spell sign) kind = Inference.signed sign kind := by
  have hsign {w : String} (h : '\n' ∉ w.toList) := φ.spell_beq h sign
  unfold Inference.signed
  rw [hsign (by decide), hsign (by decide), hsign (by decide)]

theorem spell_signed (sign : String) (kind : TokenKind) :
    φ.spell (Inference.signed sign kind) = Inference.signed sign kind := by
  refine φ.spell_line ?_
  unfold Inference.signed
  split
  · split_ifs <;> decide
  · split_ifs <;> decide
  · split_ifs <;> decide
  · decide

theorem endsValue_token (t : Token) :
    Inference.endsValue (φ.token t) = Inference.endsValue t := by
  simp only [Inference.endsValue, token_isSemicolon]

@[simp] theorem typeOf_tokens (ts : List Token) :
    Inference.typeOf (φ.tokens ts) = φ.spell (Inference.typeOf ts) := by
  have hconstructible : ∀ w ∈ Inference.constructible, '\n' ∉ w.toList := by decide
  simp only [Inference.typeOf, next_tokens, ahead_tokens, endsValue_token, φ.signed_spell,
    φ.contains_spell hconstructible, φ.spell_beq (w := "new") (by decide)]
  cases (next ts).kind with
  | operator => split_ifs <;> simp [φ.spell_signed]
  | identifier => split_ifs <;> simp
  | _ => split_ifs <;> simp [φ.spell_literal]

/-! ### Tags and words -/

open Statement

theorem tagArguments_tokens (depth : Int) (text : String) (ts : List Token) :
    tagArguments depth (φ.spell text) (φ.tokens ts) =
      ((tagArguments depth text ts).1.map φ.spell, φ.tokens (tagArguments depth text ts).2) := by
  induction ts generalizing depth text with
  | nil => rfl
  | cons t ts ih =>
    have hn : tagNesting (φ.token t) = tagNesting t := rfl
    have hempty := ih 0 ""
    rw [spell_empty] at hempty
    simp only [tokens_cons, tagArguments, token_endsLine, hn, ← φ.spell_append, ih, hempty]
    split_ifs <;> rfl

theorem readTag_tokens (name : Token) (ts : List Token) :
    readTag (φ.token name) (φ.tokens ts) = φ.reading φ.tag (readTag name ts) := by
  have ha := φ.tagArguments_tokens 0 "" ts.tail
  rw [spell_empty] at ha
  simp only [readTag, starts_tokens, ← tokens_tail, ha, faultHere_tokens, next_tokens,
    token_span, Span.hull_self]
  split_ifs <;> rfl

theorem exportHint_tokens (ts : List Token) :
    exportHint (φ.tokens ts) = φ.reading id (exportHint ts) := by
  have hs (us : List Token) : skipTo (fun t => t.kind == .closing .paren || t.isSemicolon) 0
      (φ.tokens us) = φ.tokens (skipTo _ 0 us) := φ.skipTo_tokens (fun t => by simp) 0 us
  simp only [exportHint, starts_tokens, ← tokens_tail, hs, faultHere_tokens]
  split_ifs <;> rfl

theorem readWord_tokens (t : Token) (ts : List Token) :
    readWord (φ.token t) (φ.tokens ts) = φ.reading φ.statement (readWord t ts) := by
  have hmodifiers : ∀ w ∈ modifiers, '\n' ∉ w.toList := by decide
  have htool : φ.spell "tool" = "tool" := φ.spell_line (by decide)
  simp only [readWord, ← tokens_cons, ahead_tokens, exportHint_tokens, skipLine_tokens,
    φ.contains_spell hmodifiers, φ.spell_beq (w := "tool") (by decide),
    φ.spell_beq (w := "export") (by decide)]
  split_ifs
  · simp [reading, statement, tag, htool]
  all_goals rfl

/-! ### The head of the class -/

theorem baseSegments_tokens (path : String) (span : Span) (ts : List Token) :
    baseSegments (φ.spell path) {} (φ.tokens ts) =
      φ.reading (placed φ.spell) (baseSegments path span ts) := by
  fun_induction baseSegments path span ts with
  | case1 path span dot t ts hd ht ih =>
    simp only [tokens_cons, baseSegments, hd, ht, if_true, Span.hull_self, φ.spell_segment]
    exact ih
  | case2 path span dot t ts hd ht =>
    simp only [tokens_cons, baseSegments, hd, ht, if_true]
    rfl
  | case3 path span dot t ts hd =>
    simp only [tokens_cons, baseSegments, hd]
    rfl
  | case4 path span dot hd =>
    simp only [tokens_cons, tokens_nil, baseSegments, hd, if_true]
    rfl
  | case5 path span dot hd =>
    simp only [tokens_cons, tokens_nil, baseSegments, hd]
    rfl
  | case6 => rfl

theorem finishBase_tokens {toBase : String → Base}
    (hb : ∀ path, toBase (φ.spell path) = φ.base (toBase path)) (first : Token)
    (ts : List Token) :
    finishBase toBase (φ.token first) (φ.tokens ts) =
      φ.reading (Option.map (placed φ.base)) (finishBase toBase first ts) := by
  have hs := φ.baseSegments_tokens first.text first.span ts
  simp only [finishBase, hs, reading_rest, finish_tokens, reading_faults, reading_value]
  simp [reading, placed, hb]

theorem readBase_tokens (hasBase : Bool) (keyword : Token) (ts : List Token) :
    readBase hasBase (φ.token keyword) (φ.tokens ts) =
      φ.reading (Option.map (placed φ.base)) (readBase hasBase keyword ts) := by
  cases ts with
  | nil =>
    simp only [readBase, tokens_nil]
    split_ifs <;> rfl
  | cons t ts =>
    have hscript : finishBase .script (φ.token t) (φ.tokens ts) =
        φ.reading (Option.map (placed φ.base)) (finishBase .script t ts) :=
      φ.finishBase_tokens (fun _ => rfl) t ts
    simp only [readBase, tokens_cons, φ.finishBase_tokens φ.ofName_spell, hscript]
    simp only [← tokens_cons, skipLine_tokens, faultHere_tokens]
    split_ifs <;> rfl

theorem readIcon_tokens (ts : List Token) :
    readIcon (φ.tokens ts) = φ.reading (Option.map φ.tag) (readIcon ts) := by
  have hicon : φ.spell "icon" = "icon" := φ.spell_line (by decide)
  simp only [readIcon, starts_tokens, ← tokens_tail]
  split_ifs
  · cases ts.tail with
    | nil => rfl
    | cons t us =>
      simp only [tokens_cons]
      split_ifs
      · simp [reading, tag, hicon]
      · rfl
  · rfl

theorem readHeaderEnd_tokens (hasBase : Bool) (ts : List Token) :
    readHeaderEnd hasBase (φ.tokens ts) =
      φ.reading (Option.map (placed φ.base)) (readHeaderEnd hasBase ts) := by
  cases ts with
  | nil => rfl
  | cons t ts =>
    simp only [readHeaderEnd, tokens_cons, readBase_tokens]
    simp only [← tokens_cons, finish_tokens]
    split_ifs <;> rfl

theorem readHeader_tokens (hasName hasBase : Bool) (keyword : Token) (ts : List Token) :
    readHeader hasName hasBase (φ.token keyword) (φ.tokens ts) =
      φ.reading φ.statement (readHeader hasName hasBase keyword ts) := by
  cases ts with
  | nil =>
    simp only [readHeader, tokens_nil]
    split_ifs <;> rfl
  | cons t ts =>
    simp only [readHeader, tokens_cons, readIcon_tokens, reading_rest, readHeaderEnd_tokens,
      reading_value, reading_faults, Span.hull_self]
    simp only [← tokens_cons, skipLine_tokens, faultHere_tokens]
    split_ifs
    · rfl
    · simp [reading, statement]
    · rfl

/-! ### Variables and parameters -/

theorem readVariableType_tokens (v : VariableDecl) (ts : List Token) :
    readVariableType (φ.variableDecl v) (φ.tokens ts) =
      φ.reading φ.variableDecl (readVariableType v ts) := by
  simp only [readVariableType, starts_tokens, ← tokens_tail, typeOf_tokens, skipStatement_tokens,
    readType_tokens, reading_value, reading_rest, reading_faults, skipLine_tokens,
    faultHere_tokens]
  split_ifs
  · rfl
  · cases (TypeExpr.read ts.tail).value with
    | none => simp [reading, located, faultHere, fault]
    | some v => simp [reading, variableDecl, placed, text_typeExpr]
  · rfl
  · rfl

theorem readVariable_tokens (isStatic : Bool) (keyword : Token) (ts : List Token) :
    readVariable isStatic (φ.token keyword) (φ.tokens ts) =
      φ.reading φ.variableDecl (readVariable isStatic keyword ts) := by
  have hnone : φ.variableDecl { isStatic } = { isStatic } := by simp [variableDecl]
  simp only [readVariable, starts_tokens, ← tokens_tail, next_tokens, Span.hull_self, skipLine_tokens,
    faultHere_tokens]
  split_ifs
  · have hv := φ.readVariableType_tokens
      { name := (next ts).text, isStatic, span := keyword.span.hull (next ts).span } ts.tail
    simpa [variableDecl] using hv
  · simp [reading, hnone, located, faultHere, fault]

theorem readDefault_tokens (inferred : Bool) (p : Parameter) (ts : List Token) :
    readDefault inferred (φ.parameter p) (φ.tokens ts) =
      φ.reading φ.parameter (readDefault inferred p ts) := by
  simp only [readDefault, starts_tokens, ← tokens_tail, typeOf_tokens, skipExpression_tokens]
  cases inferred <;> split_ifs <;> rfl

theorem readParameterType_tokens (p : Parameter) (ts : List Token) :
    readParameterType (φ.parameter p) (φ.tokens ts) =
      φ.reading φ.parameter (readParameterType p ts) := by
  simp only [readParameterType, starts_tokens, ← tokens_tail, readDefault_tokens,
    readType_tokens, reading_value, reading_rest, reading_faults, skipExpression_tokens,
    faultHere_tokens]
  split_ifs
  · rfl
  · cases (TypeExpr.read ts.tail).value with
    | none => simp [reading, located, faultHere, fault]
    | some v =>
      have hd := φ.readDefault_tokens false
        { p with typeName := v.1.text, span := p.span.hull v.2 } (TypeExpr.read ts.tail).rest
      have hp : { φ.parameter p with
            typeName := (φ.typeExpr v.1).text, span := (φ.parameter p).span.hull {} } =
          φ.parameter { p with typeName := v.1.text, span := p.span.hull v.2 } := by
        rw [φ.text_typeExpr]
        rfl
      simp only [Option.map_some, placed]
      rw [hp, hd]
      rfl
  · rfl

theorem readParameter_tokens (ts : List Token) :
    readParameter (φ.tokens ts) = φ.reading φ.parameter (readParameter ts) := by
  simp only [readParameter, starts_tokens, ← tokens_tail, next_tokens, skipExpression_tokens,
    faultHere_tokens]
  split_ifs
  · have hp := φ.readParameterType_tokens
      { name := (next ts).text, span := (next ts).span } ts.tail
    simpa [parameter] using hp
  · simp [reading, parameter, located, faultHere, fault]

/-- A parameter that has a name, as a list. -/
theorem map_named (p : Parameter) :
    (if (φ.parameter p).name == "" then [] else [φ.parameter p]) =
      (if p.name == "" then [] else [p]).map φ.parameter := by
  have hn : ((φ.parameter p).name == "") = (p.name == "") := φ.spell_beq_empty p.name
  rw [hn]
  split_ifs <;> rfl

theorem readParameters_tokens (ts : List Token) :
    readParameters (φ.tokens ts) = φ.reading (List.map φ.parameter) (readParameters ts) := by
  fun_induction readParameters ts with
  | case1 ts h =>
    rw [readParameters, starts_tokens, endsLine_tokens, if_pos h]
    rfl
  | case2 ts h p here hc more ih =>
    rw [readParameters, starts_tokens, endsLine_tokens, if_neg h]
    simp only [readParameter_tokens, reading_value, reading_rest, starts_tokens, map_named]
    rw [dif_pos hc, ← tokens_tail, ih]
    simp only [reading, List.map_append]
    rfl
  | case3 ts h p here hc =>
    rw [readParameters, starts_tokens, endsLine_tokens, if_neg h]
    simp only [readParameter_tokens, reading_value, reading_rest, starts_tokens, map_named]
    rw [dif_neg hc]
    rfl

/-! ### Functions and signals -/

theorem readReturnType_tokens (ts : List Token) :
    readReturnType (φ.tokens ts) =
      φ.reading (Option.map (placed (Option.map φ.spell))) (readReturnType ts) := by
  simp only [readReturnType, starts_tokens, ← tokens_tail, readType_tokens, reading_value,
    reading_rest, reading_faults, faultHere_tokens]
  split_ifs
  · cases (TypeExpr.read ts.tail).value with
    | none => simp [reading, located, faultHere, fault]
    | some v => simp [reading, placed, text_typeExpr]
  · rfl

theorem noFunction_tokens (ts : List Token) (faults : List LocatedFault) :
    noFunction (φ.tokens ts) (faults.map φ.located) =
      φ.reading φ.functionDecl (noFunction ts faults) := by
  simp [noFunction, reading, functionDecl]

theorem readSignatureEnd_tokens (f : FunctionDecl) (ts : List Token) :
    readSignatureEnd (φ.functionDecl f) (φ.tokens ts) =
      φ.reading φ.functionDecl (readSignatureEnd f ts) := by
  simp only [readSignatureEnd, starts_tokens, ← tokens_tail, readReturnType_tokens,
    reading_value, reading_rest, reading_faults, next_tokens, skipLine_tokens, faultHere_tokens]
  by_cases hc : starts (.closing .paren) ts
  · rw [if_pos hc, if_pos hc]
    cases (readReturnType ts.tail).value with
    | none => exact φ.noFunction_tokens _ _
    | some v =>
      simp only [Option.map_some, placed]
      by_cases hb : starts .colon (readReturnType ts.tail).rest
      · rw [if_pos hb, if_pos hb]
        simp [reading, functionDecl]
      · rw [if_neg hb, if_neg hb, ← noFunction_tokens, List.map_append]
        rfl
  · rw [if_neg hc, if_neg hc]
    exact φ.noFunction_tokens ts [faultHere .unclosedParameterList ts]

theorem readFunction_tokens (isStatic : Bool) (keyword : Token) (ts : List Token) :
    readFunction isStatic (φ.token keyword) (φ.tokens ts) =
      φ.reading φ.functionDecl (readFunction isStatic keyword ts) := by
  simp only [readFunction, starts_tokens, ← tokens_tail, readParameters_tokens,
    reading_value, reading_rest, reading_faults, next_tokens, faultHere_tokens]
  split_ifs
  · have he := φ.readSignatureEnd_tokens
      { name := (next ts).text, parameters := (readParameters ts.tail.tail).value, isStatic,
        span := keyword.span } (readParameters ts.tail.tail).rest
    simp only [functionDecl, List.map_nil, Option.map_none] at he
    rw [he]
    simp only [reading, List.map_append]
  · exact φ.noFunction_tokens ts.tail [faultHere .missingParameterList ts.tail]
  · exact φ.noFunction_tokens ts [faultHere .missingFunctionName ts]

theorem readSignal_tokens (keyword : Token) (ts : List Token) :
    readSignal (φ.token keyword) (φ.tokens ts) =
      φ.reading φ.signalDecl (readSignal keyword ts) := by
  simp only [readSignal, starts_tokens, ← tokens_tail, readParameters_tokens, reading_value,
    reading_rest, reading_faults, next_tokens, finish_tokens, skipLine_tokens, faultHere_tokens]
  split_ifs <;> simp [reading, signalDecl, located, faultHere, fault]

/-! ### Statements and the class -/

theorem readStatic_tokens (keyword : Token) (ts : List Token) :
    readStatic (φ.token keyword) (φ.tokens ts) =
      φ.reading φ.statement (readStatic keyword ts) := by
  cases ts with
  | nil => rfl
  | cons t ts =>
    simp only [readStatic, tokens_cons, readVariable_tokens, readFunction_tokens]
    simp only [← tokens_cons, skipLine_tokens]
    split_ifs <;> rfl

theorem readStatement_tokens (hasName hasBase : Bool) (t : Token) (ts : List Token) :
    Statement.read hasName hasBase (φ.token t) (φ.tokens ts) =
      φ.reading φ.statement (Statement.read hasName hasBase t ts) := by
  simp only [Statement.read, readTag_tokens, readHeader_tokens, readBase_tokens,
    readVariable_tokens, readFunction_tokens, readSignal_tokens, readStatic_tokens,
    readWord_tokens, skipLine_tokens, skipStatement_tokens, token_isSemicolon]
  cases t.kind with
  | newline | indent | tag | identifier => rfl
  | keyword k =>
    cases k with
    | extending =>
      simp only [map, reading]
      cases (readBase hasBase t ts).value <;> rfl
    | trueLiteral | falseLiteral | nullLiteral => split_ifs <;> rfl
    | _ => rfl
  | _ => split_ifs <;> rfl

theorem record_draft (d : Draft) (s : Statement) :
    φ.draft (d.record s) = (φ.draft d).record (φ.statement s) := by
  cases s with
  | blank => rfl
  | other => rfl
  | tag t =>
    have hwords : ∀ w ∈ Draft.classTags, '\n' ∉ w.toList := by decide
    have hn : Draft.classTags.contains (φ.tag t).name = Draft.classTags.contains t.name :=
      φ.contains_spell hwords t.name
    simp only [Draft.record, statement, hn]
    split_ifs <;> simp [draft, scriptClass]
  | header name span icon base =>
    cases icon <;> cases hb : d.script.base <;>
      simp [Draft.record, statement, draft, scriptClass, hb]
  | base b => rfl
  | var v =>
    have hn : ((φ.variableDecl v).name == "") = (v.name == "") := φ.spell_beq_empty v.name
    simp only [Draft.record, statement, hn]
    split_ifs <;> simp [draft, scriptClass, variableDecl]
  | func f =>
    have hn : ((φ.functionDecl f).name == "") = (f.name == "") := φ.spell_beq_empty f.name
    simp only [Draft.record, statement, hn]
    split_ifs <;> simp [draft, scriptClass, functionDecl]
  | signal s =>
    have hn : ((φ.signalDecl s).name == "") = (s.name == "") := φ.spell_beq_empty s.name
    simp only [Draft.record, statement, hn]
    split_ifs <;> simp [draft, scriptClass]

theorem readDraft_tokens (d : Draft) (ts : List Token) :
    (φ.draft d).read (φ.tokens ts) = φ.reading φ.draft (d.read ts) := by
  fun_induction Draft.read d ts with
  | case1 d =>
    rw [tokens_nil, Draft.read]
    rfl
  | case2 d t ts h =>
    rw [tokens_cons, Draft.read, if_pos h]
    rfl
  | case3 d t ts h s r ih =>
    have hs : Statement.read ((φ.draft d).script.name != "") (φ.draft d).script.base.isSome
        (φ.token t) (φ.tokens ts) = φ.reading φ.statement s := by
      have hn : ((φ.draft d).script.name == "") = (d.script.name == "") :=
        φ.spell_beq_empty d.script.name
      have hb : (φ.draft d).script.base.isSome = d.script.base.isSome := Option.isSome_map
      rw [bne, hn, hb]
      exact φ.readStatement_tokens _ _ t ts
    rw [tokens_cons, Draft.read, if_neg h]
    simp only [hs, reading_value, reading_rest, reading_faults, ← record_draft, ih]
    simp only [reading, List.map_append]
    rfl

theorem finish_draft (d : Draft) : φ.scriptClass d.finish = (φ.draft d).finish := by
  simp [Draft.finish, scriptClass, draft]

/-- The class that tokens declare is respelled as the tokens are, and does not depend on where
they stand. -/
theorem ofTokens_tokens (path : String) (ts : List Token) :
    ScriptClass.ofTokens path (φ.tokens ts) =
      (φ.scriptClass (ScriptClass.ofTokens path ts).1,
        (ScriptClass.ofTokens path ts).2.map φ.located) := by
  have hr := φ.readDraft_tokens { script := { path } } ts
  have hd : φ.draft { script := { path } } = { script := { path } } := by
    simp [draft, scriptClass]
  rw [hd] at hr
  simp only [ScriptClass.ofTokens, hr, reading_value, reading_faults, finish_draft]

end Respelling

end ScriptBridge
