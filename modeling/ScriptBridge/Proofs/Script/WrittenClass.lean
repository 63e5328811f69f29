import ScriptBridge.Proofs.Script.WrittenReading

/-! Reading a written script as a whole. Proved: its text is read without a fault, and
gives the class that the script stands for. -/

namespace ScriptBridge

open Tokens

/-! ### Statements and drafts -/

namespace WrittenDeclaration

/-- What a declaration is read as. -/
def statement : WrittenDeclaration → Statement
  | var isStatic name type => .var (variableOf isStatic name type)
  | signal name parameters => .signal (signalOf name parameters)
  | func isStatic name ps type => .func (functionOf isStatic name ps type)

/-- The lines that a declaration leaves unread: the body of a function. -/
def leftTokens : WrittenDeclaration → List Token
  | func .. => bodyTokens
  | _ => []

/-- The tokens of a declaration start with the statement of the declaration. -/
def StartsWith (hasName hasBase : Bool) (d : WrittenDeclaration) (rest : List Token) : Prop :=
  ∃ t ts, d.tokens ++ rest = t :: ts ∧ t.kind ≠ .endOfFile ∧
    Statement.read hasName hasBase t ts = { value := d.statement, rest := d.leftTokens ++ rest }

theorem startsWith_var (hasName hasBase isStatic : Bool) (name : Identifier)
    (type : Option WrittenType) (rest : List Token) :
    (var isStatic name type).StartsWith hasName hasBase rest := by
  have hv := readVariable_tokens isStatic name type .var rest
  have ht : (var isStatic name type).tokens ++ rest = staticTokens isStatic ++
      Keyword.var.token :: name.token ::
        (WrittenType.tokensAfter (signToken .colon ":") type ++ lineToken :: rest) := by
    simp [tokens]
  rw [StartsWith, ht]
  cases isStatic with
  | false => exact ⟨_, _, rfl, by decide, congrArg (Statement.map Statement.var) hv⟩
  | true => exact ⟨_, _, rfl, by decide, congrArg (Statement.map Statement.var) hv⟩

theorem startsWith_signal (hasName hasBase : Bool) (name : Identifier)
    (parameters : Option (List WrittenParameter)) (rest : List Token) :
    (signal name parameters).StartsWith hasName hasBase rest := by
  have hs := readSignal_tokens name parameters rest
  have ht : (signal name parameters).tokens ++ rest = Keyword.signal.token :: name.token ::
      (parameters.elim [] WrittenParameter.listTokens ++ lineToken :: rest) := by
    simp [tokens]
  rw [StartsWith, ht]
  exact ⟨_, _, rfl, by decide, congrArg (Statement.map Statement.signal) hs⟩

theorem startsWith_func (hasName hasBase isStatic : Bool) (name : Identifier)
    (ps : List WrittenParameter) (type : Option WrittenType) (rest : List Token) :
    (func isStatic name ps type).StartsWith hasName hasBase rest := by
  have hf := readFunction_tokens isStatic name ps type (bodyTokens ++ rest)
  have ht : (func isStatic name ps type).tokens ++ rest = staticTokens isStatic ++
      Keyword.func.token :: name.token :: (WrittenParameter.listTokens ps ++
        (WrittenType.tokensAfter (signToken .arrow "->") type ++
          signToken .colon ":" :: lineToken :: (bodyTokens ++ rest))) := by
    simp [tokens]
  rw [StartsWith, ht]
  cases isStatic with
  | false => exact ⟨_, _, rfl, by decide, congrArg (Statement.map Statement.func) hf⟩
  | true => exact ⟨_, _, rfl, by decide, congrArg (Statement.map Statement.func) hf⟩

theorem startsWith (hasName hasBase : Bool) (d : WrittenDeclaration) (rest : List Token) :
    d.StartsWith hasName hasBase rest := by
  cases d with
  | var isStatic name type => exact startsWith_var hasName hasBase isStatic name type rest
  | signal name parameters => exact startsWith_signal hasName hasBase name parameters rest
  | func isStatic name ps type => exact startsWith_func hasName hasBase isStatic name ps type rest

/-- The class with a further declaration. -/
def addTo (c : ScriptClass) (d : WrittenDeclaration) : ScriptClass :=
  { c with
    vars := c.vars ++ d.toVariable?.toList
    functions := c.functions ++ d.toFunction?.toList
    signals := c.signals ++ d.toSignal?.toList }

theorem record_statement (c : ScriptClass) (d : WrittenDeclaration) :
    Draft.record { script := c } d.statement = { script := d.addTo c } := by
  cases d with
  | var isStatic name type =>
    have hn : ((variableOf isStatic name type).name == "") = false := name.text_ne_empty
    simp only [statement, Draft.record, hn]
    simp [addTo, toVariable?, toFunction?, toSignal?, variableOf]
  | signal name parameters =>
    have hn : ((signalOf name parameters).name == "") = false := name.text_ne_empty
    simp only [statement, Draft.record, hn]
    simp [addTo, toVariable?, toFunction?, toSignal?]
  | func isStatic name ps type =>
    have hn : ((functionOf isStatic name ps type).name == "") = false := name.text_ne_empty
    simp only [statement, Draft.record, hn]
    simp [addTo, toVariable?, toFunction?, toSignal?, functionOf]

/-- The class with further declarations has the variables, functions and signals among
them, in their order. -/
theorem foldl_addTo (c : ScriptClass) (ds : List WrittenDeclaration) :
    ds.foldl addTo c =
      { c with
        vars := c.vars ++ ds.filterMap toVariable?
        functions := c.functions ++ ds.filterMap toFunction?
        signals := c.signals ++ ds.filterMap toSignal? } := by
  induction ds generalizing c with
  | nil => simp
  | cons d ds ih =>
    rw [List.foldl_cons, ih]
    cases d <;> simp [addTo, toVariable?, toFunction?, toSignal?, List.filterMap_cons]

end WrittenDeclaration

namespace Draft

/-- A statement without a fault is recorded before the others are read. -/
theorem read_of_statement {d : Draft} {t : Token} {ts rest : List Token} {s : Statement}
    (ht : t.kind ≠ .endOfFile)
    (hs : Statement.read (d.script.name != "") d.script.base.isSome t ts = { value := s, rest }) :
    d.read (t :: ts) = (d.record s).read rest := by
  rw [read, if_neg ht]
  simp only [hs]
  rfl

theorem read_body (d : Draft) (rest : List Token) :
    d.read (WrittenDeclaration.bodyTokens ++ rest) = d.read rest :=
  read_of_statement (t := { kind := .indent }) (s := .blank) (by decide) rfl

theorem read_declaration (c : ScriptClass) (w : WrittenDeclaration) (rest : List Token) :
    read { script := c } (w.tokens ++ rest) = read { script := w.addTo c } rest := by
  obtain ⟨t, ts, htokens, ht, hs⟩ := w.startsWith (c.name != "") c.base.isSome rest
  have hr : read { script := c } (t :: ts) = _ := read_of_statement ht hs
  rw [htokens, hr, w.record_statement]
  cases w with
  | func => exact read_body _ rest
  | _ => rfl

theorem read_declarations (c : ScriptClass) (ws : List WrittenDeclaration) (rest : List Token) :
    read { script := c } (ws.flatMap WrittenDeclaration.tokens ++ rest) =
      read { script := ws.foldl WrittenDeclaration.addTo c } rest := by
  induction ws generalizing c with
  | nil => rfl
  | cons w ws ih => rw [List.flatMap_cons, List.append_assoc, read_declaration, ih, List.foldl_cons]

theorem read_head (path : String) (name : Identifier) (rest : List Token) :
    read { script := { path } } (Keyword.className.token :: name.token :: lineToken :: rest) =
      read { script := { name := name.text, path } } rest :=
  read_of_statement (s := .header name.text {} none none) (by decide) rfl

theorem read_base (c : ScriptClass) (base : Option DottedName) (rest : List Token)
    (hc : c.base = none) :
    read { script := c } (WrittenScript.baseTokens base ++ rest) =
      read { script := { c with base := base.map fun n => (Base.ofName n.text, {}) } } rest := by
  cases base with
  | none =>
    rw [Option.map_none, ← hc]
    rfl
  | some n =>
    have hline : starts .dot (lineToken :: rest) = false := rfl
    have hs := DottedName.baseSegments_moreTokens n.more n.first.text hline
    have hb : Statement.finishBase Base.ofName n.first.token
        (DottedName.moreTokens n.more ++ lineToken :: rest) =
        { value := some (Base.ofName n.text, {}), rest } := by
      simp only [Statement.finishBase, Identifier.token, hs, WrittenDeclaration.finish_line]
      rfl
    have ht : WrittenScript.baseTokens (some n) ++ rest = Keyword.extending.token ::
        n.first.token :: (DottedName.moreTokens n.more ++ lineToken :: rest) := by
      simp [WrittenScript.baseTokens, DottedName.tokens]
    rw [ht, read_of_statement (s := .base (Base.ofName n.text, {})) (by decide)]
    · rfl
    · rw [hc]
      exact congrArg (Statement.map (Option.elim · Statement.blank Statement.base)) hb

/-- The tokens of a written script are read as the class that it stands for. -/
theorem read_tokens (path : String) (w : WrittenScript) :
    read { script := { path } } (w.tokens ++ [Token.endOfFile]) =
      { value := { script := w.toClass path }, rest := [Token.endOfFile] } := by
  have hend (d : Draft) : d.read [Token.endOfFile] = { value := d, rest := [Token.endOfFile] } := by
    rw [read]
    rfl
  rw [WrittenScript.tokens, WrittenScript.headTokens, List.append_assoc, List.append_assoc]
  simp only [List.cons_append, List.nil_append]
  rw [read_head, read_base _ _ _ rfl, read_declarations, hend, WrittenDeclaration.foldl_addTo]
  rfl

end Draft

/-! ### The text of a script -/

namespace WrittenScript

theorem getLast?_append {ts us : List Token} (h : ts.getLast? = some lineToken)
    (k : us = [] ∨ us.getLast? = some lineToken) : (ts ++ us).getLast? = some lineToken := by
  rcases k with rfl | k
  · rw [List.append_nil, h]
  · rw [List.getLast?_append, k, Option.some_or]

theorem getLast?_declaration (d : WrittenDeclaration) : d.tokens.getLast? = some lineToken := by
  cases d <;> simp [WrittenDeclaration.tokens, WrittenDeclaration.bodyTokens, List.getLast?_cons]

theorem getLast?_declarations (ds : List WrittenDeclaration) :
    ds.flatMap WrittenDeclaration.tokens = [] ∨
      (ds.flatMap WrittenDeclaration.tokens).getLast? = some lineToken := by
  induction ds with
  | nil => exact .inl rfl
  | cons d ds ih => exact .inr (getLast?_append (getLast?_declaration d) ih)

theorem getLast?_base (base : Option DottedName) :
    baseTokens base = [] ∨ (baseTokens base).getLast? = some lineToken := by
  cases base with
  | none => exact .inl rfl
  | some n => simp [baseTokens, List.getLast?_cons]

/-- The last line of a script is closed. -/
theorem getLast?_tokens (w : WrittenScript) : w.tokens.getLast? = some lineToken := by
  have hh : w.headTokens.getLast? = some lineToken := rfl
  rw [tokens, ← List.append_assoc]
  exact getLast?_append (getLast?_append hh (getLast?_base w.base))
    (getLast?_declarations w.declarations)

/-- A script whose last line is closed needs no closing line end. -/
theorem closingLine_eq_nil {ts : List Token} (h : ts.getLast? = some lineToken) :
    closingLine {} ts = [] := by
  rw [closingLine, h]
  rfl

/-- The text of a written script yields its tokens and no fault. -/
theorem ofText_text (w : WrittenScript) :
    bareTokens (Lexed.ofText w.text).tokens = w.tokens ++ [Token.endOfFile] ∧
      (Lexed.ofText w.text).faults = [] := by
  have hv : views .lineStart w.text.toList = w.tokens.map .inl := w.views_text
  have ht : (views .lineStart w.text.toList).filterMap Sum.getLeft? = w.tokens := by
    rw [hv, List.filterMap_map]
    exact List.filterMap_some
  have hf : (Lexed.ofText w.text).faults.map LocatedFault.fault = [] := by
    rw [map_fault_ofText, hv]
    simp
  refine ⟨?_, List.map_eq_nil_iff.1 hf⟩
  rw [bareTokens_ofText, ht, closingLine_eq_nil w.getLast?_tokens]
  rfl

end WrittenScript

namespace ScriptClass

/-- A written script is read without a fault, as the class that it stands for. -/
theorem exists_ofSource_text (path : String) (w : WrittenScript) :
    ∃ c, ofSource path w.text = (some c, []) ∧ c.bare = w.toClass path := by
  obtain ⟨htokens, hfaults⟩ := w.ofText_text
  have hread := ofTokens_bareTokens path (Lexed.ofText w.text).tokens
  have hclass : ofTokens path (w.tokens ++ [Token.endOfFile]) = (w.toClass path, []) := by
    rw [ofTokens, Draft.read_tokens]
    rfl
  rw [htokens, hclass, Prod.mk.injEq] at hread
  obtain ⟨hbare, hnone⟩ := hread
  have hnone : (ofTokens path (Lexed.ofText w.text).tokens).2 = [] :=
    List.map_eq_nil_iff.1 hnone.symm
  have hname : (ofTokens path (Lexed.ofText w.text).tokens).1.name = w.name.text :=
    (congrArg ScriptClass.name hbare).symm
  refine ⟨(ofTokens path (Lexed.ofText w.text).tokens).1, ?_, hbare.symm⟩
  simp only [ofSource, hfaults, hnone, hname]
  simp [bne, w.name.text_ne_empty]

/-- The base of a written script, without its place. -/
theorem base_of_bare {path : String} {w : WrittenScript} {c : ScriptClass}
    (h : c.bare = w.toClass path) :
    c.base.map Prod.fst = w.base.map fun n => Base.ofName n.text := by
  have hb : c.bare.base.map Prod.fst = (w.toClass path).base.map Prod.fst := by rw [h]
  simp only [bare, WrittenScript.toClass, Option.map_map] at hb
  exact hb

/-- A written script is read without a fault, as the class that it stands for. Its base is
an engine class exactly if it has the name of one, and else a class of that name. -/
theorem ofSource_text (path : String) (w : WrittenScript) :
    ∃ c, ofSource path w.text = (some c, []) ∧ c.bare = w.toClass path ∧
      (∀ kind : EngineKind, c.base.map Prod.fst = some (.engine kind) ↔
        w.base.map DottedName.text = some kind.scriptName) ∧
      ∀ name : String, c.base.map Prod.fst = some (.named name) ↔
        w.base.map DottedName.text = some name ∧ ∀ kind : EngineKind, kind.scriptName ≠ name := by
  obtain ⟨c, hc, hbare⟩ := exists_ofSource_text path w
  refine ⟨c, hc, hbare, fun kind => ?_, fun name => ?_⟩
  · rw [base_of_bare hbare]
    cases w.base with
    | none => simp
    | some n =>
      rw [Option.map_some, Option.map_some, Option.some.injEq, Option.some.injEq,
        Base.ofName_eq_engine_iff, eq_comm]
  · rw [base_of_bare hbare]
    cases w.base with
    | none => simp
    | some n =>
      rw [Option.map_some, Option.map_some, Option.some.injEq, Option.some.injEq,
        Base.ofName_eq_named_iff]

end ScriptClass

end ScriptBridge
