import ScriptBridge.Proofs.Script.NameTokens
import ScriptBridge.Proofs.Script.TypeReading
import ScriptBridge.Script.ClassReading

/-! The names in a class. Proved: whatever a script contains, the names that its class declares
are names, and a type that it declares is a dotted name with types in brackets, or nothing. -/

namespace ScriptBridge

open Tokens

/-- Names with dots between them. -/
inductive IsDottedName : String → Prop where
  | name {text : String} (h : IsName text) : IsDottedName text
  | dot {front text : String} (hf : IsDottedName front) (h : IsName text) :
      IsDottedName (front ++ "." ++ text)

/-- A dotted name, or one with any number of types in brackets behind it. -/
inductive IsType : String → Prop where
  | name {text : String} (h : IsDottedName text) : IsType text
  | applied {text : String} {arguments : List String} (h : IsDottedName text)
      (ha : ∀ a ∈ arguments, IsType a) : IsType (text ++ "[" ++ ", ".intercalate arguments ++ "]")

/-- The text of a type, which is empty where there is none. -/
def IsTypeName (text : String) : Prop := text = "" ∨ IsType text

/-! ### Named tokens -/

namespace Named

variable {ts rest : List Token} {t : Token}

theorem tail (h : Named ts) : Named ts.tail := fun t ht => h t (List.mem_of_mem_tail ht)

/-- The tokens that a reading leaves are among those before it. -/
theorem of_leaves (h : Named ts) (hl : Leaves ts rest) : Named rest := by
  induction hl with
  | all => exact h
  | step _ _ ih => exact ih h.tail

theorem head (h : Named (t :: ts)) (hk : t.kind = .identifier) : IsName t.text :=
  h t List.mem_cons_self hk

theorem next (h : Named ts) (hs : starts .identifier ts) : IsName (next ts).text := by
  cases ts with
  | nil => cases hs
  | cons t ts => exact h.head (by simpa [starts, Tokens.next] using hs)

end Named

/-! ### Types -/

namespace TypeExpr

variable {ts : List Token}

theorem segments_isDottedName {path : String} (hp : IsDottedName path) (span : Span)
    (h : Named ts) : IsDottedName (segments path span ts).1.1 := by
  fun_induction segments path span ts with
  | case1 path span dot t ts hk ih =>
    simp only [Bool.and_eq_true, decide_eq_true_eq] at hk
    exact ih (.dot hp (h.tail.head hk.2)) h.tail.tail
  | case2 => exact hp
  | case3 => exact hp

/-- Every type in a list of arguments that was read is one. -/
def HoldsTypes (r : Reading (Option (List TypeExpr × Span))) : Prop :=
  ∀ v ∈ r.value, ∀ e ∈ v.1, IsType e.text

theorem endArguments_holdsTypes (ts : List Token) : HoldsTypes (endArguments ts) := by
  intro v hv
  obtain ⟨s, -, rfl⟩ := Option.map_eq_some_iff.1 hv
  exact nofun

theorem consArgument_holdsTypes (hread : ∀ v ∈ (read ts).value, IsType v.1.text)
    (hmore : HoldsTypes (moreArguments (read ts).rest)) : HoldsTypes (consArgument ts) := by
  intro v hv
  unfold consArgument at hv
  split at hv
  · cases hv
  · next e he =>
    obtain ⟨w, hw, rfl⟩ := Option.map_eq_some_iff.1 hv
    exact List.forall_mem_cons.2 ⟨hread e he, hmore w hw⟩

/-- A name and the arguments behind it, if the arguments are types. -/
theorem isType_read_cons {t : Token} (h : Named (t :: ts))
    (hargs : ∀ us, us.length ≤ ts.length → Named us → HoldsTypes (argumentList us)) :
    ∀ v ∈ (read (t :: ts)).value, IsType v.1.text := by
  intro v hv
  rw [read_cons] at hv
  by_cases hk : t.kind = .identifier
  · have hpath := segments_isDottedName (.name (h.head hk)) t.span h.tail
    have hleaves := segments_leaves t.text t.span ts
    have hrest : Named (segments t.text t.span ts).2 := Named.of_leaves h.tail hleaves
    rw [if_pos hk] at hv
    dsimp only at hv
    split_ifs at hv
    · obtain ⟨w, hw, rfl⟩ := Option.map_eq_some_iff.1 hv
      have hlength := Nat.le_trans (Nat.le_of_eq List.length_tail)
        (Nat.le_trans (Nat.sub_le _ 1) hleaves.length_le)
      have hw := hargs _ hlength hrest.tail w hw
      rw [text]
      exact .applied hpath (List.forall_mem_map.2 hw)
    · cases hv
      rw [text]
      exact .name hpath
  · rw [if_neg hk] at hv
    cases hv

/-- What is read as a type is one, and so are its arguments. -/
theorem isType_reading :
    (∀ ts, Named ts → ∀ v ∈ (read ts).value, IsType v.1.text) ∧
    (∀ ts, Named ts → HoldsTypes (argumentList ts)) ∧
    ∀ ts, Named ts → HoldsTypes (moreArguments ts) := by
  have hrest {ts : List Token} (h : Named ts) : Named (read ts).rest := h.of_leaves (read_leaves ts)
  apply reading_induction
  case nil =>
    intro _ v hv
    rw [read_nil] at hv
    cases hv
  case cons => exact fun t ts ih h => isType_read_cons h ih
  case list =>
    intro ts hread ih h
    rw [argumentList_eq]
    split_ifs
    · exact endArguments_holdsTypes ts
    · exact consArgument_holdsTypes (hread h) (ih _ (read_leaves ts).length_le (hrest h))
  case more_nil =>
    intro _
    rw [moreArguments_eq]
    split_ifs
    · exact endArguments_holdsTypes []
    · exact nofun
  case more_cons =>
    intro t ts hread ih h
    have ht : Named ts := h.tail
    rw [moreArguments_eq]
    split_ifs
    · exact endArguments_holdsTypes _
    · dsimp only
      split_ifs
      · exact consArgument_holdsTypes (hread ht) (ih _ (read_leaves ts).length_le (hrest ht))
      · exact nofun

theorem isType_of_read (h : Named ts) {v : TypeExpr × Span} (hv : (read ts).value = some v) :
    IsType v.1.text :=
  isType_reading.1 ts h v hv

end TypeExpr

/-! ### Types of values -/

namespace Inference

/-- The names that stand for the types of literals. -/
def literalTypes : List String :=
  ["int", "float", "String", "bool", "StringName", "NodePath"]

theorem isTypeName_of_mem {text : String} (h : text ∈ literalTypes) : IsTypeName text := by
  refine .inr (.name (.name ?_))
  simp only [literalTypes, List.mem_cons, List.not_mem_nil, or_false] at h
  rcases h with rfl | rfl | rfl | rfl | rfl | rfl <;>
    exact IsWord.isName ⟨_, _, rfl, by decide, List.all_eq_true.1 (by decide)⟩ (by decide)

theorem isTypeName_literal (kind : TokenKind) : IsTypeName (literal kind) := by
  unfold literal
  split <;> first | exact isTypeName_of_mem (by decide) | exact .inl rfl

theorem isTypeName_signed (sign : String) (kind : TokenKind) : IsTypeName (signed sign kind) := by
  unfold signed
  split <;> (try split_ifs) <;> first | exact isTypeName_of_mem (by decide) | exact .inl rfl

/-- What is inferred is the type of a literal, or a name that stands in the value. -/
theorem isTypeName_typeOf {ts : List Token} (h : Named ts) : IsTypeName (typeOf ts) := by
  unfold typeOf
  dsimp only
  split
  · split_ifs
    · exact isTypeName_signed _ _
    · exact .inl rfl
  · next hk =>
    have hname : IsTypeName (next ts).text := .inr (.name (.name (h.next (by simp [starts, hk]))))
    split_ifs
    · exact hname
    · exact hname
    · exact .inl rfl
  · split_ifs
    · exact isTypeName_literal _
    · exact .inl rfl

end Inference

/-! ### Declarations -/

structure Parameter.IsNamed (p : Parameter) : Prop where
  name : IsName p.name
  type : IsTypeName p.typeName

structure VariableDecl.IsNamed (v : VariableDecl) : Prop where
  name : IsName v.name
  type : IsTypeName v.typeName

structure FunctionDecl.IsNamed (f : FunctionDecl) : Prop where
  name : IsName f.name
  parameters : ∀ p ∈ f.parameters, p.IsNamed
  returnType : ∀ t ∈ f.returnType, IsTypeName t

structure SignalDecl.IsNamed (s : SignalDecl) : Prop where
  name : IsName s.name
  parameters : ∀ p ∈ s.parameters, p.IsNamed

namespace Statement

variable {ts : List Token}

theorem readDefault_isNamed (inferred : Bool) {p : Parameter} (hp : p.IsNamed) (h : Named ts) :
    (readDefault inferred p ts).value.IsNamed := by
  unfold readDefault
  split
  · refine ⟨hp.name, ?_⟩
    dsimp only
    split
    · exact Inference.isTypeName_typeOf h.tail
    · exact hp.type
  · exact hp

theorem readParameterType_isNamed {p : Parameter} (hp : p.IsNamed) (h : Named ts) :
    (readParameterType p ts).value.IsNamed := by
  unfold readParameterType
  split
  · split
    · exact readDefault_isNamed true hp h.tail
    · have hrest : Named (TypeExpr.read ts.tail).rest :=
        Named.of_leaves h.tail (TypeExpr.read_leaves _)
      dsimp only
      split
      · next type span htype =>
        exact readDefault_isNamed false ⟨hp.name, .inr (TypeExpr.isType_of_read h.tail htype)⟩ hrest
      · exact hp
  · exact readDefault_isNamed _ hp h

theorem readParameter_isNamed (h : Named ts) :
    (readParameter ts).value.name = "" ∨ (readParameter ts).value.IsNamed := by
  unfold readParameter
  split_ifs with hs
  · exact .inr (readParameterType_isNamed ⟨h.next hs, .inl rfl⟩ h.tail)
  · exact .inl rfl

/-- The parameter that is recorded, if any. -/
theorem readParameter_recorded (h : Named ts) :
    ∀ p ∈ (if (readParameter ts).value.name == "" then [] else [(readParameter ts).value]),
      p.IsNamed := by
  split
  · exact nofun
  · next hname =>
    have hp := (readParameter_isNamed h).resolve_left (by simpa using hname)
    exact List.forall_mem_singleton.2 hp

theorem readParameters_isNamed (h : Named ts) : ∀ p ∈ (readParameters ts).value, p.IsNamed := by
  fun_induction readParameters ts with
  | case1 => exact List.forall_mem_nil _
  | case2 ts _ p here hcomma more ih =>
    have hrest : Named p.rest := h.of_leaves (readParameter_leaves ts)
    exact List.forall_mem_append.2 ⟨readParameter_recorded h, ih hrest.tail⟩
  | case3 ts _ p here hcomma => exact readParameter_recorded h

theorem readVariableType_isNamed {v : VariableDecl} (hv : v.IsNamed) (h : Named ts) :
    (readVariableType v ts).value.IsNamed := by
  unfold readVariableType
  dsimp only
  split
  · split
    · exact ⟨hv.name, Inference.isTypeName_typeOf h.tail.tail⟩
    · split
      · next type span htype => exact ⟨hv.name, .inr (TypeExpr.isType_of_read h.tail htype)⟩
      · exact hv
  · split
    · exact ⟨hv.name, Inference.isTypeName_typeOf h.tail⟩
    · exact hv

theorem readVariable_isNamed (isStatic : Bool) (keyword : Token) (h : Named ts) :
    (readVariable isStatic keyword ts).value.name = "" ∨
      (readVariable isStatic keyword ts).value.IsNamed := by
  unfold readVariable
  split
  · exact .inr (readVariableType_isNamed ⟨h.next ‹_›, .inl rfl⟩ h.tail)
  · exact .inl rfl

theorem readReturnType_isType (h : Named ts) {type : String} {span : Span}
    (hr : (readReturnType ts).value = some (some type, span)) : IsType type := by
  unfold readReturnType at hr
  split at hr
  · dsimp only at hr
    split at hr
    · next htype =>
      cases hr
      exact TypeExpr.isType_of_read h.tail htype
    · cases hr
  · cases hr

theorem readSignatureEnd_isNamed {f : FunctionDecl} (hf : f.IsNamed) (h : Named ts) :
    (readSignatureEnd f ts).value.name = "" ∨ (readSignatureEnd f ts).value.IsNamed := by
  unfold readSignatureEnd
  split
  · dsimp only
    split
    · exact .inl rfl
    · next type span htype =>
      split
      · refine .inr ⟨hf.name, hf.parameters, fun t ht => .inr ?_⟩
        cases ht
        exact readReturnType_isType h.tail htype
      · exact .inl rfl
  · exact .inl rfl

theorem readFunction_isNamed (isStatic : Bool) (keyword : Token) (h : Named ts) :
    (readFunction isStatic keyword ts).value.name = "" ∨
      (readFunction isStatic keyword ts).value.IsNamed := by
  unfold readFunction
  split
  · split
    · have hps : Named ts.tail.tail := h.tail.tail
      have hrest : Named (readParameters ts.tail.tail).rest :=
        hps.of_leaves (readParameters_leaves _)
      exact readSignatureEnd_isNamed ⟨h.next ‹_›, readParameters_isNamed hps, nofun⟩ hrest
    · exact .inl rfl
  · exact .inl rfl

theorem readSignal_isNamed (keyword : Token) (h : Named ts) :
    (readSignal keyword ts).value.name = "" ∨ (readSignal keyword ts).value.IsNamed := by
  unfold readSignal
  split
  · have hname : IsName (next ts).text := h.next ‹_›
    dsimp only
    split
    · split
      · exact .inr ⟨hname, readParameters_isNamed h.tail.tail⟩
      · exact .inl rfl
    · exact .inr ⟨hname, nofun⟩
  · exact .inl rfl

/-! ### Statements -/

/-- What a statement declares has a name and named types, if it is recorded. -/
def IsNamed : Statement → Prop
  | header name .. => IsName name
  | var v => v.name = "" ∨ v.IsNamed
  | func f => f.name = "" ∨ f.IsNamed
  | signal s => s.name = "" ∨ s.IsNamed
  | _ => True

theorem readHeader_isNamed (hasName hasBase : Bool) (keyword : Token) (h : Named ts) :
    (readHeader hasName hasBase keyword ts).value.IsNamed := by
  unfold readHeader
  split
  · trivial
  · split
    · split
      · exact h.head ‹_›
      · trivial
    · trivial

theorem readStatic_isNamed (keyword : Token) (h : Named ts) :
    (readStatic keyword ts).value.IsNamed := by
  unfold readStatic
  split
  · split
    · exact readVariable_isNamed true _ h.tail
    · split
      · exact readFunction_isNamed true _ h.tail
      · trivial
  · trivial

theorem readWord_isNamed (t : Token) (ts : List Token) : (readWord t ts).value.IsNamed := by
  unfold readWord
  split_ifs <;> trivial

theorem read_isNamed (hasName hasBase : Bool) (t : Token) (h : Named ts) :
    (read hasName hasBase t ts).value.IsNamed := by
  unfold read
  split
  case h_4 => exact readHeader_isNamed hasName hasBase t h
  case h_5 =>
    rw [map]
    cases (readBase hasBase t ts).value <;> trivial
  case h_6 => exact readVariable_isNamed false t h
  case h_7 => exact readFunction_isNamed false t h
  case h_8 => exact readSignal_isNamed t h
  case h_9 => exact readStatic_isNamed t h
  case h_13 => exact readWord_isNamed t ts
  case h_14 => split <;> trivial
  all_goals trivial

end Statement

/-! ### Classes -/

/-- The names of a class and of its declarations are names. A class may have none yet. -/
structure ScriptClass.IsNamed (c : ScriptClass) : Prop where
  name : c.name = "" ∨ IsName c.name
  vars : ∀ v ∈ c.vars, v.IsNamed
  functions : ∀ f ∈ c.functions, f.IsNamed
  signals : ∀ s ∈ c.signals, s.IsNamed

theorem Draft.record_isNamed {d : Draft} (hd : d.script.IsNamed) {s : Statement}
    (hs : s.IsNamed) : (d.record s).script.IsNamed := by
  refine ⟨?_, fun v hv => ?_, fun f hf => ?_, fun t ht => ?_⟩
  · rcases record_name (d := d) (s := s) with hname | ⟨_, _, _, hheader⟩
    · exact hname ▸ hd.name
    · rw [hheader] at hs
      exact .inr hs
  · rcases mem_record_vars hv with hv | ⟨w, rfl, hname, rfl⟩
    · exact hd.vars v hv
    · have hw : w.IsNamed := hs.resolve_left hname
      exact ⟨hw.name, hw.type⟩
  · rcases mem_record_functions hf with hf | ⟨g, rfl, hname, rfl⟩
    · exact hd.functions f hf
    · have hg : g.IsNamed := hs.resolve_left hname
      exact ⟨hg.name, hg.parameters, hg.returnType⟩
  · rcases mem_record_signals ht with ht | ⟨rfl, hname⟩
    · exact hd.signals t ht
    · exact hs.resolve_left hname

theorem Draft.read_isNamed {d : Draft} {ts : List Token} (hd : d.script.IsNamed) (h : Named ts) :
    (d.read ts).value.script.IsNamed := by
  fun_induction Draft.read d ts with
  | case1 => exact hd
  | case2 => exact hd
  | case3 d t ts _ s r ih =>
    have ht : Named ts := h.tail
    exact ih (record_isNamed hd (Statement.read_isNamed _ _ t ht))
      (ht.of_leaves (Statement.read_leaves _ _ t ts))

theorem ScriptClass.ofTokens_isNamed (path : String) {ts : List Token} (h : Named ts) :
    (ofTokens path ts).1.IsNamed := by
  have hempty : ScriptClass.IsNamed { path } := ⟨.inl rfl, nofun, nofun, nofun⟩
  have hread : (Draft.read { script := { path } } ts).value.script.IsNamed :=
    Draft.read_isNamed hempty h
  exact ⟨hread.name, hread.vars, hread.functions, hread.signals⟩

/-- Whatever a script contains, its class, its variables, functions and signals and their
parameters have names, and their types are dotted names with types in brackets, or nothing. -/
theorem ScriptClass.ofSource_isNamed {path source : String} {c : ScriptClass}
    (h : (ofSource path source).1 = some c) :
    IsName c.name ∧
    (∀ v ∈ c.vars, IsName v.name ∧ IsTypeName v.typeName) ∧
    (∀ f ∈ c.functions, IsName f.name ∧
      (∀ p ∈ f.parameters, IsName p.name ∧ IsTypeName p.typeName) ∧
      ∀ t ∈ f.returnType, IsTypeName t) ∧
    ∀ s ∈ c.signals, IsName s.name ∧
      ∀ p ∈ s.parameters, IsName p.name ∧ IsTypeName p.typeName := by
  have hread : (ofTokens path (Lexed.ofText source).tokens).1.IsNamed :=
    ofTokens_isNamed path (Lexed.named_ofText source)
  simp only [ofSource, Option.ite_none_right_eq_some, Option.some.injEq] at h
  obtain ⟨hname, rfl⟩ := h
  have hne := bne_iff_ne.1 (Bool.and_eq_true_iff.1 hname).2
  have hps {ps : List Parameter} (h : ∀ p ∈ ps, p.IsNamed) :
      ∀ p ∈ ps, IsName p.name ∧ IsTypeName p.typeName := fun p hp => ⟨(h p hp).name, (h p hp).type⟩
  refine ⟨hread.name.resolve_left hne, fun v hv => ?_, fun f hf => ?_, fun s hs => ?_⟩
  · exact ⟨(hread.vars v hv).name, (hread.vars v hv).type⟩
  · have hf := hread.functions f hf
    exact ⟨hf.name, hps hf.parameters, hf.returnType⟩
  · exact ⟨(hread.signals s hs).name, hps (hread.signals s hs).parameters⟩

/-- The type of a variable is inferred from its value, and that of a parameter is written. -/
theorem ScriptClass.ofSource_isNamed_types :
    ∃ c, (ofSource "" "class_name A\nvar b:=Color()\nsignal c(d:e.F[G])\n").1 = some c ∧
      c.vars.map VariableDecl.typeName = ["Color"] ∧
      c.signals.flatMap (fun s => s.parameters.map Parameter.typeName) = ["e.F[G]"] ∧
      IsName c.name ∧ (∀ v ∈ c.vars, IsName v.name ∧ IsTypeName v.typeName) ∧
      ∀ s ∈ c.signals, IsName s.name ∧
        ∀ p ∈ s.parameters, IsName p.name ∧ IsTypeName p.typeName := by
  have htypes : (ofSource "" "class_name A\nvar b:=Color()\nsignal c(d:e.F[G])\n").1.map
      (fun c => (c.vars.map VariableDecl.typeName,
        c.signals.flatMap fun s => s.parameters.map Parameter.typeName)) =
      some (["Color"], ["e.F[G]"]) := by cbv
  obtain ⟨c, hc, hcs⟩ := Option.map_eq_some_iff.1 htypes
  obtain ⟨hname, hvars, -, hsignals⟩ := ofSource_isNamed hc
  exact ⟨c, hc, congrArg Prod.fst hcs, congrArg Prod.snd hcs, hname, hvars, hsignals⟩

end ScriptBridge
