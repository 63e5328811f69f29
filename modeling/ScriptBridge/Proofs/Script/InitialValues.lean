import ScriptBridge.Proofs.Script.LineByLine

/-! Types that are inferred. A declaration that leaves its type to its value takes it from the
first tokens of the value. Proved: for a literal, with a sign or without, they are the whole
value, so that a longer one gets no type from it; a call that constructs an object is recognised by
its start, and gives its type to the value whatever follows. -/

namespace ScriptBridge

open Tokens

namespace Inference

variable {ts : List Token} {t : Token} {type : String}

/-! ### Values -/

/-- The tokens of a value inside a number of brackets: up to the end of the line, and outside
brackets up to the first token before which a value can end. -/
def valueIn : Int → List Token → List Token
  | _, [] => []
  | depth, t :: ts =>
    if t.endsLine || (depth == 0 && endsValue t) then [] else t :: valueIn (depth + nesting t) ts

/-- The tokens of the value that starts here. -/
def initialValue (ts : List Token) : List Token := valueIn 0 ts

/-- A value that is one literal of the type, or a sign and a literal. -/
inductive IsLiteral (type : String) : List Token → Prop where
  | plain {t : Token} (h : literal t.kind = type) : IsLiteral type [t]
  | signed {sign t : Token} (hs : sign.kind = .operator) (h : signed sign.text t.kind = type) :
      IsLiteral type [sign, t]

/-- The start of a call that constructs an object of the type, and what is behind its
parenthesis. -/
inductive OpensCall (type : String) : List Token → List Token → Prop where
  | construct {name paren : Token} {rest : List Token} (hname : name.kind = .identifier)
      (htext : name.text = type) (htype : type ∈ constructible)
      (hparen : paren.kind = .opening .paren) : OpensCall type (name :: paren :: rest) rest
  | create {name dot method paren : Token} {rest : List Token} (hname : name.kind = .identifier)
      (htext : name.text = type) (hdot : dot.kind = .dot) (hmethod : method.text = "new")
      (hparen : paren.kind = .opening .paren) :
      OpensCall type (name :: dot :: method :: paren :: rest) rest

/-- Whether so many brackets are closed with the last of the tokens, and not before. -/
def closesLast : Int → List Token → Bool
  | _, [] => false
  | depth, t :: ts => if depth + nesting t = 0 then ts.isEmpty else closesLast (depth + nesting t) ts

/-- A value that is one call that constructs an object of the type. -/
def IsCall (type : String) (value : List Token) : Prop :=
  ∃ rest, OpensCall type value rest ∧ closesLast 1 rest

theorem endsValue_of_endsLine (h : t.endsLine) : endsValue t := by
  rcases Bool.or_eq_true_iff.1 h with h | h <;> simp [endsValue, h]

theorem initialValue_cons (t : Token) (ts : List Token) :
    initialValue (t :: ts) = if endsValue t then [] else t :: valueIn (nesting t) ts := by
  rw [initialValue, valueIn, Int.zero_add, beq_self_eq_true, Bool.true_and]
  by_cases h : t.endsLine
  · rw [if_pos (by rw [h]; rfl), if_pos (endsValue_of_endsLine h)]
  · rw [Bool.eq_false_iff.2 h, Bool.false_or]

/-- A token that stands inside a value and is no bracket. -/
structure IsInner (t : Token) : Prop where
  stays : endsValue t = false
  flat : nesting t = 0

theorem IsInner.initialValue_cons (h : IsInner t) (ts : List Token) :
    initialValue (t :: ts) = t :: initialValue ts := by
  rw [Inference.initialValue_cons, h.stays, h.flat]
  rfl

theorem initialValue_eq_nil {e : Token} : initialValue (e :: ts) = [] ↔ endsValue e := by
  rw [initialValue_cons]
  by_cases he : endsValue e <;> simp [he]

theorem of_initialValue_eq_cons {value : List Token} (h : initialValue ts = t :: value)
    (ht : IsInner t) : ∃ rest, ts = t :: rest ∧ initialValue rest = value := by
  cases ts with
  | nil => cases h
  | cons u rest =>
    have hu : u = t := by
      rw [initialValue_cons] at h
      split at h
      · cases h
      · exact (List.cons.inj h).1
    subst hu
    rw [ht.initialValue_cons] at h
    exact ⟨rest, rfl, (List.cons.inj h).2⟩

/-- The kinds of literals. -/
def literalKinds : List TokenKind :=
  [.integer, .float, .text, .keyword .trueLiteral, .keyword .falseLiteral]

theorem isInner_of_mem (h : t.kind ∈ literalKinds) : IsInner t := by
  simp only [literalKinds, List.mem_cons, List.not_mem_nil, or_false] at h
  rcases h with h | h | h | h | h <;>
    exact ⟨by simp [endsValue, Token.isSemicolon, h], by simp [nesting, h]⟩

theorem mem_of_literal {kind : TokenKind} (h : literal kind ≠ "") : kind ∈ literalKinds := by
  unfold literal at h
  split at h <;> simp_all [literalKinds]

theorem mem_of_signed {sign : String} {kind : TokenKind} (h : signed sign kind ≠ "") :
    kind ∈ literalKinds ∧ sign ≠ ";" := by
  constructor
  · unfold signed at h
    split at h <;> simp_all [literalKinds]
  · rintro rfl
    unfold signed at h
    split at h <;> simp at h

theorem isInner_sign {sign : Token} (hs : sign.kind = .operator) (h : sign.text ≠ ";") :
    IsInner sign :=
  ⟨by simp [endsValue, Token.isSemicolon, hs, h], by simp [nesting, hs]⟩

/-! ### What the first tokens tell -/

/-- A list of tokens whose last one, if there is any, ends the script. -/
def EndsScript (ts : List Token) : Prop := ∀ t ∈ ts.getLast?, t.kind = .endOfFile

theorem EndsScript.of_suffix {rest : List Token} (h : EndsScript ts) (hs : rest <:+ ts) :
    EndsScript rest := by
  obtain ⟨front, rfl⟩ := hs
  intro t ht
  refine h t ?_
  rw [List.getLast?_append, ht]
  rfl

/-- Behind a token inside a value something stands. -/
theorem EndsScript.exists_cons (h : EndsScript (t :: ts)) (ht : IsInner t) :
    ∃ e es, ts = e :: es := by
  cases ts with
  | nil =>
    have hkind : t.kind = .endOfFile := h t rfl
    have hstays := ht.stays
    simp [endsValue, hkind] at hstays
  | cons e es => exact ⟨e, es, rfl⟩

theorem typeOf_literal (h : t.kind ∈ literalKinds) (e : Token) (es : List Token) :
    typeOf (t :: e :: es) = if endsValue e then literal t.kind else "" := by
  rw [typeOf, next, List.headD_cons]
  split
  · next hk => simp [literalKinds, hk] at h
  · next hk => simp [literalKinds, hk] at h
  · rfl

theorem ahead_one (t u : Token) (us : List Token) : ahead (t :: u :: us) 1 = u := rfl

/-- A literal of a type is recognised if it is the whole value. -/
theorem typeOf_of_isLiteral (hts : EndsScript ts) (hne : type ≠ "")
    (h : IsLiteral type (initialValue ts)) : typeOf ts = type := by
  generalize hvalue : initialValue ts = value at h
  cases h with
  | @plain t ht =>
    have hkind := mem_of_literal (ht ▸ hne)
    have hinner := isInner_of_mem hkind
    obtain ⟨rest, rfl, hrest⟩ := of_initialValue_eq_cons hvalue hinner
    obtain ⟨e, es, rfl⟩ := hts.exists_cons hinner
    have hends : endsValue e := initialValue_eq_nil.1 hrest
    rw [typeOf_literal hkind e es, if_pos hends, ht]
  | @signed sign t hs ht =>
    obtain ⟨hkind, hsign⟩ := mem_of_signed (ht ▸ hne)
    have hinner := isInner_sign hs hsign
    obtain ⟨us, rfl, hus⟩ := of_initialValue_eq_cons hvalue hinner
    obtain ⟨rest, rfl, hrest⟩ := of_initialValue_eq_cons hus (isInner_of_mem hkind)
    obtain ⟨e, es, rfl⟩ := (hts.of_suffix (List.suffix_cons _ _)).exists_cons (isInner_of_mem hkind)
    have hends : endsValue e := initialValue_eq_nil.1 hrest
    simp [typeOf, next, ahead, hs, hends, ht]

theorem typeOf_of_opensCall {rest : List Token} (h : OpensCall type ts rest) :
    typeOf ts = type := by
  cases h with
  | construct hname htext htype hparen => simp [typeOf, next, ahead, hname, htext, hparen, htype]
  | create hname htext hdot hmethod hparen =>
    simp [typeOf, next, ahead, hname, htext, hdot, hmethod, hparen]

theorem isInner_of_kind (h : t.kind = .identifier ∨ t.kind = .dot) : IsInner t := by
  rcases h with h | h <;> exact ⟨by simp [endsValue, Token.isSemicolon, h], by simp [nesting, h]⟩

section First

variable {us : List Token} (hts : EndsScript (t :: us)) (hne : typeOf (t :: us) ≠ "")

include hts hne

theorem isLiteral_of_operator (hk : t.kind = .operator) :
    IsLiteral (typeOf (t :: us)) (initialValue (t :: us)) := by
  have htype : typeOf (t :: us) =
      if endsValue (ahead (t :: us) 2) then signed t.text (ahead (t :: us) 1).kind else "" := by
    simp [typeOf, next, hk]
  rw [htype] at hne ⊢
  split_ifs at hne ⊢ with hends
  · obtain ⟨hkind, hsign⟩ := mem_of_signed hne
    have hinner := isInner_sign hk hsign
    obtain ⟨u, us, rfl⟩ := hts.exists_cons hinner
    replace hkind : u.kind ∈ literalKinds := hkind
    obtain ⟨e, es, rfl⟩ :=
      (hts.of_suffix (List.suffix_cons _ _)).exists_cons (isInner_of_mem hkind)
    replace hends : endsValue e := hends
    rw [hinner.initialValue_cons, (isInner_of_mem hkind).initialValue_cons,
      initialValue_eq_nil.2 hends]
    exact .signed hk rfl
  · exact absurd rfl hne

theorem opensCall_of_identifier (hk : t.kind = .identifier) :
    ∃ rest, OpensCall (typeOf (t :: us)) (t :: us) rest := by
  obtain ⟨u, us, rfl⟩ := hts.exists_cons (isInner_of_kind (.inl hk))
  have htype : typeOf (t :: u :: us) =
      if u.kind = .opening .paren ∧ t.text ∈ constructible then t.text
      else if u.kind = .dot ∧ (ahead (t :: u :: us) 2).text = "new" ∧
          (ahead (t :: u :: us) 3).kind = .opening .paren then t.text
      else "" := by
    simp [typeOf, next, hk, ahead_one, and_assoc]
  rw [htype] at hne ⊢
  split_ifs at hne ⊢ with hcall hnew
  · exact ⟨us, .construct hk rfl hcall.2 hcall.1⟩
  · obtain ⟨hdot, hmethod, hparen⟩ := hnew
    obtain ⟨v, us, rfl⟩ :=
      (hts.of_suffix (List.suffix_cons _ _)).exists_cons (isInner_of_kind (.inr hdot))
    cases us with
    | nil =>
      have hlast : v.kind = .endOfFile := hts v rfl
      exact absurd (hlast.symm.trans hparen) (by simp)
    | cons w us => exact ⟨us, .create hk rfl hdot hmethod hparen⟩
  · exact absurd rfl hne

theorem isLiteral_of_literal (hop : t.kind ≠ .operator) (hk : t.kind ≠ .identifier) :
    IsLiteral (typeOf (t :: us)) (initialValue (t :: us)) := by
  have htype : typeOf (t :: us) =
      if endsValue (ahead (t :: us) 1) then literal t.kind else "" := by
    rw [typeOf, next, List.headD_cons]
    split
    · contradiction
    · contradiction
    · rfl
  rw [htype] at hne ⊢
  split_ifs at hne ⊢ with hends
  · have hinner := isInner_of_mem (mem_of_literal hne)
    obtain ⟨e, es, rfl⟩ := hts.exists_cons hinner
    replace hends : endsValue e := hends
    rw [hinner.initialValue_cons, initialValue_eq_nil.2 hends]
    exact .plain rfl
  · exact absurd rfl hne

end First

/-- A type that is inferred is that of a literal, which is the whole value, or of a call, of which
only the start is looked at. -/
theorem isLiteral_or_opensCall (hts : EndsScript ts) (hne : typeOf ts ≠ "") :
    IsLiteral (typeOf ts) (initialValue ts) ∨ ∃ rest, OpensCall (typeOf ts) ts rest := by
  cases ts with
  | nil => exact absurd rfl hne
  | cons t us =>
    by_cases hop : t.kind = .operator
    · exact .inl (isLiteral_of_operator hts hne hop)
    by_cases hk : t.kind = .identifier
    · exact .inr (opensCall_of_identifier hts hne hk)
    · exact .inl (isLiteral_of_literal hts hne hop hk)

/-- Whether a value shows the type: it is a literal of the type, or starts as a call that
constructs an object of the type. -/
def Shows (type : String) (value : List Token) : Prop :=
  IsLiteral type (initialValue value) ∨ ∃ rest, OpensCall type value rest

theorem typeOf_eq_iff (hts : EndsScript ts) (hne : type ≠ "") :
    typeOf ts = type ↔ Shows type ts := by
  constructor
  · rintro rfl
    exact isLiteral_or_opensCall hts hne
  · rintro (h | ⟨rest, h⟩)
    · exact typeOf_of_isLiteral hts hne h
    · exact typeOf_of_opensCall h

end Inference

open Inference

/-! ### Declarations -/

/-- The value of a declaration that leaves its type to it: behind the name stand a colon and an
equals sign, together or apart. -/
def inferred? (ts : List Token) : Option (List Token) :=
  if starts .colon ts && starts .equals ts.tail then some ts.tail.tail
  else if starts .colonEquals ts then some ts.tail
  else none

theorem inferred?_leaves {ts value : List Token} (h : inferred? ts = some value) :
    Leaves ts value := by
  unfold inferred? at h
  split_ifs at h with hcolon hequals
  · cases h
    rw [Bool.and_eq_true] at hcolon
    exact (Leaves.tail hcolon.1 (by simp)).trans (.tail hcolon.2 (by simp))
  · cases h
    exact .tail hequals (by simp)

/-- The variable is declared here, from its name on. -/
structure VariableDecl.DeclaredAt (v : VariableDecl) (ts : List Token) : Prop where
  starts : starts .identifier ts
  name : v.name = (next ts).text
  inferred : v.isInferred = (inferred? ts.tail).isSome
  type : ∀ value ∈ inferred? ts.tail, v.typeName = typeOf value

/-- The parameter is declared here, from its name on. -/
structure Parameter.DeclaredAt (p : Parameter) (ts : List Token) : Prop where
  starts : starts .identifier ts
  name : p.name = (next ts).text
  type : ∀ value ∈ inferred? ts.tail, p.typeName = typeOf value

/-- The variable is what is read here, apart from the tags, which stand before. -/
def VariableDecl.IsReadAt (v : VariableDecl) (ts : List Token) : Prop :=
  ∃ isStatic keyword, v = { (Statement.readVariable isStatic keyword ts).value with tags := v.tags }

/-- The variable is read somewhere among the tokens, and declared there. -/
def VariableDecl.DeclaredIn (v : VariableDecl) (ts : List Token) : Prop :=
  ∃ us, us <:+ ts ∧ v.IsReadAt us ∧ v.DeclaredAt us

/-- The parameters are each read somewhere among the tokens, and declared there. -/
def DeclaredIn (ts : List Token) (ps : List Parameter) : Prop :=
  ∀ p ∈ ps, ∃ us, us <:+ ts ∧ p = (Statement.readParameter us).value ∧ p.DeclaredAt us

theorem VariableDecl.DeclaredIn.of_suffix {ts us : List Token} {v : VariableDecl}
    (h : v.DeclaredIn us) (hs : us <:+ ts) : v.DeclaredIn ts := by
  obtain ⟨vs, hvs, hdeclared⟩ := h
  exact ⟨vs, hvs.trans hs, hdeclared⟩

namespace Statement

variable {ts : List Token}

theorem starts_eq_false {kind other : TokenKind} (h : starts kind ts) (hne : kind ≠ other) :
    starts other ts = false := by
  have hk : (next ts).kind = kind := beq_iff_eq.1 h
  simp [starts, hk, hne]

theorem readVariable_declaredAt (isStatic : Bool) (keyword : Token) (ts : List Token) :
    (readVariable isStatic keyword ts).value.name = "" ∨
      (readVariable isStatic keyword ts).value.DeclaredAt ts := by
  unfold readVariable
  split_ifs with hs
  · right
    unfold readVariableType
    dsimp only
    split_ifs with hcolon hequals hboth
    · have hvalue : inferred? ts.tail = some ts.tail.tail.tail := by simp [inferred?, hcolon, hequals]
      exact ⟨hs, rfl, by rw [hvalue]; rfl, by simp [hvalue]⟩
    · have hsign : starts .colonEquals ts.tail = false := starts_eq_false hcolon (by simp)
      have hvalue : inferred? ts.tail = none := by simp [inferred?, hequals, hsign]
      split <;> exact ⟨hs, rfl, by rw [hvalue]; rfl, by simp [hvalue]⟩
    · have hvalue : inferred? ts.tail = some ts.tail.tail := by simp [inferred?, hcolon, hboth]
      exact ⟨hs, rfl, by rw [hvalue]; rfl, by simp [hvalue]⟩
    · have hvalue : inferred? ts.tail = none := by simp [inferred?, hcolon, hboth]
      exact ⟨hs, rfl, by rw [hvalue]; rfl, by simp [hvalue]⟩
  · exact .inl rfl

/-- The default value of a parameter changes nothing but the type, and that only if it is
inferred. -/
theorem readDefault_value (inferred : Bool) (p : Parameter) (ts : List Token) :
    (readDefault inferred p ts).value.name = p.name ∧
      (starts .equals ts || starts .colonEquals ts → inferred →
        (readDefault inferred p ts).value.typeName = typeOf ts.tail) := by
  unfold readDefault
  split
  · exact ⟨rfl, fun _ hi => if_pos hi⟩
  · next h => exact ⟨rfl, fun hs => absurd hs h⟩

theorem readParameter_declaredAt (ts : List Token) :
    (readParameter ts).value.name = "" ∨ (readParameter ts).value.DeclaredAt ts := by
  unfold readParameter
  split_ifs with hs
  · right
    unfold readParameterType
    split_ifs with hcolon hequals
    · have hvalue : inferred? ts.tail = some ts.tail.tail.tail := by simp [inferred?, hcolon, hequals]
      obtain ⟨hname, htype⟩ := readDefault_value true
        { name := (next ts).text, span := (next ts).span } ts.tail.tail
      refine ⟨hs, hname, fun value hv => ?_⟩
      obtain rfl : ts.tail.tail.tail = value := Option.some.inj (hvalue.symm.trans hv)
      exact htype (by rw [hequals]; rfl) rfl
    · have hsign : starts .colonEquals ts.tail = false := starts_eq_false hcolon (by simp)
      have hvalue : inferred? ts.tail = none := by simp [inferred?, hequals, hsign]
      dsimp only
      split
      · exact ⟨hs, (readDefault_value _ _ _).1, by simp [hvalue]⟩
      · exact ⟨hs, rfl, by simp [hvalue]⟩
    · obtain ⟨hname, htype⟩ := readDefault_value (starts .colonEquals ts.tail)
        { name := (next ts).text, span := (next ts).span } ts.tail
      refine ⟨hs, hname, fun value hv => ?_⟩
      unfold inferred? at hv
      split_ifs at hv with hboth hequals
      · simp [hcolon] at hboth
      · cases hv
        exact htype (by rw [hequals, Bool.or_true]) hequals
      · cases hv
  · exact .inl rfl

/-- The parameter that is recorded, if any. -/
theorem readParameter_declaredIn (ts : List Token) :
    DeclaredIn ts (if (readParameter ts).value.name == "" then [] else [(readParameter ts).value]) := by
  split
  · exact nofun
  · next hname =>
    have hp := (readParameter_declaredAt ts).resolve_left (by simpa using hname)
    exact List.forall_mem_singleton.2 ⟨ts, List.suffix_rfl, rfl, hp⟩

end Statement

theorem DeclaredIn.of_suffix {ts us : List Token} {ps : List Parameter} (h : DeclaredIn us ps)
    (hs : us <:+ ts) : DeclaredIn ts ps := by
  intro p hp
  obtain ⟨vs, hvs, hdeclared⟩ := h p hp
  exact ⟨vs, hvs.trans hs, hdeclared⟩

namespace Statement

variable {ts : List Token}

theorem readParameters_declaredIn (ts : List Token) : DeclaredIn ts (readParameters ts).value := by
  fun_induction readParameters ts with
  | case1 => exact List.forall_mem_nil _
  | case2 ts _ p here hcomma more ih =>
    have hrest : p.rest.tail <:+ ts :=
      (List.tail_suffix _).trans (readParameter_leaves ts).suffix
    exact List.forall_mem_append.2 ⟨readParameter_declaredIn ts, ih.of_suffix hrest⟩
  | case3 ts _ p here hcomma => exact readParameter_declaredIn ts

theorem readSignatureEnd_parameters (f : FunctionDecl) (ts : List Token) :
    (readSignatureEnd f ts).value.parameters = [] ∨
      (readSignatureEnd f ts).value.parameters = f.parameters := by
  unfold readSignatureEnd
  split
  · dsimp only
    split
    · exact .inl rfl
    · split
      · exact .inr rfl
      · exact .inl rfl
  · exact .inl rfl

theorem readFunction_declaredIn (isStatic : Bool) (keyword : Token) (ts : List Token) :
    DeclaredIn ts (readFunction isStatic keyword ts).value.parameters := by
  unfold readFunction
  split
  · split
    · have hps : DeclaredIn ts (readParameters ts.tail.tail).value :=
        (readParameters_declaredIn _).of_suffix ((List.tail_suffix _).trans (List.tail_suffix _))
      dsimp only
      obtain h | h := readSignatureEnd_parameters _ _
      · rw [h]
        exact nofun
      · rw [h]
        exact hps
    · exact nofun
  · exact nofun

theorem readSignal_declaredIn (keyword : Token) (ts : List Token) :
    DeclaredIn ts (readSignal keyword ts).value.parameters := by
  unfold readSignal
  split
  · dsimp only
    split
    · split
      · exact (readParameters_declaredIn _).of_suffix
          ((List.tail_suffix _).trans (List.tail_suffix _))
      · exact nofun
    · exact nofun
  · exact nofun

/-- What a statement declares is declared among the tokens, if it is recorded. -/
def DeclaredIn (ts : List Token) : Statement → Prop
  | var v => v.name = "" ∨ v.DeclaredIn ts
  | func f => ScriptBridge.DeclaredIn ts f.parameters
  | signal s => ScriptBridge.DeclaredIn ts s.parameters
  | _ => True

theorem readVariable_declaredIn (isStatic : Bool) (keyword : Token) {us : List Token} (hs : us <:+ ts) :
    DeclaredIn ts (var (readVariable isStatic keyword us).value) :=
  (readVariable_declaredAt isStatic keyword us).imp_right fun h => ⟨us, hs, ⟨_, _, rfl⟩, h⟩

theorem readStatic_declaredIn (keyword : Token) (ts : List Token) :
    (readStatic keyword ts).value.DeclaredIn ts := by
  unfold readStatic
  split
  · split
    · exact readVariable_declaredIn true _ (List.suffix_cons _ _)
    · split
      · exact (readFunction_declaredIn true _ _).of_suffix (List.suffix_cons _ _)
      · trivial
  · trivial

theorem read_declaredIn (hasName hasBase : Bool) (t : Token) (ts : List Token) :
    (read hasName hasBase t ts).value.DeclaredIn ts := by
  unfold read
  split
  case h_4 =>
    unfold readHeader
    split
    · trivial
    · split
      · split <;> trivial
      · trivial
  case h_5 =>
    rw [map]
    cases (readBase hasBase t ts).value <;> trivial
  case h_6 => exact readVariable_declaredIn false t List.suffix_rfl
  case h_7 => exact readFunction_declaredIn false t ts
  case h_8 => exact readSignal_declaredIn t ts
  case h_9 => exact readStatic_declaredIn t ts
  case h_13 =>
    unfold readWord
    split_ifs <;> trivial
  case h_14 => split <;> trivial
  all_goals trivial

end Statement

/-! ### Classes -/

/-- Variables and parameters of the class are declared among the tokens. -/
structure ScriptClass.DeclaredIn (c : ScriptClass) (ts : List Token) : Prop where
  vars : ∀ v ∈ c.vars, v.DeclaredIn ts
  functions : ∀ f ∈ c.functions, ScriptBridge.DeclaredIn ts f.parameters
  signals : ∀ s ∈ c.signals, ScriptBridge.DeclaredIn ts s.parameters

theorem Statement.DeclaredIn.of_suffix {ts us : List Token} {s : Statement}
    (h : s.DeclaredIn us) (hs : us <:+ ts) : s.DeclaredIn ts := by
  cases s with
  | var v => exact h.imp_right fun hv => hv.of_suffix hs
  | func f => exact ScriptBridge.DeclaredIn.of_suffix h hs
  | signal s => exact ScriptBridge.DeclaredIn.of_suffix h hs
  | blank | other | tag | header | base => trivial

theorem Draft.record_declaredIn {d : Draft} {ts : List Token} (hd : d.script.DeclaredIn ts)
    {s : Statement} (hs : s.DeclaredIn ts) : (d.record s).script.DeclaredIn ts := by
  refine ⟨fun v hv => ?_, fun f hf => ?_, fun t ht => ?_⟩
  · rcases mem_record_vars hv with hv | ⟨w, rfl, hname, rfl⟩
    · exact hd.vars v hv
    · obtain ⟨us, hus, ⟨isStatic, keyword, hread⟩, hw⟩ := hs.resolve_left hname
      refine ⟨us, hus, ⟨isStatic, keyword, ?_⟩, hw.starts, hw.name, hw.inferred, hw.type⟩
      exact congrArg (fun v : VariableDecl => { v with tags := d.pending }) hread
  · rcases mem_record_functions hf with hf | ⟨g, rfl, -, rfl⟩
    · exact hd.functions f hf
    · exact hs
  · rcases mem_record_signals ht with ht | ⟨rfl, -⟩
    · exact hd.signals t ht
    · exact hs

theorem Draft.read_declaredIn {d : Draft} {ts all : List Token} (hd : d.script.DeclaredIn all)
    (hts : ts <:+ all) : (d.read ts).value.script.DeclaredIn all := by
  fun_induction Draft.read d ts with
  | case1 => exact hd
  | case2 => exact hd
  | case3 d t ts _ s r ih =>
    have hts : ts <:+ all := (List.suffix_cons t ts).trans hts
    exact ih (record_declaredIn hd ((Statement.read_declaredIn _ _ t ts).of_suffix hts))
      ((Statement.read_leaves _ _ t ts).suffix.trans hts)

theorem ScriptClass.ofTokens_declaredIn (path : String) (ts : List Token) :
    (ofTokens path ts).1.DeclaredIn ts := by
  have hempty : ScriptClass.DeclaredIn { path } ts := ⟨nofun, nofun, nofun⟩
  have hread : (Draft.read { script := { path } } ts).value.script.DeclaredIn ts :=
    Draft.read_declaredIn hempty List.suffix_rfl
  exact ⟨hread.vars, hread.functions, hread.signals⟩

theorem Lexed.endsScript_ofText (source : String) : EndsScript (ofText source).tokens := by
  intro t ht
  rw [ofText, ofChars, List.getLast?_concat] at ht
  cases ht
  rfl

/-- Whatever a script contains, its variables and parameters are read at places among its tokens.
The types that they take from the values there are those of literals, which are the whole value,
and of calls, of which only the start is looked at. -/
theorem ScriptClass.ofTokens_inferred (path source : String) :
    let ts := (Lexed.ofText source).tokens
    let c := (ofTokens path ts).1
    (∀ v ∈ c.vars, ∃ us, us <:+ ts ∧ v.IsReadAt us ∧ starts .identifier us ∧
      v.name = (next us).text ∧
      v.isInferred = (inferred? us.tail).isSome ∧
      ∀ value, inferred? us.tail = some value → ∀ type, type ≠ "" →
        (v.typeName = type ↔ Shows type value)) ∧
    ∀ ps ∈ c.functions.map FunctionDecl.parameters ++ c.signals.map SignalDecl.parameters, ∀ p ∈ ps,
      ∃ us, us <:+ ts ∧ p = (Statement.readParameter us).value ∧ starts .identifier us ∧
        p.name = (next us).text ∧
        ∀ value, inferred? us.tail = some value → ∀ type, type ≠ "" →
          (p.typeName = type ↔ Shows type value) := by
  intro ts c
  have hends {us value : List Token} (hus : us <:+ ts) (hvalue : inferred? us.tail = some value) :
      EndsScript value :=
    (Lexed.endsScript_ofText source).of_suffix
      ((inferred?_leaves hvalue).suffix.trans ((List.tail_suffix us).trans hus))
  have hc : c.DeclaredIn ts := ofTokens_declaredIn path ts
  constructor
  · intro v hv
    obtain ⟨us, hus, hread, hdeclared⟩ := hc.vars v hv
    refine ⟨us, hus, hread, hdeclared.starts, hdeclared.name, hdeclared.inferred,
      fun value hvalue type hne => ?_⟩
    rw [hdeclared.type value hvalue]
    exact typeOf_eq_iff (hends hus hvalue) hne
  · intro ps hps p hp
    have hin : ScriptBridge.DeclaredIn ts ps := by
      rcases List.mem_append.1 hps with hps | hps
      · obtain ⟨f, hf, rfl⟩ := List.mem_map.1 hps
        exact hc.functions f hf
      · obtain ⟨s, hs, rfl⟩ := List.mem_map.1 hps
        exact hc.signals s hs
    obtain ⟨us, hus, hread, hdeclared⟩ := hin p hp
    refine ⟨us, hus, hread, hdeclared.starts, hdeclared.name, fun value hvalue type hne => ?_⟩
    rw [hdeclared.type value hvalue]
    exact typeOf_eq_iff (hends hus hvalue) hne

theorem Inference.IsLiteral.length_le {type : String} {value : List Token}
    (h : IsLiteral type value) : value.length ≤ 2 := by
  cases h <;> simp

/-- A variable that holds a number. -/
def lengthOfVector : String := "class_name A\nvar x := Vector2(3, 4).length()\n"

/-- A longer expression that starts as a call gets the type of the call. -/
theorem ScriptClass.ofSource_lengthOfVector :
    ∃ c, (ofSource "" lengthOfVector).1 = some c ∧ ∃ v ∈ c.vars, v.typeName = "Vector2" ∧
      ∃ us value, us <:+ (Lexed.ofText lengthOfVector).tokens ∧ starts .identifier us ∧
        v.name = (next us).text ∧ inferred? us.tail = some value ∧
        ∀ type, ¬IsLiteral type (initialValue value) ∧ ¬IsCall type (initialValue value) := by
  have htypes : (ofSource "" lengthOfVector).1.map
      (fun c => c.vars.map fun v => (v.name, v.typeName)) = some [("x", "Vector2")] := by cbv
  obtain ⟨c, hc, hvars⟩ := Option.map_eq_some_iff.1 htypes
  obtain ⟨v, vs, hcons, hv, -⟩ := List.map_eq_cons_iff.1 hvars
  obtain ⟨hname, htype⟩ := Prod.mk.inj hv
  have hmem : v ∈ c.vars := hcons ▸ List.mem_cons_self
  obtain ⟨us, hus⟩ : ∃ us, us = (Lexed.ofText lengthOfVector).tokens.drop 4 := ⟨_, rfl⟩
  have hfacts : (starts .identifier us && (next us).text == "x" && starts .colonEquals us.tail &&
      (initialValue us.tail.tail).length == 10 &&
      (ahead (initialValue us.tail.tail) 1).kind == .opening .paren &&
      !closesLast 1 ((initialValue us.tail.tail).drop 2)) = true := by
    rw [hus]
    cbv
  simp only [Bool.and_eq_true, beq_iff_eq, Bool.not_eq_true'] at hfacts
  obtain ⟨⟨⟨⟨⟨hstarts, htext⟩, hsign⟩, hlength⟩, hparen⟩, hcloses⟩ := hfacts
  have hcolon : starts .colon us.tail = false := Statement.starts_eq_false hsign (by simp)
  have hvalue : inferred? us.tail = some us.tail.tail := by simp [inferred?, hcolon, hsign]
  refine ⟨c, hc, v, hmem, htype, us, us.tail.tail, hus ▸ List.drop_suffix _ _, hstarts,
    hname.trans htext.symm, hvalue, fun type => ⟨fun h => ?_, ?_⟩⟩
  · have hle := h.length_le
    omega
  · generalize initialValue us.tail.tail = tokens at *
    rintro ⟨rest, hopens, hrest⟩
    cases hopens with
    | construct => exact absurd (hcloses.symm.trans hrest) Bool.false_ne_true
    | create _ _ hdot => exact absurd (hdot.symm.trans hparen) (by simp)

end ScriptBridge
