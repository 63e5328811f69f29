import ScriptBridge.Proofs.Proxy.MemberNames
import ScriptBridge.Proofs.Text.Lines
import ScriptBridge.Proofs.Text.LiteralValues

/-! Warnings about obsolete members. A pair of marks around an obsolete member switches the
warnings off and on again. Proved: in the lines of a proxy the marks come in pairs, one for each
obsolete member that is written and in their order, and a pair encloses the lines of that member
and nothing else. -/

namespace ScriptBridge

/-! ### Texts of a catalog -/

def TypeParameter.strings (t : TypeParameter) : List String := t.name :: t.constraints

def MemberParameter.strings (p : MemberParameter) : List String :=
  [p.name, p.type, p.modifier] ++ p.default.toList

def MemberShape.strings : MemberShape → List String
  | method typeParameters parameters =>
    typeParameters.flatMap TypeParameter.strings ++ parameters.flatMap MemberParameter.strings
  | _ => []

def Member.strings (m : Member) : List String :=
  [m.name, m.type, m.declaringType] ++ m.obsolete.toList ++ m.shape.strings

def EngineType.strings (t : EngineType) : List String :=
  t.name :: (t.base.toList ++ t.members.flatMap Member.strings)

def ProjectType.strings (t : ProjectType) : List String := t.name :: t.namespaceName.toList

/-- All texts that a catalog holds. -/
def Catalog.strings (c : Catalog) : List String :=
  [c.engineNamespace, c.rootType] ++ c.engineTypes.flatMap EngineType.strings ++
    c.projectTypes.flatMap ProjectType.strings

/-! ### Marks -/

namespace ProxyUnit

def disabling : String := "#pragma warning disable CS0618"

def restoring : String := "#pragma warning restore CS0618"

/-- A line without the blanks at its start. -/
def unindented (l : String) : String := String.ofList (l.toList.dropWhile (· == ' '))

def IsMark (l : String) : Prop := unindented l = disabling ∨ unindented l = restoring

/-- The marks among lines come in pairs, one that disables and one that restores, and these are
the lines that the pairs enclose. -/
inductive Suppresses : List String → List (List String) → Prop where
  | plain {ls : List String} (h : ∀ l ∈ ls, ¬IsMark l) : Suppresses ls []
  | pair {before inside after : List String} {first last : String} {rest : List (List String)}
      (hbefore : ∀ l ∈ before, ¬IsMark l) (hfirst : unindented first = disabling)
      (hinside : ∀ l ∈ inside, ¬IsMark l) (hlast : unindented last = restoring)
      (h : Suppresses after rest) :
      Suppresses (before ++ first :: (inside ++ last :: after)) (inside :: rest)

namespace Suppresses

variable {ls ms : List String} {ss ts : List (List String)}

theorem append (h : Suppresses ls ss) (h' : Suppresses ms ts) :
    Suppresses (ls ++ ms) (ss ++ ts) := by
  induction h with
  | @plain ls hls =>
    -- lines without marks go before the first pair behind them, if there is one
    cases h' with
    | plain hms => exact .plain (List.forall_mem_append.2 ⟨hls, hms⟩)
    | pair hbefore hfirst hinside hlast h =>
      rw [← List.append_assoc]
      exact .pair (List.forall_mem_append.2 ⟨hls, hbefore⟩) hfirst hinside hlast h
  | pair hbefore hfirst hinside hlast _ ih =>
    rw [List.append_assoc, List.cons_append, List.append_assoc, List.cons_append]
    exact .pair hbefore hfirst hinside hlast ih

end Suppresses

/-! ### Lines that are no marks -/

/-- A text on one line that starts neither with a blank nor like a mark. -/
structure IsPlain (t : String) : Prop where
  oneLine : IsOneLine t
  noBlank : t.toList.head? ≠ some ' '
  noMark : t.toList.take 2 ≠ ['#', 'p']

instance (t : String) : Decidable (IsPlain t) :=
  decidable_of_iff (IsOneLine t ∧ t.toList.head? ≠ some ' ' ∧ t.toList.take 2 ≠ ['#', 'p'])
    ⟨fun ⟨oneLine, noBlank, noMark⟩ => ⟨oneLine, noBlank, noMark⟩,
      fun h => ⟨h.oneLine, h.noBlank, h.noMark⟩⟩

theorem IsPlain.append {s t : String} (hs : IsPlain s) (hlength : 2 ≤ s.toList.length)
    (ht : IsOneLine t) : IsPlain (s ++ t) := by
  obtain ⟨hone, hblank, hmark⟩ := hs
  refine ⟨isOneLine_append.2 ⟨hone, ht⟩, ?_, ?_⟩
  · have hne : s.toList ≠ [] := List.ne_nil_of_length_pos (by omega)
    rwa [String.toList_append, List.head?_append_of_ne_nil _ hne]
  · rwa [String.toList_append, List.take_append_of_le_length hlength]

theorem IsPlain.around {front name back : String} (hfront : IsPlain front)
    (hlength : 2 ≤ front.toList.length) (hname : IsOneLine name) (hback : IsOneLine back) :
    IsPlain (front ++ name ++ back) := by
  rw [String.append_assoc]
  exact hfront.append hlength (isOneLine_append.2 ⟨hname, hback⟩)

theorem unindented_atDepth {t : String} (h : t.toList.head? ≠ some ' ') (depth : Nat) :
    unindented (atDepth depth t) = t := by
  have hdrop : t.toList.dropWhile (· == ' ') = t.toList := by
    cases hcs : t.toList with
    | nil => rfl
    | cons c cs =>
      rw [hcs] at h
      rw [List.dropWhile_cons_of_neg (by simpa using h)]
  rw [atDepth]
  split_ifs with he
  · subst he
    rfl
  · have hmargin : (List.replicate (4 * depth) ' ').dropWhile (· == ' ') = [] := by
      simp
    rw [unindented, margin, String.toList_append, String.toList_ofList, List.dropWhile_append,
      hmargin, List.isEmpty_nil, if_pos rfl, hdrop, String.ofList_toList]

theorem IsPlain.not_isMark {t : String} (h : IsPlain t) (depth : Nat) :
    ¬IsMark (atDepth depth t) := by
  rw [IsMark, unindented_atDepth h.noBlank]
  rintro (rfl | rfl)
  · exact h.noMark (by decide)
  · exact h.noMark (by decide)

/-- Fragments whose lines are no marks. -/
def PlainFragment : Fragment → Prop
  | .line t | .openBlock t => IsPlain t
  | .blank _ => True
  | .closeBlock suffix => IsOneLine suffix

instance : DecidablePred PlainFragment
  | .line t => inferInstanceAs (Decidable (IsPlain t))
  | .openBlock t => inferInstanceAs (Decidable (IsPlain t))
  | .blank _ => inferInstanceAs (Decidable True)
  | .closeBlock suffix => inferInstanceAs (Decidable (IsOneLine suffix))

section Fragments

variable {f : Fragment} {fs : List Fragment}

theorem isPlain_closing {suffix : String} (h : IsOneLine suffix) : IsPlain ("\x7d" ++ suffix) := by
  refine ⟨isOneLine_append.2 ⟨by decide, h⟩, ?_, ?_⟩ <;> simp [String.toList_append]

/-- Each line of a plain fragment is a plain text at a depth. -/
theorem exists_of_mem_lines (hf : PlainFragment f) {depth : Nat} {l : String}
    (h : l ∈ f.lines depth) : ∃ d t, IsPlain t ∧ l = atDepth d t := by
  cases f with
  | line t =>
    rw [Fragment.lines_line hf.oneLine, List.mem_singleton] at h
    exact ⟨depth, t, hf, h⟩
  | blank count =>
    rw [Fragment.lines] at h
    exact ⟨0, "", by decide, (List.eq_of_mem_replicate h).trans rfl⟩
  | openBlock header =>
    rw [Fragment.lines, List.mem_append, List.mem_singleton] at h
    rcases h with h | h
    · split_ifs at h
      · cases h
      · exact ⟨depth, header, hf, List.mem_singleton.1 h⟩
    · exact ⟨depth, "\x7b", by decide, h⟩
  | closeBlock suffix =>
    rw [Fragment.lines, List.mem_singleton] at h
    exact ⟨depth - 1, _, isPlain_closing hf, h⟩

theorem exists_of_mem_linesFrom (hfs : ∀ f ∈ fs, PlainFragment f) {depth : Nat} {l : String}
    (h : l ∈ linesFrom depth fs) : ∃ d t, IsPlain t ∧ l = atDepth d t := by
  induction fs generalizing depth with
  | nil => cases h
  | cons f fs ih =>
    rcases List.mem_append.1 h with h | h
    · exact exists_of_mem_lines (hfs f List.mem_cons_self) h
    · exact ih (fun g hg => hfs g (List.mem_cons_of_mem _ hg)) h

theorem plain_linesFrom (hfs : ∀ f ∈ fs, PlainFragment f) (depth : Nat) :
    ∀ l ∈ linesFrom depth fs, IsOneLine l ∧ ¬IsMark l := by
  intro l hl
  obtain ⟨d, t, ht, rfl⟩ := exists_of_mem_linesFrom hfs hl
  exact ⟨isOneLine_atDepth ht.oneLine d, ht.not_isMark d⟩

end Fragments

end ProxyUnit

/-! ### Code of a member -/

theorem isOneLine_identifier {name : String} (h : IsOneLine name) :
    IsOneLine (identifier name) := by
  rw [identifier]
  split_ifs
  · exact isOneLine_append.2 ⟨by decide, h⟩
  · exact h

namespace Member

variable {m : Member} {ts : List TypeParameter} {ps : List MemberParameter}

/-- The line that refers to the documentation of a member. -/
def documentationLine (m : Member) : String :=
  "/// <inheritdoc cref=\"" ++ m.documentationTarget ++ "\"/>"

/-- The attribute with the advice for an obsolete member, if there is any. -/
def attributeLine (advice : String) : String :=
  if advice = "" then "[Obsolete]" else "[Obsolete(" ++ Literal.quoted advice ++ ")]"

theorem leadIn_current (h : m.obsolete = none) :
    m.leadIn = [.blank 1, .line m.documentationLine] := by
  rw [leadIn, documentation, h]
  rfl

theorem leadIn_obsolete {advice : String} (h : m.obsolete = some advice) :
    m.leadIn = [.blank 1, .line ProxyUnit.disabling, .line m.documentationLine,
      .line (attributeLine advice)] := by
  simp only [leadIn, documentation, attributeLine, h, beq_iff_eq]
  rfl

section OneLine

theorem isOneLine_list {l : List String} (h : ∀ s ∈ l, IsOneLine s) :
    IsOneLine (", ".intercalate l) := IsOneLine.intercalate (by decide) h

theorem isOneLine_typeParameterList (h : ∀ t ∈ ts, ∀ s ∈ t.strings, IsOneLine s)
    {opening closing : String} (ho : IsOneLine opening) (hc : IsOneLine closing) :
    IsOneLine (typeParameterList opening closing ts) := by
  rw [typeParameterList]
  split_ifs
  · decide
  · have hnames : IsOneLine (", ".intercalate (ts.map TypeParameter.name)) := by
      refine isOneLine_list (List.forall_mem_map.2 fun t ht => ?_)
      exact h t ht t.name (by simp [TypeParameter.strings])
    simp [ho, hc, hnames]

theorem isOneLine_constraints (h : ∀ t ∈ ts, ∀ s ∈ t.strings, IsOneLine s) :
    IsOneLine (String.join (ts.map constraintClause)) := by
  refine IsOneLine.join (List.forall_mem_map.2 fun t ht => ?_)
  rw [constraintClause]
  split_ifs
  · decide
  · have hname : IsOneLine t.name := h t ht t.name (by simp [TypeParameter.strings])
    have hconstraints : IsOneLine (", ".intercalate t.constraints) :=
      isOneLine_list fun s hs => h t ht s (by simp [TypeParameter.strings, hs])
    simp +decide [hname, hconstraints]

theorem isOneLine_callModifier {p : MemberParameter} (h : ∀ s ∈ p.strings, IsOneLine s) :
    IsOneLine (callModifier p) := by
  have hmodifier : IsOneLine p.modifier := h p.modifier (by simp [MemberParameter.strings])
  rw [callModifier]
  split_ifs
  · simp +decide [hmodifier]
  · decide

theorem isOneLine_declarations (h : ∀ p ∈ ps, ∀ s ∈ p.strings, IsOneLine s) :
    IsOneLine (", ".intercalate (ps.map parameterDeclaration)) := by
  refine isOneLine_list (List.forall_mem_map.2 fun p hp => ?_)
  have hmodifier : IsOneLine p.modifier := h p hp p.modifier (by simp [MemberParameter.strings])
  have htype : IsOneLine p.type := h p hp p.type (by simp [MemberParameter.strings])
  have hname := isOneLine_identifier (h p hp p.name (by simp [MemberParameter.strings]))
  have hdefault : IsOneLine (p.default.elim "" (" = " ++ ·)) := by
    cases hd : p.default with
    | none => decide
    | some value =>
      have hvalue : IsOneLine value := h p hp value (by simp [MemberParameter.strings, hd])
      simp +decide [hvalue]
  rw [parameterDeclaration]
  split_ifs <;> simp +decide [hmodifier, htype, hname, hdefault]

theorem isOneLine_callArguments (h : ∀ p ∈ ps, ∀ s ∈ p.strings, IsOneLine s) :
    IsOneLine (callArguments ps) := by
  refine isOneLine_list (List.forall_mem_map.2 fun p hp => ?_)
  have hname := isOneLine_identifier (h p hp p.name (by simp [MemberParameter.strings]))
  exact isOneLine_append.2 ⟨isOneLine_callModifier (h p hp), hname⟩

theorem isOneLine_shape (h : ∀ s ∈ m.strings, IsOneLine s) (hshape : m.shape = .method ts ps) :
    (∀ t ∈ ts, ∀ s ∈ t.strings, IsOneLine s) ∧ ∀ p ∈ ps, ∀ s ∈ p.strings, IsOneLine s := by
  have hall : ∀ s ∈ ts.flatMap TypeParameter.strings ++ ps.flatMap MemberParameter.strings,
      IsOneLine s := by
    intro s hs
    refine h s (List.mem_append_right _ ?_)
    rwa [hshape]
  obtain ⟨hts, hps⟩ := List.forall_mem_append.1 hall
  exact ⟨fun t ht s hs => hts s (List.mem_flatMap.2 ⟨t, ht, hs⟩),
    fun p hp s hs => hps s (List.mem_flatMap.2 ⟨p, hp, hs⟩)⟩

theorem isOneLine_documentationTarget (h : ∀ s ∈ m.strings, IsOneLine s) :
    IsOneLine m.documentationTarget := by
  have hname : IsOneLine m.name := h m.name (by simp [strings])
  have hdeclaring : IsOneLine m.declaringType := h m.declaringType (by simp [strings])
  rw [documentationTarget]
  cases hshape : m.shape with
  | property | event => simp +decide [hname, hdeclaring]
  | method ts ps =>
    obtain ⟨hts, hps⟩ := isOneLine_shape h hshape
    have htypes : IsOneLine (", ".intercalate (ps.map fun p => callModifier p ++ p.type)) := by
      refine isOneLine_list (List.forall_mem_map.2 fun p hp => ?_)
      have htype : IsOneLine p.type := hps p hp p.type (by simp [MemberParameter.strings])
      exact isOneLine_append.2 ⟨isOneLine_callModifier (hps p hp), htype⟩
    have hlist : IsOneLine (typeParameterList "\x7b" "\x7d" ts) :=
      isOneLine_typeParameterList hts (by decide) (by decide)
    simp +decide [hname, hdeclaring, htypes, hlist]

end OneLine

open ProxyUnit (IsPlain PlainFragment)

section Plain

variable {code : List Fragment} (h : ∀ s ∈ m.strings, IsOneLine s)

include h

theorem isOneLine_type : IsOneLine m.type := h m.type (by simp [strings])

theorem isOneLine_name : IsOneLine (identifier m.name) :=
  isOneLine_identifier (h m.name (by simp [strings]))

/-- The line that opens a property or an event. -/
theorem isPlain_header {front : String} (hfront : IsPlain front)
    (hlength : 2 ≤ front.toList.length) :
    IsPlain (front ++ m.type ++ " " ++ identifier m.name) := by
  rw [String.append_assoc, String.append_assoc]
  exact hfront.append hlength (by simp +decide [isOneLine_type h, isOneLine_name h])

theorem plain_propertyCode (getter setter : Bool) :
    ∀ f ∈ m.propertyCode getter setter, PlainFragment f := by
  have hname := isOneLine_name h
  have hheader : IsPlain ("public " ++ m.type ++ " " ++ identifier m.name) :=
    isPlain_header h (by decide) (by decide)
  have hget : IsPlain ("get => _wrapped." ++ identifier m.name ++ ";") :=
    .around (by decide) (by decide) hname (by decide)
  have hset : IsPlain ("set => _wrapped." ++ identifier m.name ++ " = value;") :=
    .around (by decide) (by decide) hname (by decide)
  intro f hf
  simp only [propertyCode, List.mem_append, List.mem_singleton] at hf
  rcases hf with ((rfl | hf) | hf) | rfl
  · exact hheader
  · split_ifs at hf
    · obtain rfl := List.mem_singleton.1 hf
      exact hget
    · cases hf
  · split_ifs at hf
    · obtain rfl := List.mem_singleton.1 hf
      exact hset
    · cases hf
  · exact (by decide : IsOneLine "")

theorem plain_eventCode : ∀ f ∈ m.eventCode, PlainFragment f := by
  have hname := isOneLine_name h
  have hheader : IsPlain ("public event " ++ m.type ++ " " ++ identifier m.name) :=
    isPlain_header h (by decide) (by decide)
  have hadd : IsPlain ("add => _wrapped." ++ identifier m.name ++ " += value;") :=
    .around (by decide) (by decide) hname (by decide)
  have hremove : IsPlain ("remove => _wrapped." ++ identifier m.name ++ " -= value;") :=
    .around (by decide) (by decide) hname (by decide)
  intro f hf
  simp only [eventCode, List.mem_cons, List.not_mem_nil, or_false] at hf
  rcases hf with rfl | rfl | rfl | rfl
  · exact hheader
  · exact hadd
  · exact hremove
  · exact (by decide : IsOneLine "")

theorem plain_methodCode (hshape : m.shape = .method ts ps) :
    ∀ f ∈ m.methodCode ts ps, PlainFragment f := by
  obtain ⟨hts, hps⟩ := isOneLine_shape h hshape
  have hgeneric : IsOneLine (typeParameterList "<" ">" ts) :=
    isOneLine_typeParameterList hts (by decide) (by decide)
  have harguments := isOneLine_callArguments hps
  have hdeclarations := isOneLine_declarations hps
  have hconstraints := isOneLine_constraints hts
  intro f hf
  obtain rfl := List.mem_singleton.1 hf
  simp only [PlainFragment, String.append_assoc]
  refine .append (by decide) (by decide) ?_
  split_ifs <;>
    simp +decide [isOneLine_type h, isOneLine_name h, hgeneric, harguments, hdeclarations,
      hconstraints]

theorem plain_declaration (hcode : m.declaration? = some code) : ∀ f ∈ code, PlainFragment f := by
  rw [declaration?] at hcode
  split at hcode
  · split_ifs at hcode
    obtain rfl := Option.some.inj hcode
    exact plain_propertyCode h _ _
  · split_ifs at hcode
    obtain rfl := Option.some.inj hcode
    exact plain_eventCode h
  · next hshape =>
    obtain rfl := Option.some.inj hcode
    exact plain_methodCode h hshape

end Plain

/-- A declaration opens and closes its blocks. -/
theorem depthBehind_declaration {code : List Fragment} (hcode : m.declaration? = some code)
    (depth : Nat) : depthBehind depth code = depth := by
  rw [declaration?] at hcode
  split at hcode
  · next getter setter _ =>
    split_ifs at hcode
    obtain rfl := Option.some.inj hcode
    cases getter <;> cases setter <;> rfl
  · split_ifs at hcode
    obtain rfl := Option.some.inj hcode
    rfl
  · obtain rfl := Option.some.inj hcode
    rfl

end Member

/-! ### Lines of a member -/

namespace ProxyUnit

/-- The attribute of an obsolete member holds the advice as a literal, unless there is none. -/
def IsAttribute (advice line : String) : Prop :=
  advice = "" ∧ line = "[Obsolete]" ∨
    advice ≠ "" ∧ ∃ literal, line = "[Obsolete(" ++ literal ++ ")]" ∧
      Literal.value? literal = some advice

/-- What a method does: it calls the wrapped object, which the call may have to replace. -/
def IsForwarding (m : Member) (ts : List TypeParameter) (ps : List MemberParameter)
    (body : String) : Prop :=
  let name := identifier m.name
  let arguments := "(" ++ Member.callArguments ps ++ ")"
  m.replacesInstance = true ∧
      body = "ReplaceWrapped(wrapped => wrapped." ++ name ++ arguments ++ ")" ∨
    m.replacesInstance = false ∧
      body = "_wrapped." ++ name ++ Member.typeParameterList "<" ">" ts ++ arguments

/-- The lines that declare a member: a property that can be read or set, an event that can be
joined and left, or a method. -/
inductive IsDeclaration (m : Member) : List String → Prop where
  | property {getter setter : Bool} (hshape : m.shape = .property getter setter)
      (h : getter = true ∨ setter = true) :
      IsDeclaration m
        ([atDepth 2 ("public " ++ m.type ++ " " ++ identifier m.name), atDepth 2 "\x7b"] ++
          (if getter then [atDepth 3 ("get => _wrapped." ++ identifier m.name ++ ";")] else []) ++
          (if setter then [atDepth 3 ("set => _wrapped." ++ identifier m.name ++ " = value;")]
            else []) ++
          [atDepth 2 "\x7d"])
  | event (hshape : m.shape = .event true true) :
      IsDeclaration m
        [atDepth 2 ("public event " ++ m.type ++ " " ++ identifier m.name), atDepth 2 "\x7b",
          atDepth 3 ("add => _wrapped." ++ identifier m.name ++ " += value;"),
          atDepth 3 ("remove => _wrapped." ++ identifier m.name ++ " -= value;"),
          atDepth 2 "\x7d"]
  | method {ts : List TypeParameter} {ps : List MemberParameter} {body : String}
      (hshape : m.shape = .method ts ps) (hbody : IsForwarding m ts ps body) :
      IsDeclaration m
        [atDepth 2 ("public " ++ m.type ++ " " ++ identifier m.name ++
          Member.typeParameterList "<" ">" ts ++ "(" ++
          ", ".intercalate (ps.map Member.parameterDeclaration) ++ ")" ++
          String.join (ts.map Member.constraintClause) ++ " => " ++ body ++ ";")]

/-- What the marks of an obsolete member enclose: the reference to its documentation, its
attribute and its declaration. -/
def IsEnclosed (m : Member) (inside : List String) : Prop :=
  ∃ advice line declaration, m.obsolete = some advice ∧ IsAttribute advice line ∧
    IsDeclaration m declaration ∧
    inside = atDepth 2 m.documentationLine :: atDepth 2 line :: declaration

/-- The lines of a member in a proxy, with its marks. -/
inductive IsBlock (m : Member) : List String → Prop where
  | current {declaration : List String} (hobsolete : m.obsolete = none)
      (h : IsDeclaration m declaration) :
      IsBlock m ("" :: atDepth 2 m.documentationLine :: declaration)
  | obsolete {inside : List String} (h : IsEnclosed m inside) :
      IsBlock m ("" :: atDepth 2 disabling :: (inside ++ [atDepth 2 restoring]))

variable {m : Member} {code : List Fragment}

theorem isAttribute_attributeLine (advice : String) :
    IsAttribute advice (Member.attributeLine advice) := by
  rw [Member.attributeLine]
  split_ifs with h
  · exact .inl ⟨h, rfl⟩
  · exact .inr ⟨h, _, rfl, Literal.value?_quoted advice⟩

theorem isPlain_attributeLine (advice : String) : IsPlain (Member.attributeLine advice) := by
  rw [Member.attributeLine]
  split_ifs
  · decide
  · exact .around (by decide) (by decide) (Literal.lineFeed_notMem_quoted advice)
      (by decide)

theorem isForwarding (m : Member) (ts : List TypeParameter) (ps : List MemberParameter) :
    IsForwarding m ts ps
      (if m.replacesInstance then
        "ReplaceWrapped(wrapped => wrapped." ++ identifier m.name ++ "(" ++
          Member.callArguments ps ++ "))"
      else "_wrapped." ++ identifier m.name ++ Member.typeParameterList "<" ">" ts ++ "(" ++
        Member.callArguments ps ++ ")") := by
  cases hreplaces : m.replacesInstance
  · exact .inr ⟨hreplaces, by simp [String.append_assoc]⟩
  · exact .inl ⟨hreplaces, by simp [String.append_assoc]⟩

section Block

variable (h : ∀ s ∈ m.strings, IsOneLine s) (hcode : m.declaration? = some code)

theorem lines_header (front type name : String) (hfront : front ≠ "") :
    (Fragment.openBlock (front ++ type ++ " " ++ name)).lines 2 =
      [atDepth 2 (front ++ type ++ " " ++ name), atDepth 2 "\x7b"] := by
  rw [Fragment.lines, if_neg (by simp [hfront]), List.singleton_append]

/-- A line of an accessor, which names the member between two fixed texts. -/
theorem lines_accessor {front name back : String} (hfront : IsOneLine front)
    (hname : IsOneLine name) (hback : IsOneLine back) :
    (Fragment.line (front ++ name ++ back)).lines 3 = [atDepth 3 (front ++ name ++ back)] :=
  Fragment.lines_line (by simp [hfront, hname, hback])

include h in
theorem lines_propertyCode (getter setter : Bool) :
    linesFrom 2 (m.propertyCode getter setter) =
      [atDepth 2 ("public " ++ m.type ++ " " ++ identifier m.name), atDepth 2 "\x7b"] ++
        (if getter then [atDepth 3 ("get => _wrapped." ++ identifier m.name ++ ";")] else []) ++
        (if setter then [atDepth 3 ("set => _wrapped." ++ identifier m.name ++ " = value;")]
          else []) ++
        [atDepth 2 "\x7d"] := by
  have hname := Member.isOneLine_name h
  have hheader := lines_header "public " m.type (identifier m.name) (by decide)
  have hget := lines_accessor (by decide : IsOneLine "get => _wrapped.") hname
    (by decide : IsOneLine ";")
  have hset := lines_accessor (by decide : IsOneLine "set => _wrapped.") hname
    (by decide : IsOneLine " = value;")
  have hclose : (Fragment.closeBlock "").lines 3 = [atDepth 2 "\x7d"] := rfl
  cases getter <;> cases setter <;>
    simp [Member.propertyCode, linesFrom, Fragment.depthAfter, hheader, hget, hset, hclose]

include h in
theorem lines_eventCode :
    linesFrom 2 m.eventCode =
      [atDepth 2 ("public event " ++ m.type ++ " " ++ identifier m.name), atDepth 2 "\x7b",
        atDepth 3 ("add => _wrapped." ++ identifier m.name ++ " += value;"),
        atDepth 3 ("remove => _wrapped." ++ identifier m.name ++ " -= value;"),
        atDepth 2 "\x7d"] := by
  have hname := Member.isOneLine_name h
  have hheader := lines_header "public event " m.type (identifier m.name) (by decide)
  have hadd := lines_accessor (by decide : IsOneLine "add => _wrapped.") hname
    (by decide : IsOneLine " += value;")
  have hremove := lines_accessor (by decide : IsOneLine "remove => _wrapped.") hname
    (by decide : IsOneLine " -= value;")
  have hclose : (Fragment.closeBlock "").lines 3 = [atDepth 2 "\x7d"] := rfl
  simp only [Member.eventCode, linesFrom, Fragment.depthAfter, hheader, hadd, hremove, hclose]
  rfl

include h hcode in
theorem isDeclaration_linesFrom : IsDeclaration m (linesFrom 2 code) := by
  have hplain := Member.plain_declaration h hcode
  rw [Member.declaration?] at hcode
  split at hcode
  · next getter setter hshape =>
    split_ifs at hcode with haccess
    obtain rfl := Option.some.inj hcode
    rw [lines_propertyCode h]
    exact .property hshape (by simpa using haccess)
  · next adder remover hshape =>
    split_ifs at hcode with haccess
    obtain ⟨rfl, rfl⟩ : adder = true ∧ remover = true := by simpa using haccess
    obtain rfl := Option.some.inj hcode
    rw [lines_eventCode h]
    exact .event hshape
  · next ts ps hshape =>
    obtain rfl := Option.some.inj hcode
    have hline := (hplain _ List.mem_cons_self).oneLine
    rw [Member.methodCode, linesFrom, Fragment.lines_line hline]
    exact .method hshape (isForwarding m ts ps)

include h in
theorem isPlain_documentationLine : IsPlain m.documentationLine :=
  .around (by decide) (by decide) (Member.isOneLine_documentationTarget h) (by decide)

/-- What the marks of a member enclose, if it is obsolete. -/
def enclosed (m : Member) : List String :=
  atDepth 2 m.documentationLine :: atDepth 2 (Member.attributeLine (m.obsolete.getD "")) ::
    linesFrom 2 (m.declaration?.getD [])

include h hcode in
theorem isEnclosed_enclosed (hobsolete : m.obsolete.isSome = true) :
    IsEnclosed m (enclosed m) := by
  obtain ⟨advice, hadvice⟩ := Option.isSome_iff_exists.1 hobsolete
  refine ⟨advice, _, _, hadvice, isAttribute_attributeLine advice,
    isDeclaration_linesFrom h hcode, ?_⟩
  rw [enclosed, hadvice, hcode]
  rfl

include h hcode in
theorem enclosed_plain : ∀ l ∈ enclosed m, IsOneLine l ∧ ¬IsMark l := by
  have hplain {t : String} (ht : IsPlain t) :
      IsOneLine (atDepth 2 t) ∧ ¬IsMark (atDepth 2 t) :=
    ⟨isOneLine_atDepth ht.oneLine 2, ht.not_isMark 2⟩
  rw [enclosed, hcode]
  refine List.forall_mem_cons.2 ⟨hplain (isPlain_documentationLine h), ?_⟩
  refine List.forall_mem_cons.2 ⟨hplain (isPlain_attributeLine _), ?_⟩
  exact plain_linesFrom (Member.plain_declaration h hcode) 2

include h in
theorem lines_documentationLine :
    (Fragment.line m.documentationLine).lines 2 = [atDepth 2 m.documentationLine] := by
  have hplain : IsPlain m.documentationLine := isPlain_documentationLine h
  exact Fragment.lines_line hplain.oneLine

theorem lines_attributeLine (advice : String) :
    (Fragment.line (Member.attributeLine advice)).lines 2 =
      [atDepth 2 (Member.attributeLine advice)] := by
  have hplain : IsPlain (Member.attributeLine advice) := isPlain_attributeLine advice
  exact Fragment.lines_line hplain.oneLine

include h hcode in
theorem lines_current (hobsolete : m.obsolete = none) :
    linesFrom 2 (m.leadIn ++ code ++ m.leadOut) =
        "" :: atDepth 2 m.documentationLine :: linesFrom 2 code ∧
      depthBehind 2 (m.leadIn ++ code ++ m.leadOut) = 2 := by
  have hfragments : m.leadIn ++ code ++ m.leadOut =
      .blank 1 :: .line m.documentationLine :: code := by
    rw [Member.leadIn_current hobsolete, Member.leadOut, hobsolete, List.append_assoc]
    exact congrArg _ (List.append_nil code)
  have hdocumentation := lines_documentationLine h
  rw [hfragments]
  constructor
  · simp only [linesFrom, Fragment.depthAfter, hdocumentation]
    rfl
  · simp only [depthBehind_cons, Fragment.depthAfter, Member.depthBehind_declaration hcode]

include h hcode in
theorem lines_obsolete {advice : String} (hobsolete : m.obsolete = some advice) :
    linesFrom 2 (m.leadIn ++ code ++ m.leadOut) =
        "" :: atDepth 2 disabling :: (enclosed m ++ [atDepth 2 restoring]) ∧
      depthBehind 2 (m.leadIn ++ code ++ m.leadOut) = 2 := by
  have hdepth := Member.depthBehind_declaration hcode 2
  have hfragments : m.leadIn ++ code ++ m.leadOut =
      [.blank 1, .line disabling, .line m.documentationLine,
        .line (Member.attributeLine advice)] ++ (code ++ [.line restoring]) := by
    rw [Member.leadIn_obsolete hobsolete, Member.leadOut, hobsolete, List.append_assoc]
    rfl
  have hdisabling : (Fragment.line disabling).lines 2 = [atDepth 2 disabling] :=
    Fragment.lines_line (by decide)
  have hrestoring : (Fragment.line restoring).lines 2 = [atDepth 2 restoring] :=
    Fragment.lines_line (by decide)
  have hdocumentation := lines_documentationLine h
  have hattribute := lines_attributeLine advice
  rw [hfragments]
  constructor
  · rw [linesFrom_append, linesFrom_append]
    simp only [linesFrom, depthBehind_cons, depthBehind_nil, Fragment.depthAfter, hdepth,
      hdisabling, hrestoring, hdocumentation, hattribute]
    simp [enclosed, hobsolete, hcode, Fragment.lines]
  · rw [depthBehind_append, depthBehind_append]
    simp only [depthBehind_cons, depthBehind_nil, Fragment.depthAfter, hdepth]

end Block

/-! ### Lines of a unit -/

variable {catalog : Catalog} {engineType proxy : String} {block inside : Member → List String}

/-- The texts of a written member are texts of the catalog. -/
theorem isOneLine_of_mem_written (hcatalog : ∀ s ∈ catalog.strings, IsOneLine s)
    (h : m ∈ written catalog engineType) : ∀ s ∈ m.strings, IsOneLine s := by
  obtain ⟨t, ht, hm, -⟩ := exists_of_mem_written h
  have htype : t ∈ catalog.engineTypes := Catalog.mem_engineTypes_of_mem_chain ht
  intro s hs
  refine hcatalog s (List.mem_append_left _ (List.mem_append_right _ ?_))
  refine List.mem_flatMap.2 ⟨t, htype, List.mem_cons_of_mem _ (List.mem_append_right _ ?_)⟩
  exact List.mem_flatMap.2 ⟨m, hm, hs⟩

/-- The lines of a written member. -/
def blockOf (proxy : String) (m : Member) : List String := linesFrom 2 (m.proxyCode proxy)

/-- The two forms that the lines of a written member have. -/
theorem blockOf_cases (h : ∀ s ∈ m.strings, IsOneLine s) (hwritten : m.isWritten proxy = true) :
    depthBehind 2 (m.proxyCode proxy) = 2 ∧ ∃ code, m.declaration? = some code ∧
      ((m.obsolete = none ∧
          blockOf proxy m = "" :: atDepth 2 m.documentationLine :: linesFrom 2 code) ∨
        (m.obsolete.isSome = true ∧
          blockOf proxy m =
            "" :: atDepth 2 disabling :: (enclosed m ++ [atDepth 2 restoring]))) := by
  obtain ⟨-, -, -, code, hcode⟩ := Member.isWritten_iff.1 hwritten
  rw [blockOf, Member.proxyCode_of_isWritten hwritten hcode]
  cases hobsolete : m.obsolete with
  | none =>
    obtain ⟨hlines, hdepth⟩ := lines_current h hcode hobsolete
    exact ⟨hdepth, code, hcode, .inl ⟨rfl, hlines⟩⟩
  | some advice =>
    obtain ⟨hlines, hdepth⟩ := lines_obsolete h hcode hobsolete
    exact ⟨hdepth, code, hcode, .inr ⟨rfl, hlines⟩⟩

theorem isBlock_blockOf (h : ∀ s ∈ m.strings, IsOneLine s) (hwritten : m.isWritten proxy = true) :
    IsBlock m (blockOf proxy m) := by
  obtain ⟨-, code, hcode, ⟨hobsolete, hlines⟩ | ⟨hobsolete, hlines⟩⟩ := blockOf_cases h hwritten
  · rw [hlines]
    exact .current hobsolete (isDeclaration_linesFrom h hcode)
  · rw [hlines]
    exact .obsolete (isEnclosed_enclosed h hcode hobsolete)

/-- The empty line in front of each member. -/
theorem plain_empty : IsOneLine "" ∧ ¬IsMark "" :=
  ⟨by decide, IsPlain.not_isMark (t := "") (by decide) 0⟩

theorem isOneLine_blockOf (h : ∀ s ∈ m.strings, IsOneLine s)
    (hwritten : m.isWritten proxy = true) : ∀ l ∈ blockOf proxy m, IsOneLine l := by
  have hdocumentation := isOneLine_atDepth (isPlain_documentationLine h).oneLine 2
  obtain ⟨-, code, hcode, ⟨-, hlines⟩ | ⟨-, hlines⟩⟩ := blockOf_cases h hwritten
  · rw [hlines, List.forall_mem_cons, List.forall_mem_cons]
    refine ⟨plain_empty.1, hdocumentation, fun l hl => ?_⟩
    exact (plain_linesFrom (Member.plain_declaration h hcode) 2 l hl).1
  · rw [hlines, List.forall_mem_cons, List.forall_mem_cons, List.forall_mem_append,
      List.forall_mem_singleton]
    exact ⟨plain_empty.1, isOneLine_atDepth (by decide) 2,
      fun l hl => (enclosed_plain h hcode l hl).1, isOneLine_atDepth (by decide) 2⟩

/-- The lines of a member that is not obsolete hold no mark. -/
theorem not_isMark_blockOf (h : ∀ s ∈ m.strings, IsOneLine s)
    (hwritten : m.isWritten proxy = true) (hobsolete : m.obsolete = none) :
    ∀ l ∈ blockOf proxy m, ¬IsMark l := by
  obtain ⟨-, code, hcode, ⟨-, hlines⟩ | ⟨hsome, -⟩⟩ := blockOf_cases h hwritten
  · rw [hlines, List.forall_mem_cons, List.forall_mem_cons]
    refine ⟨plain_empty.2, (isPlain_documentationLine h).not_isMark 2, fun l hl => ?_⟩
    exact (plain_linesFrom (Member.plain_declaration h hcode) 2 l hl).2
  · rw [hobsolete] at hsome
    cases hsome

/-- The marks among the lines of a member enclose its code, if it is obsolete. -/
theorem suppresses_blockOf (h : ∀ s ∈ m.strings, IsOneLine s)
    (hwritten : m.isWritten proxy = true) :
    Suppresses (blockOf proxy m) (if m.obsolete.isSome then [enclosed m] else []) := by
  split_ifs with hsome
  · obtain ⟨-, code, hcode, ⟨hnone, -⟩ | ⟨-, hlines⟩⟩ := blockOf_cases h hwritten
    · rw [hnone] at hsome
      cases hsome
    · rw [hlines]
      have hbefore : ∀ l ∈ [""], ¬IsMark l := List.forall_mem_singleton.2 plain_empty.2
      have hinside : ∀ l ∈ enclosed m, ¬IsMark l := fun l hl => (enclosed_plain h hcode l hl).2
      exact .pair hbefore (unindented_atDepth (by decide) 2) hinside
        (unindented_atDepth (by decide) 2) (.plain (by simp))
  · exact .plain (not_isMark_blockOf h hwritten (Option.not_isSome_iff_eq_none.1 hsome))

/-- The marks in the lines of members enclose what they enclose in the lines of each of them. -/
theorem Suppresses.flatMap {ms : List Member}
    (h : ∀ m ∈ ms, Suppresses (block m) (if m.obsolete.isSome then [inside m] else [])) :
    Suppresses (ms.flatMap block) ((ms.filter (·.obsolete.isSome)).map inside) := by
  induction ms with
  | nil => exact .plain (by simp)
  | cons m ms ih =>
    have hm := h m List.mem_cons_self
    have hms := ih fun n hn => h n (List.mem_cons_of_mem _ hn)
    rw [List.flatMap_cons, List.filter_cons]
    split_ifs at hm ⊢
    · exact hm.append hms
    · exact hm.append hms

theorem plain_preamble (htype : IsOneLine engineType) :
    ∀ f ∈ preamble engineType, PlainFragment f := by
  have hcomment :
      IsPlain ("//     Generated by gdbridgegen for the engine type " ++ engineType ++ ".") :=
    .around (by decide) (by decide) htype (by decide)
  simp +decide only [preamble, List.forall_mem_cons, PlainFragment, hcomment]
  simp

theorem plain_wrapping (htype : IsOneLine engineType) :
    ∀ f ∈ wrapping engineType, PlainFragment f := by
  have hproxy : IsOneLine (proxyName engineType) := isOneLine_append.2 ⟨htype, by decide⟩
  have hclass : IsPlain ("public class " ++ proxyName engineType) :=
    .append (by decide) (by decide) hproxy
  have hfield : IsPlain ("private " ++ engineType ++ " _wrapped;") :=
    .around (by decide) (by decide) htype (by decide)
  have hconstructor : IsPlain ("public " ++ proxyName engineType ++ "(GodotObject gdObject)") :=
    .around (by decide) (by decide) hproxy (by decide)
  have hcast : IsPlain ("_wrapped = (" ++ engineType ++ ")gdObject;") :=
    .around (by decide) (by decide) htype (by decide)
  have hwrapped : IsPlain ("public " ++ engineType ++ " Wrapped => _wrapped;") :=
    .around (by decide) (by decide) htype (by decide)
  have hreplace :
      IsPlain ("protected void ReplaceWrapped(Action<" ++ engineType ++ "> mutation)") :=
    .around (by decide) (by decide) htype (by decide)
  have hreplaced :
      IsPlain ("_wrapped = (" ++ engineType ++ ")GodotObject.InstanceFromId(instanceId);") :=
    .around (by decide) (by decide) htype (by decide)
  simp +decide only [wrapping, List.forall_mem_cons, PlainFragment, hclass, hfield, hconstructor,
    hcast, hwrapped, hreplace, hreplaced]
  simp

/-- The lines before the members of a proxy. -/
def front (engineType : String) : List String :=
  linesFrom 0 (preamble engineType ++ wrapping engineType)

/-- The lines behind the members of a proxy, with those that close its blocks. -/
def back : List String :=
  linesFrom 2 (textOverride ++ containers ++ List.replicate 2 (.closeBlock ""))

theorem plain_front (htype : IsOneLine engineType) :
    ∀ l ∈ front engineType, IsOneLine l ∧ ¬IsMark l :=
  plain_linesFrom (List.forall_mem_append.2 ⟨plain_preamble htype, plain_wrapping htype⟩) 0

theorem plain_back : ∀ l ∈ back, IsOneLine l ∧ ¬IsMark l :=
  plain_linesFrom (by decide) 2

theorem text_eq (hdepth : ∀ m ∈ written catalog engineType,
      depthBehind 2 (m.proxyCode (proxyName engineType)) = 2) :
    text catalog engineType = ofLines (front engineType ++
      (written catalog engineType).flatMap (blockOf (proxyName engineType)) ++ back) := by
  have hfront : depthBehind 0 (preamble engineType ++ wrapping engineType) = 2 := rfl
  have hmembers := depthBehind_flatMap 2 hdepth
  have hback : depthBehind 2 (textOverride ++ containers) = 2 := rfl
  rw [text, front, back, flatMap_proxyCode, ← written, renderUnit_eq, List.append_assoc,
    List.append_assoc]
  generalize preamble engineType ++ wrapping engineType = before at hfront ⊢
  generalize textOverride ++ containers = after at hback ⊢
  simp only [depthBehind_append, hfront, hmembers, hback, linesFrom_append,
    linesFrom_flatMap 2 hdepth, List.append_assoc]
  rfl

/-- Suppression of warnings in a proxy. The unit has lines of its own, which are no marks, and
between them those of each member that is written. The marks come in pairs: one for each of these
members that is obsolete, in their order, and it encloses what belongs to that member. The lines
of a member that is not obsolete hold no mark, and before them and behind them all pairs are
complete. -/
theorem text_suppression (hcatalog : ∀ s ∈ catalog.strings, IsOneLine s)
    (htype : IsOneLine engineType) :
    let members := written catalog engineType
    ∃ (front back : List String) (block inside : Member → List String),
      text catalog engineType = ofLines (front ++ members.flatMap block ++ back) ∧
      linesOf (text catalog engineType) = front ++ members.flatMap block ++ back ∧
      (∀ m ∈ members, IsBlock m (block m)) ∧
      (∀ m ∈ members, m.obsolete.isSome = true → IsEnclosed m (inside m)) ∧
      Suppresses (front ++ members.flatMap block ++ back)
        ((members.filter (·.obsolete.isSome)).map inside) ∧
      ∀ pre m post, members = pre ++ m :: post → m.obsolete = none →
        (∀ l ∈ block m, ¬IsMark l) ∧
        Suppresses (front ++ pre.flatMap block) ((pre.filter (·.obsolete.isSome)).map inside) ∧
        Suppresses (post.flatMap block ++ back) ((post.filter (·.obsolete.isSome)).map inside) := by
  intro members
  have hwritten : ∀ m ∈ members, m.isWritten (proxyName engineType) = true :=
    fun m hm => (List.mem_filter.1 hm).2
  have hstrings : ∀ m ∈ members, ∀ s ∈ m.strings, IsOneLine s :=
    fun m hm => isOneLine_of_mem_written hcatalog hm
  have hfront : Suppresses (front engineType) [] := .plain fun l hl => (plain_front htype l hl).2
  have hback : Suppresses back [] := .plain fun l hl => (plain_back l hl).2
  -- for any of the members, so also for those before one and those behind it
  have hblocks : ∀ ms ⊆ members,
      Suppresses (ms.flatMap (blockOf (proxyName engineType)))
        ((ms.filter (·.obsolete.isSome)).map enclosed) :=
    fun ms hms => Suppresses.flatMap fun m hm =>
      suppresses_blockOf (hstrings m (hms hm)) (hwritten m (hms hm))
  have htext := text_eq fun m hm => (blockOf_cases (hstrings m hm) (hwritten m hm)).1
  refine ⟨front engineType, back, blockOf (proxyName engineType), enclosed, htext, ?_, ?_, ?_, ?_,
    ?_⟩
  · rw [htext]
    refine linesOf_ofLines (List.forall_mem_append.2 ⟨List.forall_mem_append.2 ⟨?_, ?_⟩, ?_⟩)
    · exact fun l hl => (plain_front htype l hl).1
    · intro l hl
      obtain ⟨m, hm, hl⟩ := List.mem_flatMap.1 hl
      exact isOneLine_blockOf (hstrings m hm) (hwritten m hm) l hl
    · exact fun l hl => (plain_back l hl).1
  · exact fun m hm => isBlock_blockOf (hstrings m hm) (hwritten m hm)
  · intro m hm hobsolete
    obtain ⟨-, -, -, code, hcode⟩ := Member.isWritten_iff.1 (hwritten m hm)
    exact isEnclosed_enclosed (hstrings m hm) hcode hobsolete
  · simpa using (hfront.append (hblocks members (List.Subset.refl _))).append hback
  · intro pre m post hsplit hobsolete
    have hm : m ∈ members := by simp [hsplit]
    have hpre : pre ⊆ members := by simp [hsplit]
    have hpost : post ⊆ members := by
      rw [hsplit]
      exact fun n hn => List.mem_append_right _ (List.mem_cons_of_mem _ hn)
    refine ⟨not_isMark_blockOf (hstrings m hm) (hwritten m hm) hobsolete, ?_, ?_⟩
    · exact hfront.append (hblocks pre hpre)
    · simpa using (hblocks post hpost).append hback

/-- A dial with an obsolete value, which was replaced, and an obsolete event without an advice. -/
theorem text_suppression_dial :
    let value : Member :=
      { name := "Value", shape := .property true true, type := "double", declaringType := "Dial",
        obsolete := some "Turn it" }
    let turn : Member :=
      { name := "Turn", shape := .method [] [], type := "void", declaringType := "Dial" }
    let moved : Member :=
      { name := "Moved", shape := .event true true, type := "Action", declaringType := "Dial",
        obsolete := some "" }
    let catalog := CatalogCall.applyAll {}
      [.addEngineType { name := "Dial", members := [value, turn, moved] }]
    written catalog "Dial" = [value, turn, moved] ∧
    ∃ valueLines movedLines,
      Suppresses (linesOf (text catalog "Dial")) [valueLines, movedLines] ∧
      IsEnclosed value valueLines ∧ IsEnclosed moved movedLines := by
  intro value turn moved catalog
  have hwritten : written catalog "Dial" = [value, turn, moved] := by decide +kernel
  have hcatalog : ∀ s ∈ catalog.strings, IsOneLine s := by decide +kernel
  obtain ⟨front, back, block, inside, -, hlines, -, hinside, hpairs, -⟩ :=
    text_suppression hcatalog (by decide : IsOneLine "Dial")
  rw [← hlines, hwritten] at hpairs
  refine ⟨hwritten, inside value, inside moved, hpairs, hinside value ?_ rfl, hinside moved ?_ rfl⟩
  · simp [hwritten]
  · simp [hwritten]

end ProxyUnit

end ScriptBridge
