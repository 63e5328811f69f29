import ScriptBridge.Proofs.Script.Cutting
import ScriptBridge.Proofs.Script.Written

/-! The tokens of a written script. Each part of a script has its tokens, and its text
is cut into them whatever stands behind it, as long as the last name of the part ends
there. Proved: the text of a written script is cut into the tokens of the script. -/

namespace ScriptBridge

open Cut

/-- A sign or a bracket, which is a token of its own spelling. -/
def signToken (kind : TokenKind) (text : String) : Token := { kind, text }

/-- The end of a line, as a token. -/
def lineToken : Token := { kind := .newline }

/-- Inside a line, `cs` is cut into `ts` before any text at which a name ends, and closes
the brackets that it opens. -/
def CutsTo (depth : Nat) (cs : List Char) (ts : List Token) : Prop :=
  ∀ rest, Stops rest →
    views (.inLine depth) (cs ++ rest) = ts.map .inl ++ views (.inLine depth) rest

namespace CutsTo

variable {depth : Nat} {cs ds : List Char} {ts us : List Token}

theorem nil : CutsTo depth [] [] := fun _ _ => rfl

theorem append (h : CutsTo depth cs ts) (hs : Stops ds) (k : CutsTo depth ds us) :
    CutsTo depth (cs ++ ds) (ts ++ us) := by
  intro rest hr
  rw [List.append_assoc, h _ (hs.append hr), k rest hr, List.map_append, List.append_assoc]

theorem flatMap {α : Type} {l : List α} {f : α → List Char} {g : α → List Token}
    (hs : ∀ x, Stops (f x)) (h : ∀ x ∈ l, CutsTo depth (f x) (g x)) :
    CutsTo depth (l.flatMap f) (l.flatMap g) := by
  induction l with
  | nil => exact nil
  | cons x l ih =>
    have hx : CutsTo depth (f x) (g x) := h x List.mem_cons_self
    have hl : CutsTo depth (l.flatMap f) (l.flatMap g) :=
      ih fun y hy => h y (List.mem_cons_of_mem x hy)
    exact hx.append (stops_flatMap hs l) hl

theorem blank (h : CutsTo depth cs ts) : CutsTo depth (' ' :: cs) ts := by
  intro rest hr
  rw [List.cons_append, views_blank, h rest hr]

theorem commaBlank (h : CutsTo depth cs ts) :
    CutsTo depth (',' :: ' ' :: cs) (signToken .comma "," :: ts) := by
  intro rest hr
  rw [List.cons_append, views_comma, h.blank rest hr]
  rfl

theorem colonBlank (h : CutsTo depth cs ts) :
    CutsTo depth (':' :: ' ' :: cs) (signToken .colon ":" :: ts) := by
  intro rest hr
  rw [List.cons_append, List.cons_append, views_colon depth (by decide), ← List.cons_append,
    h.blank rest hr]
  rfl

theorem equalsBlank (h : CutsTo depth cs ts) :
    CutsTo depth ('=' :: ' ' :: cs) (signToken .equals "=" :: ts) := by
  intro rest hr
  rw [List.cons_append, List.cons_append, views_equals depth (by decide), ← List.cons_append,
    h.blank rest hr]
  rfl

theorem arrow (h : CutsTo depth cs ts) :
    CutsTo depth ('-' :: '>' :: cs) (signToken .arrow "->" :: ts) := by
  intro rest hr
  rw [List.cons_append, List.cons_append, views_arrow, h rest hr]
  rfl

theorem paren (h : CutsTo (depth + 1) cs ts) :
    CutsTo depth ('(' :: (cs ++ [')']))
      (signToken (.opening .paren) "(" :: (ts ++ [signToken (.closing .paren) ")"])) := by
  intro rest _
  have hs : Stops (')' :: rest) := stops_cons.2 (by decide)
  rw [List.cons_append, List.append_assoc, List.singleton_append, views_paren, h _ hs,
    views_closeParen]
  simp [signToken]

theorem square (h : CutsTo (depth + 1) cs ts) :
    CutsTo depth ('[' :: (cs ++ [']']))
      (signToken (.opening .square) "[" :: (ts ++ [signToken (.closing .square) "]"])) := by
  intro rest _
  have hs : Stops (']' :: rest) := stops_cons.2 (by decide)
  rw [List.cons_append, List.append_assoc, List.singleton_append, views_square, h _ hs,
    views_closeSquare]
  simp [signToken]

end CutsTo

/-- Texts with a mark between them: the first, and each other behind the mark. -/
theorem toList_intercalate_cons (mark s : String) (l : List String) :
    (mark.intercalate (s :: l)).toList =
      s.toList ++ l.flatMap fun t => mark.toList ++ t.toList := by
  induction l generalizing s with
  | nil => simp
  | cons t l ih =>
    rw [String.intercalate_cons_cons, String.toList_append, ih, List.flatMap_cons]
    simp [List.append_assoc]

/-! ### Names -/

theorem IsWord.cutsTo {s : String} (h : IsWord s) (depth : Nat) :
    CutsTo depth s.toList
      [{ kind := (Keyword.ofWord? s).elim .identifier .keyword, text := s }] := by
  intro rest hr
  obtain ⟨c, cs, hs, hc, hcs⟩ := h
  have ht : String.ofList (c :: cs) = s := by rw [← hs, String.ofList_toList]
  rw [hs, List.cons_append, views_word depth hc hcs hr, ht]
  rfl

namespace Keyword

def token (k : Keyword) : Token := { kind := .keyword k, text := k.word }

theorem isWord (k : Keyword) : IsWord k.word := by
  cases k <;> exact ⟨_, _, rfl, by decide, List.all_eq_true.1 (by decide)⟩

theorem ofWord?_word (k : Keyword) : ofWord? k.word = some k := by cases k <;> decide

theorem cutsTo (k : Keyword) (depth : Nat) : CutsTo depth k.word.toList [k.token] := by
  have h := k.isWord.cutsTo depth
  rwa [ofWord?_word] at h

end Keyword

namespace Identifier

def token (i : Identifier) : Token := { kind := .identifier, text := i.text }

theorem cutsTo (i : Identifier) (depth : Nat) : CutsTo depth i.text.toList [i.token] := by
  have h := i.isWord.cutsTo depth
  rwa [i.not_keyword] at h

end Identifier

namespace DottedName

/-- The tokens behind the first name. -/
def moreTokens (more : List Identifier) : List Token :=
  more.flatMap fun i => [signToken .dot ".", i.token]

def tokens (n : DottedName) : List Token := n.first.token :: moreTokens n.more

/-- The characters of a name: the first word, and each other behind a dot. -/
theorem toList_text (n : DottedName) :
    n.text.toList = n.first.text.toList ++ n.more.flatMap fun i => '.' :: i.text.toList := by
  rw [text, toList_intercalate_cons, List.flatMap_map]
  rfl

theorem cutsTo_dot (i : Identifier) (depth : Nat) :
    CutsTo depth ('.' :: i.text.toList) [signToken .dot ".", i.token] := by
  intro rest hr
  have hi := i.cutsTo depth rest hr
  obtain ⟨c, cs, hs, hc, -⟩ := i.isWord
  rw [hs] at hi ⊢
  rw [List.cons_append, List.cons_append, views_dot depth hc, ← List.cons_append, hi]
  rfl

theorem cutsTo (n : DottedName) (depth : Nat) : CutsTo depth n.text.toList n.tokens := by
  have hs (i : Identifier) : Stops ('.' :: i.text.toList) := stops_cons.2 (by decide)
  rw [n.toList_text]
  exact (n.first.cutsTo depth).append (stops_flatMap hs n.more)
    (.flatMap hs fun i _ => cutsTo_dot i depth)

end DottedName

/-! ### Types and parameters -/

/-- Texts in a list are cut one after another. -/
theorem CutsTo.intercalate {α : Type} {depth : Nat} {l : List α} {f : α → String}
    {g : α → List Token} (h : ∀ x ∈ l, CutsTo depth (f x).toList (g x)) :
    CutsTo depth (", ".intercalate (l.map f)).toList
      ([signToken .comma ","].intercalate (l.map g)) := by
  induction l with
  | nil => exact nil
  | cons x l ih =>
    have hx : CutsTo depth (f x).toList (g x) := h x List.mem_cons_self
    cases l with
    | nil => simpa using hx
    | cons y l =>
      have hl := ih fun z hz => h z (List.mem_cons_of_mem x hz)
      have hs (cs : List Char) : Stops (',' :: ' ' :: cs) := stops_cons.2 (by decide)
      simp only [List.map_cons, String.intercalate_cons_cons, List.intercalate_cons_cons,
        String.toList_append, List.append_assoc] at hl ⊢
      exact hx.append (hs _) hl.commaBlank

namespace WrittenType

def tokens : WrittenType → List Token
  | name n => n.tokens
  | applied n arguments =>
    n.tokens ++ signToken (.opening .square) "[" ::
      ([signToken .comma ","].intercalate (arguments.map tokens) ++
        [signToken (.closing .square) "]"])

theorem cutsTo (t : WrittenType) (depth : Nat) : CutsTo depth t.text.toList t.tokens := by
  induction t using induction generalizing depth with
  | name n =>
    rw [text, tokens]
    exact n.cutsTo depth
  | applied n arguments ih =>
    have ha := CutsTo.intercalate fun a ha => ih a ha (depth + 1)
    have hs (cs : List Char) : Stops ('[' :: cs) := stops_cons.2 (by decide)
    rw [text, tokens]
    simp only [String.toList_append, List.append_assoc]
    exact (n.cutsTo depth).append (hs _) ha.square

/-- The tokens of a type behind a sign: none if there is no type. -/
def tokensAfter (sign : Token) (type : Option WrittenType) : List Token :=
  type.elim [] fun t => sign :: t.tokens

theorem cutsTo_annotation (type : Option WrittenType) (depth : Nat) :
    CutsTo depth (textAfter ": " type).toList (tokensAfter (signToken .colon ":") type) := by
  cases type with
  | none => exact .nil
  | some t =>
    simp only [textAfter, Option.elim_some, String.toList_append]
    exact (t.cutsTo depth).colonBlank

theorem cutsTo_returnType (type : Option WrittenType) (depth : Nat) :
    CutsTo depth (textAfter " -> " type).toList (tokensAfter (signToken .arrow "->") type) := by
  cases type with
  | none => exact .nil
  | some t =>
    simp only [textAfter, Option.elim_some, String.toList_append]
    exact (t.cutsTo depth).blank.arrow.blank

theorem stops_annotation (type : Option WrittenType) : Stops (textAfter ": " type).toList := by
  cases type with
  | none => exact stops_nil
  | some t =>
    simp only [textAfter, Option.elim_some, String.toList_append]
    exact stops_cons.2 (by decide)

theorem stops_returnType (type : Option WrittenType) : Stops (textAfter " -> " type).toList := by
  cases type with
  | none => exact stops_nil
  | some t =>
    simp only [textAfter, Option.elim_some, String.toList_append]
    exact stops_cons.2 (by decide)

end WrittenType

namespace WrittenParameter

def defaultTokens (hasDefault : Bool) : List Token :=
  if hasDefault then [signToken .equals "=", Keyword.nullLiteral.token] else []

def tokens (p : WrittenParameter) : List Token :=
  p.name.token :: (WrittenType.tokensAfter (signToken .colon ":") p.type ++
    defaultTokens p.hasDefault)

theorem cutsTo_default (hasDefault : Bool) (depth : Nat) :
    CutsTo depth (if hasDefault then " = null" else "").toList (defaultTokens hasDefault) := by
  cases hasDefault with
  | false => exact .nil
  | true => exact (Keyword.nullLiteral.cutsTo depth).equalsBlank.blank

theorem stops_default (hasDefault : Bool) :
    Stops (if hasDefault then " = null" else "").toList := by
  cases hasDefault with
  | false => exact stops_nil
  | true => exact stops_cons.2 (by decide)

theorem cutsTo (p : WrittenParameter) (depth : Nat) : CutsTo depth p.text.toList p.tokens := by
  have hd := cutsTo_default p.hasDefault depth
  have ht := (WrittenType.cutsTo_annotation p.type depth).append (stops_default p.hasDefault) hd
  have hs := (WrittenType.stops_annotation p.type).append (stops_default p.hasDefault)
  rw [text, String.toList_append, String.toList_append, List.append_assoc]
  exact (p.name.cutsTo depth).append hs ht

def listTokens (ps : List WrittenParameter) : List Token :=
  signToken (.opening .paren) "(" ::
    ([signToken .comma ","].intercalate (ps.map tokens) ++ [signToken (.closing .paren) ")"])

theorem cutsTo_list (ps : List WrittenParameter) (depth : Nat) :
    CutsTo depth (listText ps).toList (listTokens ps) := by
  have h := CutsTo.intercalate fun (p : WrittenParameter) (_ : p ∈ ps) => p.cutsTo (depth + 1)
  rw [listText, String.toList_append, String.toList_append, List.append_assoc]
  exact h.paren

theorem stops_list (ps : List WrittenParameter) : Stops (listText ps).toList := by
  rw [listText, String.toList_append, String.toList_append, List.append_assoc]
  exact stops_cons.2 (by decide)

theorem cutsTo_optionalList (parameters : Option (List WrittenParameter)) (depth : Nat) :
    CutsTo depth (parameters.elim "" listText).toList (parameters.elim [] listTokens) := by
  cases parameters with
  | none => exact .nil
  | some ps => exact cutsTo_list ps depth

theorem stops_optionalList (parameters : Option (List WrittenParameter)) :
    Stops (parameters.elim "" listText).toList := by
  cases parameters with
  | none => exact stops_nil
  | some ps => exact stops_list ps

end WrittenParameter

/-! ### Lines -/

namespace Keyword

variable {cs rest : List Char} {ts : List Token}

/-- A line that starts with a keyword and a blank, up to where a name ends. -/
theorem views_line (k : Keyword) (h : CutsTo 0 cs ts) (hr : Stops rest) :
    views .lineStart (k.word.toList ++ ' ' :: (cs ++ rest)) =
      (k.token :: ts).map .inl ++ views (.inLine 0) rest := by
  have hk := (k.cutsTo 0).append (stops_blank cs) h.blank rest hr
  obtain ⟨c, ds, hc, hn, -⟩ := k.isWord
  rw [hc, List.append_assoc] at hk
  rw [hc, List.cons_append, views_lineStart hn, ← List.cons_append, ← List.cons_append, hk]
  rfl

theorem views_closedLine (k : Keyword) (h : CutsTo 0 cs ts) (rest : List Char) :
    views .lineStart (k.word.toList ++ ' ' :: (cs ++ '\n' :: rest)) =
      (k.token :: (ts ++ [lineToken])).map .inl ++ views .lineStart rest := by
  rw [k.views_line h (stops_lineEnd rest), views_lineEnd]
  simp [lineToken]

end Keyword

namespace WrittenDeclaration

def staticTokens (isStatic : Bool) : List Token := if isStatic then [Keyword.static.token] else []

/-- An indented line with one word. -/
def bodyTokens : List Token :=
  [{ kind := .indent }, { kind := .identifier, text := "pass" }, lineToken]

def tokens : WrittenDeclaration → List Token
  | var isStatic name type =>
    staticTokens isStatic ++ Keyword.var.token :: name.token ::
      (WrittenType.tokensAfter (signToken .colon ":") type ++ [lineToken])
  | signal name parameters =>
    Keyword.signal.token :: name.token ::
      (parameters.elim [] WrittenParameter.listTokens ++ [lineToken])
  | func isStatic name parameters returnType =>
    staticTokens isStatic ++ Keyword.func.token :: name.token ::
      (WrittenParameter.listTokens parameters ++
        (WrittenType.tokensAfter (signToken .arrow "->") returnType ++
          signToken .colon ":" :: lineToken :: bodyTokens))

/-- The line of a static or other declaration, up to where a name ends. -/
theorem views_staticLine (isStatic : Bool) (k : Keyword) {cs rest : List Char} {ts : List Token}
    (h : CutsTo 0 cs ts) (hr : Stops rest) :
    views .lineStart ((staticText isStatic).toList ++ (k.word.toList ++ ' ' :: (cs ++ rest))) =
      (staticTokens isStatic ++ k.token :: ts).map .inl ++ views (.inLine 0) rest := by
  cases isStatic with
  | false => exact k.views_line h hr
  | true =>
    have hk := (k.cutsTo 0).append (stops_blank cs) h.blank
    have hl := Keyword.static.views_line hk hr
    rw [List.append_assoc] at hl
    exact hl

theorem views_var (isStatic : Bool) (name : Identifier) (type : Option WrittenType)
    (rest : List Char) :
    views .lineStart ((var isStatic name type).text.toList ++ rest) =
      (var isStatic name type).tokens.map .inl ++ views .lineStart rest := by
  have ht := (name.cutsTo 0).append (WrittenType.stops_annotation type)
    (WrittenType.cutsTo_annotation type 0)
  have hl := views_staticLine isStatic .var ht (stops_lineEnd rest)
  rw [views_lineEnd] at hl
  simp only [text, tokens, String.toList_append, List.append_assoc, List.cons_append,
    List.nil_append, List.map_append, List.map_cons, List.map_nil] at hl ⊢
  exact hl

theorem views_signal (name : Identifier) (parameters : Option (List WrittenParameter))
    (rest : List Char) :
    views .lineStart ((signal name parameters).text.toList ++ rest) =
      (signal name parameters).tokens.map .inl ++ views .lineStart rest := by
  have hp := (name.cutsTo 0).append (WrittenParameter.stops_optionalList parameters)
    (WrittenParameter.cutsTo_optionalList parameters 0)
  have hl := Keyword.signal.views_closedLine hp rest
  simp only [text, tokens, String.toList_append, List.append_assoc, List.cons_append,
    List.nil_append, List.map_append, List.map_cons, List.map_nil] at hl ⊢
  exact hl

theorem views_body (rest : List Char) :
    views .lineStart ("\tpass\n".toList ++ rest) =
      bodyTokens.map .inl ++ views .lineStart rest := by
  have hw : IsWord "pass" := ⟨'p', "ass".toList, rfl, by decide, List.all_eq_true.1 (by decide)⟩
  have hp := hw.cutsTo 0 ('\n' :: rest) (stops_lineEnd rest)
  rw [views_lineEnd] at hp
  have ht := views_tab (c := 'p') (by decide) ("ass\n".toList ++ rest)
  exact ht.trans (congrArg (List.cons _) hp)

theorem views_func (isStatic : Bool) (name : Identifier) (ps : List WrittenParameter)
    (type : Option WrittenType) (rest : List Char) :
    views .lineStart ((func isStatic name ps type).text.toList ++ rest) =
      (func isStatic name ps type).tokens.map .inl ++ views .lineStart rest := by
  have hr := (WrittenParameter.cutsTo_list ps 0).append (WrittenType.stops_returnType type)
    (WrittenType.cutsTo_returnType type 0)
  have hs := (WrittenParameter.stops_list ps).append (WrittenType.stops_returnType type)
  have hc : Stops (':' :: '\n' :: ("\tpass\n".toList ++ rest)) := stops_cons.2 (by decide)
  have hl := views_staticLine isStatic .func ((name.cutsTo 0).append hs hr) hc
  rw [views_colon 0 (by decide), views_lineEnd, views_body] at hl
  simp only [text, tokens, String.toList_append, List.append_assoc, List.cons_append,
    List.nil_append, List.map_append, List.map_cons] at hl ⊢
  exact hl

theorem views_append (d : WrittenDeclaration) (rest : List Char) :
    views .lineStart (d.text.toList ++ rest) = d.tokens.map .inl ++ views .lineStart rest := by
  cases d with
  | var isStatic name type => exact views_var isStatic name type rest
  | signal name parameters => exact views_signal name parameters rest
  | func isStatic name ps type => exact views_func isStatic name ps type rest

end WrittenDeclaration

namespace WrittenScript

def headTokens (w : WrittenScript) : List Token :=
  [Keyword.className.token, w.name.token, lineToken]

def baseTokens (base : Option DottedName) : List Token :=
  base.elim [] fun n => Keyword.extending.token :: (n.tokens ++ [lineToken])

def tokens (w : WrittenScript) : List Token :=
  w.headTokens ++ (baseTokens w.base ++ w.declarations.flatMap WrittenDeclaration.tokens)

theorem views_declarations (ds : List WrittenDeclaration) :
    views .lineStart (ds.flatMap fun d => d.text.toList) =
      (ds.flatMap WrittenDeclaration.tokens).map .inl := by
  induction ds with
  | nil => simp [views, cutAll]
  | cons d ds ih =>
    rw [List.flatMap_cons, d.views_append, ih, List.flatMap_cons, List.map_append]

theorem views_base (base : Option DottedName) (rest : List Char) :
    views .lineStart ((base.elim "" fun n => "extends " ++ n.text ++ "\n").toList ++ rest) =
      (baseTokens base).map .inl ++ views .lineStart rest := by
  cases base with
  | none => rfl
  | some n =>
    have hl := Keyword.extending.views_closedLine (n.cutsTo 0) rest
    simp only [baseTokens, Option.elim_some, String.toList_append, List.append_assoc,
      List.cons_append, List.nil_append, List.map_append, List.map_cons, List.map_nil] at hl ⊢
    exact hl

/-- The text of a written script is cut into its tokens, without a fault. -/
theorem views_text (w : WrittenScript) : views .lineStart w.text.toList = w.tokens.map .inl := by
  have hl := Keyword.className.views_closedLine (w.name.cutsTo 0)
  have ht : (String.join (w.declarations.map WrittenDeclaration.text)).toList =
      w.declarations.flatMap fun d => d.text.toList := by
    rw [String.toList_join, List.flatMap_map]
  simp only [text, tokens, String.toList_append, List.append_assoc, List.map_append, ht,
    ← views_declarations, ← views_base]
  exact hl _

end WrittenScript

end ScriptBridge
