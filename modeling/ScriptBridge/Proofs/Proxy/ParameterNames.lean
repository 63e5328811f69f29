import Mathlib
import ScriptBridge.Proofs.Bridge.Overloads
import ScriptBridge.Proofs.Proxy.MemberNames
import ScriptBridge.Script.ClassReading

/-! Names of parameters in the methods of bridges and proxies. A method forwards its call in one
expression, which names the parameters, the object that it wraps and little else; the names of
the parameters come from scripts and from descriptions of the engine, and nothing keeps them
apart from the others. Proved: every method is written as such an expression; each name in it
means what it should exactly where no parameter is called like one of the other names; and these
are `Wrapped` and, where a value is converted, `Variant` in a bridge, and `_wrapped`, or
`ReplaceWrapped` and `wrapped` together, in a proxy. -/

namespace ScriptBridge

/-! ### Expressions -/

/-- The name that an identifier stands for; an at sign in front is no part of it. -/
def bareName (text : String) : String :=
  match text.toList with
  | '@' :: cs => String.ofList cs
  | _ => text

theorem bareName_at (name : String) : bareName ("@" ++ name) = name := by
  simp [bareName, String.toList_append]

theorem bareName_identifier (name : String) : bareName (identifier name) = bareName name := by
  rw [identifier]
  split_ifs with h
  · have hwords : ∀ w ∈ reservedWords, bareName w = w := by decide +kernel
    rw [bareName_at, hwords name (List.contains_iff_mem.1 h)]
  · rfl

/-- What a name stands for: something declared around the method, a parameter of the method, or
the variable of a lambda. -/
inductive Use where
  | outer | parameter | bound
  deriving DecidableEq

/-- The body of a method. Each name in it says what it is meant for. What stands behind a dot, type
arguments included, is not looked up among parameters. -/
inductive Expression where
  | name (text : String) (meant : Use)
  | literal (text : String)
  | member (object : Expression) (name : String)
  | modified (modifier : String) (argument : Expression)
  | call (method : Expression) (arguments : List Expression)
  | lambda (binder : String) (body : Expression)

namespace Expression

def text : Expression → String
  | name x _ => x
  | literal x => x
  | member e x => e.text ++ "." ++ x
  | modified x e => x ++ e.text
  | call e es => e.text ++ "(" ++ ", ".intercalate (es.map text) ++ ")"
  | lambda x e => x ++ " => " ++ e.text

/-- The names that are meant for anything but a parameter. -/
def others : Expression → List String
  | name x meant => if meant = .parameter then [] else [bareName x]
  | literal _ => []
  | member e _ => e.others
  | modified _ e => e.others
  | call e es => e.others ++ es.flatMap others
  | lambda x e => bareName x :: e.others

/-- Each name stands for what it is meant for, where a lambda takes its name from what is around. -/
def Resolves : (String → Use) → Expression → Prop
  | scope, name x meant => scope (bareName x) = meant
  | _, literal _ => True
  | scope, member e _ => e.Resolves scope
  | scope, modified _ e => e.Resolves scope
  | scope, call e es => e.Resolves scope ∧ ∀ argument ∈ es, argument.Resolves scope
  | scope, lambda x e => e.Resolves (Function.update scope (bareName x) .bound)

end Expression

/-! ### Methods -/

/-- A parameter as a method declares it. -/
structure DeclaredParameter where
  type : String
  identifier : String
  default : String := ""

def DeclaredParameter.text (p : DeclaredParameter) : String :=
  p.type ++ " " ++ p.identifier ++ p.default

/-- A method whose body is one expression. -/
structure ExpressionMethod where
  head : String
  parameters : List DeclaredParameter
  constraints : String := ""
  body : Expression

namespace ExpressionMethod

def text (m : ExpressionMethod) : String :=
  m.head ++ "(" ++ ", ".intercalate (m.parameters.map DeclaredParameter.text) ++ ")" ++
    m.constraints ++ " => " ++ m.body.text ++ ";"

/-- The names of the parameters. -/
def names (m : ExpressionMethod) : List String := m.parameters.map fun p => bareName p.identifier

/-- No parameter is called like something else that the body names. -/
def NoClash (m : ExpressionMethod) : Prop := ∀ x ∈ m.names, x ∉ m.body.others

/-- What names stand for in the body: parameters, or else what is around the method. -/
def scope (m : ExpressionMethod) (x : String) : Use := if x ∈ m.names then .parameter else .outer

/-- Each name in the body stands for what it is meant for. -/
def Resolves (m : ExpressionMethod) : Prop := m.body.Resolves m.scope

theorem scope_eq_parameter_iff {m : ExpressionMethod} {x : String} :
    m.scope x = .parameter ↔ x ∈ m.names := by
  rw [scope]
  split_ifs with h <;> simp [h]

theorem scope_eq_outer_iff {m : ExpressionMethod} {x : String} :
    m.scope x = .outer ↔ x ∉ m.names := by
  rw [scope]
  split_ifs with h <;> simp [h]

end ExpressionMethod

/-! ### Methods of a bridge -/

namespace ForwardingMethod

/-- An argument of the call. -/
def argument (p : String × String) : Expression :=
  if p.1 = "Variant" then .name p.2 .parameter
  else .call (.member (.name "Variant" .outer) "From") [.name p.2 .parameter]

def callBody (m : ForwardingMethod) : Expression :=
  .call (.member (.name "Wrapped" .outer) "Call") (.literal m.key :: m.parameters.map argument)

def body (m : ForwardingMethod) : Expression :=
  if m.returns = "void" ∨ m.returns = "Variant" then m.callBody
  else .call (.member m.callBody ("As<" ++ m.returns ++ ">")) []

/-- The method with its body as an expression. -/
def expressed (m : ForwardingMethod) : ExpressionMethod where
  head := "public " ++ m.returns ++ " " ++ m.name
  parameters := m.parameters.map fun p => { type := p.1, identifier := p.2 }
  body := m.body

variable {m : ForwardingMethod}

theorem text_argument (p : String × String) : (argument p).text = passed p := by
  rw [argument, passed]
  split_ifs <;> simp [Expression.text]

theorem text_callBody (m : ForwardingMethod) : m.callBody.text = m.call := by
  simp [callBody, call, Expression.text, Function.comp_def, text_argument]

theorem text_body (m : ForwardingMethod) : m.body.text = m.result := by
  have hdot (s : String) : "." ++ ("As<" ++ s) = ".As<" ++ s := by
    rw [← String.append_assoc]
    rfl
  rw [body, result]
  split_ifs
  · exact text_callBody m
  · simp [Expression.text, text_callBody, hdot, String.append_assoc]

theorem text_expressed (m : ForwardingMethod) : m.expressed.text = m.text := by
  simp [expressed, ExpressionMethod.text, text, DeclaredParameter.text, text_body,
    Function.comp_def, String.append_assoc]

theorem names_expressed (m : ForwardingMethod) :
    m.expressed.names = m.parameters.map fun p => bareName p.2 := by
  simp [expressed, ExpressionMethod.names]

/-- The arguments name `Variant` where one of them is converted. -/
theorem mem_others_arguments {ps : List (String × String)} {x : String} :
    x ∈ (ps.map argument).flatMap Expression.others ↔
      x = "Variant" ∧ ∃ p ∈ ps, p.1 ≠ "Variant" := by
  have hbare : bareName "Variant" = "Variant" := by decide
  rw [List.flatMap_map, List.mem_flatMap, ← exists_and_left]
  refine exists_congr fun p => ?_
  rw [argument]
  split_ifs with h <;> simp [Expression.others, h, hbare, and_comm]

theorem mem_others_body {x : String} : x ∈ m.body.others ↔
    x = "Wrapped" ∨ (x = "Variant" ∧ ∃ p ∈ m.parameters, p.1 ≠ "Variant") := by
  have hbare : bareName "Wrapped" = "Wrapped" := by decide
  have hcall : x ∈ m.callBody.others ↔
      x = "Wrapped" ∨ (x = "Variant" ∧ ∃ p ∈ m.parameters, p.1 ≠ "Variant") := by
    rw [← mem_others_arguments, callBody]
    simp [Expression.others, hbare]
  rw [← hcall, body]
  split_ifs
  · rfl
  · simp [Expression.others]

theorem noClash_expressed_iff :
    m.expressed.NoClash ↔ ∀ p ∈ m.parameters, bareName p.2 ≠ "Wrapped" ∧
      (bareName p.2 = "Variant" → ∀ q ∈ m.parameters, q.1 = "Variant") := by
  rw [ExpressionMethod.NoClash, names_expressed, List.forall_mem_map]
  refine forall₂_congr fun p _ => ?_
  have hbody : m.expressed.body = m.body := rfl
  rw [hbody, mem_others_body]
  simp only [not_or, not_and, not_exists, not_not, ne_eq]

theorem resolves_argument_iff {scope : String → Use} {p : String × String}
    (h : scope (bareName p.2) = .parameter) :
    (argument p).Resolves scope ↔ (p.1 ≠ "Variant" → scope "Variant" = .outer) := by
  have hbare : bareName "Variant" = "Variant" := by decide
  rw [argument]
  split_ifs with hany <;> simp [Expression.Resolves, hany, h, hbare]

theorem resolves_body_iff {scope : String → Use}
    (h : ∀ p ∈ m.parameters, scope (bareName p.2) = .parameter) :
    m.body.Resolves scope ↔ scope "Wrapped" = .outer ∧
      ∀ p ∈ m.parameters, p.1 ≠ "Variant" → scope "Variant" = .outer := by
  have hbare : bareName "Wrapped" = "Wrapped" := by decide
  have hcall : m.callBody.Resolves scope ↔ scope "Wrapped" = .outer ∧
      ∀ p ∈ m.parameters, (argument p).Resolves scope := by
    rw [callBody, Expression.Resolves, List.forall_mem_cons, List.forall_mem_map]
    simp [Expression.Resolves, hbare]
  rw [← forall₂_congr fun p hp => resolves_argument_iff (h p hp), ← hcall, body]
  split_ifs
  · rfl
  · simp [Expression.Resolves]

theorem resolves_expressed_iff : m.expressed.Resolves ↔ m.expressed.NoClash := by
  have hmem : ∀ p ∈ m.parameters, bareName p.2 ∈ m.expressed.names := by
    rw [names_expressed]
    exact fun p => List.mem_map_of_mem
  have hbody : m.expressed.body = m.body := rfl
  rw [ExpressionMethod.Resolves, ExpressionMethod.NoClash, hbody,
    resolves_body_iff fun p hp => ExpressionMethod.scope_eq_parameter_iff.2 (hmem p hp)]
  simp only [mem_others_body, ExpressionMethod.scope_eq_outer_iff]
  constructor
  · rintro ⟨hwrapped, hvariant⟩ x hx (rfl | ⟨rfl, p, hp, hne⟩)
    · exact hwrapped hx
    · exact hvariant p hp hne hx
  · intro h
    exact ⟨fun hx => h _ hx (.inl rfl), fun p hp hne hx => h _ hx (.inr ⟨rfl, p, hp, hne⟩)⟩

end ForwardingMethod

theorem FunctionDecl.parameters_eq {scope : TypeScope} {f : FunctionDecl} {m : ForwardingMethod}
    (h : m ∈ f.overloads scope) :
    m.parameters = (f.parameters.take m.arity).map (Parameter.hosted scope) :=
  ((areOverloads_overloads scope f).forwards m h).parameters

/-- Which names of the parameters of a function clash with the others in one of its methods. -/
theorem FunctionDecl.noClash_iff {scope : TypeScope} {f : FunctionDecl} {m : ForwardingMethod}
    (h : m ∈ f.overloads scope) :
    m.expressed.NoClash ↔ ∀ p ∈ f.parameters.take m.arity, bareName p.name ≠ "Wrapped" ∧
      (bareName p.name = "Variant" →
        ∀ q ∈ f.parameters.take m.arity, HostType.ofText scope q.typeName = "Variant") := by
  rw [ForwardingMethod.noClash_expressed_iff, parameters_eq h]
  simp only [List.forall_mem_map, Parameter.hosted, bareName_identifier]

/-! ### Methods of a proxy -/

namespace Member

def declaredParameter (p : MemberParameter) : DeclaredParameter where
  type := (if p.modifier == "" then "" else p.modifier ++ " ") ++ p.type
  identifier := identifier p.name
  default := p.default.elim "" (" = " ++ ·)

/-- An argument of the call. -/
def argument (p : MemberParameter) : Expression :=
  .modified (callModifier p) (.name (identifier p.name) .parameter)

/-- The body of a method: a call on the wrapped object, or one within a lambda where the object
is to be replaced. -/
def body (m : Member) (ts : List TypeParameter) (ps : List MemberParameter) : Expression :=
  if m.replacesInstance then
    .call (.name "ReplaceWrapped" .outer)
      [.lambda "wrapped" (.call (.member (.name "wrapped" .bound) (identifier m.name))
        (ps.map argument))]
  else
    .call (.member (.name "_wrapped" .outer) (identifier m.name ++ typeParameterList "<" ">" ts))
      (ps.map argument)

/-- The method with its body as an expression. -/
def expressed (m : Member) (ts : List TypeParameter) (ps : List MemberParameter) :
    ExpressionMethod where
  head := "public " ++ m.type ++ " " ++ identifier m.name ++ typeParameterList "<" ">" ts
  parameters := ps.map declaredParameter
  constraints := String.join (ts.map constraintClause)
  body := m.body ts ps

variable {m : Member} {ts : List TypeParameter} {ps : List MemberParameter}

theorem text_arguments (ps : List MemberParameter) :
    ", ".intercalate ((ps.map argument).map Expression.text) = callArguments ps := by
  simp [callArguments, argument, Expression.text, Function.comp_def]

theorem methodCode_eq (m : Member) (ts : List TypeParameter) (ps : List MemberParameter) :
    m.methodCode ts ps = [.line (m.expressed ts ps).text] := by
  have hparameters : ps.map parameterDeclaration =
      (ps.map declaredParameter).map DeclaredParameter.text := by
    simp [parameterDeclaration, declaredParameter, DeclaredParameter.text, Function.comp_def]
  rw [methodCode, ExpressionMethod.text, expressed, hparameters, body]
  have hlambda (s : String) : "ReplaceWrapped(" ++ ("wrapped => " ++ ("wrapped." ++ s)) =
      "ReplaceWrapped(wrapped => wrapped." ++ s := by
    rw [← String.append_assoc, ← String.append_assoc]
    rfl
  split_ifs
  · simp [Expression.text, ← text_arguments, String.append_assoc, hlambda]
  · simp [Expression.text, ← text_arguments, String.append_assoc]

theorem names_expressed : (m.expressed ts ps).names = ps.map fun p => bareName p.name := by
  simp [expressed, ExpressionMethod.names, declaredParameter, bareName_identifier]

/-- The names that the body of a method needs beside those of its parameters. -/
def namesNeeded (m : Member) : List String :=
  if m.replacesInstance then ["ReplaceWrapped", "wrapped"] else ["_wrapped"]

theorem others_arguments (ps : List MemberParameter) :
    (ps.map argument).flatMap Expression.others = [] := by
  simp [List.flatMap_map, argument, Expression.others]

theorem mem_others_body {x : String} : x ∈ (m.body ts ps).others ↔ x ∈ m.namesNeeded := by
  have hbare : ∀ y ∈ ["ReplaceWrapped", "wrapped", "_wrapped"], bareName y = y := by decide
  rw [body, namesNeeded]
  split_ifs <;> simp [Expression.others, others_arguments, hbare]

theorem noClash_expressed_iff :
    (m.expressed ts ps).NoClash ↔ ∀ p ∈ ps, bareName p.name ∉ m.namesNeeded := by
  have hbody : (m.expressed ts ps).body = m.body ts ps := rfl
  simp only [ExpressionMethod.NoClash, names_expressed, List.forall_mem_map, hbody, mem_others_body]

theorem resolves_arguments_iff {scope : String → Use} :
    (∀ e ∈ ps.map argument, e.Resolves scope) ↔ ∀ p ∈ ps, scope (bareName p.name) = .parameter := by
  simp only [List.forall_mem_map, argument, Expression.Resolves, bareName_identifier]

theorem resolves_body_iff {scope : String → Use}
    (h : ∀ p ∈ ps, scope (bareName p.name) = .parameter) :
    (m.body ts ps).Resolves scope ↔
      if m.replacesInstance then
        scope "ReplaceWrapped" = .outer ∧ ∀ p ∈ ps, bareName p.name ≠ "wrapped"
      else scope "_wrapped" = .outer := by
  rw [body]
  split_ifs
  · have hmethod : bareName "ReplaceWrapped" = "ReplaceWrapped" := by decide
    have hobject : bareName "wrapped" = "wrapped" := by decide
    -- within the lambda its variable hides a parameter of the same name
    have hinner : ∀ p ∈ ps, (Function.update scope "wrapped" .bound (bareName p.name) = .parameter ↔
        bareName p.name ≠ "wrapped") := by
      intro p hp
      rw [Function.update_apply]
      split_ifs with hname <;> simp [hname, h p hp]
    simp only [Expression.Resolves, List.forall_mem_singleton, resolves_arguments_iff, hmethod,
      hobject, Function.update_self, true_and]
    rw [forall₂_congr hinner]
  · have hobject : bareName "_wrapped" = "_wrapped" := by decide
    simp only [Expression.Resolves, resolves_arguments_iff, hobject]
    exact and_iff_left h

theorem resolves_expressed_iff : (m.expressed ts ps).Resolves ↔ (m.expressed ts ps).NoClash := by
  have hparameter : ∀ p ∈ ps, (m.expressed ts ps).scope (bareName p.name) = .parameter := by
    intro p hp
    rw [ExpressionMethod.scope_eq_parameter_iff, names_expressed]
    exact List.mem_map_of_mem hp
  have houter (x : String) :
      (m.expressed ts ps).scope x = .outer ↔ ∀ p ∈ ps, bareName p.name ≠ x := by
    rw [ExpressionMethod.scope_eq_outer_iff, names_expressed, List.mem_map]
    simp only [not_exists, not_and, ne_eq]
  have hbody : (m.expressed ts ps).body = m.body ts ps := rfl
  rw [ExpressionMethod.Resolves, hbody, resolves_body_iff hparameter, noClash_expressed_iff,
    houter, houter, namesNeeded]
  split_ifs
  · simp only [List.mem_cons, List.not_mem_nil, or_false, not_or, ne_eq, forall_and]
  · simp only [List.mem_singleton, ne_eq]

end Member

/-- The names of parameters in methods that forward. A pass over functions writes each of their
overloads, and a proxy each of its methods, as a call whose names stand for what they are meant
for exactly where no parameter is called like one of the others. In a bridge the others are
`Wrapped`, and `Variant` unless all parameters have that type; in a proxy they are `_wrapped`, or
`ReplaceWrapped` and `wrapped` for a method that replaces the object. -/
theorem noClash_parameterNames (scope : TypeScope) (r : Roster) (fs : List FunctionDecl)
    (proxy : String) :
    ((forwardFunctions scope r fs).code = (r.forwarded fs).flatMap fun f =>
      (f.overloads scope).flatMap fun m => [.blank 1, .line m.expressed.text]) ∧
    (∀ f : FunctionDecl, ∀ m ∈ f.overloads scope,
      let ps := f.parameters.take m.arity
      (m.expressed.Resolves ↔ m.expressed.NoClash) ∧
      (m.expressed.NoClash ↔ ∀ p ∈ ps, bareName p.name ≠ "Wrapped" ∧
        (bareName p.name = "Variant" → ∀ q ∈ ps, HostType.ofText scope q.typeName = "Variant"))) ∧
    (∀ (m : Member) (ts : List TypeParameter) (ps : List MemberParameter),
      m.shape = .method ts ps →
      (m.proxyCode proxy = [] ∨
        m.proxyCode proxy = m.leadIn ++ [.line (m.expressed ts ps).text] ++ m.leadOut) ∧
      ((m.expressed ts ps).Resolves ↔ (m.expressed ts ps).NoClash) ∧
      ((m.expressed ts ps).NoClash ↔ ∀ p ∈ ps,
        if m.replacesInstance then bareName p.name ≠ "ReplaceWrapped" ∧ bareName p.name ≠ "wrapped"
        else bareName p.name ≠ "_wrapped")) := by
  refine ⟨?_, ?_, ?_⟩
  · rw [code_forwardFunctions]
    refine List.flatMap_congr fun f _ => ?_
    simp only [FunctionDecl.code_eq, ForwardingMethod.text_expressed]
  · intro f m hm
    exact ⟨ForwardingMethod.resolves_expressed_iff, FunctionDecl.noClash_iff hm⟩
  · intro m ts ps hshape
    refine ⟨?_, Member.resolves_expressed_iff, ?_⟩
    · have hcode : m.declaration? = some [.line (m.expressed ts ps).text] := by
        rw [Member.declaration?, hshape, ← Member.methodCode_eq]
      cases hwritten : m.isWritten proxy with
      | true => exact .inr (Member.proxyCode_of_isWritten hwritten hcode)
      | false => exact .inl (Member.proxyCode_of_not_isWritten hwritten)
    · rw [Member.noClash_expressed_iff, Member.namesNeeded]
      split_ifs <;> simp

/-- The parameter of a function may be called like the object that the call is made on, and that
of a method which replaces the object like the variable of the lambda. -/
theorem noClash_parameterNames_wrapped :
    let source := "class_name Door\nfunc attach(Wrapped):\n\tpass\n"
    let scope : TypeScope := { catalog := {}, scriptClasses := [] }
    let attach : FunctionDecl := { name := "attach", parameters := [{ name := "Wrapped" }] }
    let m := ForwardingMethod.ofFunction scope attach 1
    let ps : List MemberParameter := [{ name := "wrapped", type := "Variant" }]
    let setter : Member := { name := "SetScript", shape := .method [] ps, type := "void" }
    ((ScriptClass.ofSource "" source).1.map fun s =>
        (forwardFunctions scope { typeName := "Door" } s.functions).code) =
      some [.blank 1, .line m.text] ∧
    m ∈ attach.overloads scope ∧ ¬m.expressed.NoClash ∧
    m.text = "public Variant attach(Variant Wrapped) => Wrapped.Call(\"attach\", Wrapped);" ∧
    setter.isWritten "NodeProxy" = true ∧ ¬(setter.expressed [] ps).NoClash ∧
    setter.methodCode [] ps =
      [.line ("public void SetScript(Variant wrapped) => " ++
        "ReplaceWrapped(wrapped => wrapped.SetScript(wrapped));")] := by
  dsimp only
  refine ⟨by cbv, ?_, ?_, by decide +kernel, by decide +kernel, ?_, by decide +kernel⟩
  · exact List.mem_map.2 ⟨1, by decide +kernel, rfl⟩
  · rw [ForwardingMethod.noClash_expressed_iff]
    decide +kernel
  · rw [Member.noClash_expressed_iff]
    decide +kernel

end ScriptBridge
