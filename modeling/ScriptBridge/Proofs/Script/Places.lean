import ScriptBridge.Proofs.Script.Respelling

/-! Reading does not depend on places. A token, a fault or a declaration is bare when
its span is forgotten, which is how the respelling that changes no text leaves it. Proved:
bare tokens declare the class that the tokens declare, bare. -/

namespace ScriptBridge

/-! ### Forgetting spans -/

abbrev Token.bare (t : Token) : Token := { t with span := {} }

def LocatedFault.bare (f : LocatedFault) : LocatedFault := { f with span := {} }

def Tag.bare (t : Tag) : Tag := { t with span := {} }

def Parameter.bare (p : Parameter) : Parameter := { p with span := {} }

def VariableDecl.bare (v : VariableDecl) : VariableDecl :=
  { v with tags := v.tags.map Tag.bare, span := {} }

def FunctionDecl.bare (f : FunctionDecl) : FunctionDecl :=
  { f with parameters := f.parameters.map Parameter.bare, tags := f.tags.map Tag.bare, span := {} }

def SignalDecl.bare (s : SignalDecl) : SignalDecl :=
  { s with parameters := s.parameters.map Parameter.bare, span := {} }

/-- A base without its span. -/
def unplaced {α : Type} (x : α × Span) : α × Span := (x.1, {})

def ScriptClass.bare (c : ScriptClass) : ScriptClass :=
  { c with
    base := c.base.map unplaced
    tags := c.tags.map Tag.bare
    vars := c.vars.map VariableDecl.bare
    functions := c.functions.map FunctionDecl.bare
    signals := c.signals.map SignalDecl.bare
    span := {} }

/-- Tokens without their spans. -/
def bareTokens (ts : List Token) : List Token := ts.map Token.bare

@[simp] theorem bareTokens_append (ts us : List Token) :
    bareTokens (ts ++ us) = bareTokens ts ++ bareTokens us := List.map_append

namespace Respelling

/-! ### What keeps its texts -/

theorem tokens_same (ts : List Token) : same.tokens ts = bareTokens ts := rfl

theorem located_same : same.located = LocatedFault.bare := by
  funext ⟨fault, span⟩
  cases fault <;> rfl

theorem spell_same : same.spell = id := rfl

theorem tag_same : same.tag = Tag.bare := by
  funext t
  rw [tag, spell_same, List.map_id]
  rfl

theorem variableDecl_same : same.variableDecl = VariableDecl.bare := by
  funext v
  rw [variableDecl, tag_same]
  rfl

theorem functionDecl_same : same.functionDecl = FunctionDecl.bare := by
  funext f
  rw [functionDecl, spell_same, Option.map_id, tag_same]
  rfl

theorem base_same : placed same.base = unplaced := by
  funext ⟨b, span⟩
  cases b <;> rfl

theorem scriptClass_same : same.scriptClass = ScriptClass.bare := by
  funext c
  rw [scriptClass, base_same, tag_same, variableDecl_same, functionDecl_same]
  rfl

end Respelling

/-- The class that tokens declare does not depend on where they stand. -/
theorem ScriptClass.ofTokens_bareTokens (path : String) (ts : List Token) :
    ofTokens path (bareTokens ts) =
      ((ofTokens path ts).1.bare, (ofTokens path ts).2.map LocatedFault.bare) := by
  have h := Respelling.same.ofTokens_tokens path ts
  rwa [Respelling.tokens_same, Respelling.scriptClass_same, Respelling.located_same] at h

end ScriptBridge
