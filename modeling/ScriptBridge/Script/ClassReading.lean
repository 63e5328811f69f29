import ScriptBridge.Script.Lexed
import ScriptBridge.Script.Statement

/-! The class that a script declares. Statements are read one after another up to
the end of the script, and each is recorded in a draft of the class. A tag waits in
the draft for the declaration that it describes, unless it describes the class. -/

namespace ScriptBridge

/-- A class as far as it has been read. -/
structure Draft where
  script : ScriptClass
  pending : List Tag := []

namespace Draft

/-- Tags that describe the class wherever they stand. -/
def classTags : List String := ["tool", "icon", "static_unload", "abstract"]

/-- A declaration without a name is not recorded, but it uses up the tags before it. -/
def record (d : Draft) : Statement → Draft
  | .blank => d
  | .other => { d with pending := [] }
  | .tag t =>
    if classTags.contains t.name then
      { d with script := { d.script with tags := d.script.tags ++ [t] } }
    else { d with pending := d.pending ++ [t] }
  | .header name span icon base =>
    { d with
      script :=
        { d.script with
          name, span
          tags := d.script.tags ++ icon.toList
          base := d.script.base <|> base } }
  | .base b => { d with script := { d.script with base := some b } }
  | .var v =>
    { script :=
        if v.name == "" then d.script
        else { d.script with vars := d.script.vars ++ [{ v with tags := d.pending }] } }
  | .func f =>
    { script :=
        if f.name == "" then d.script
        else { d.script with functions := d.script.functions ++ [{ f with tags := d.pending }] } }
  | .signal s =>
    { script :=
        if s.name == "" then d.script
        else { d.script with signals := d.script.signals ++ [s] } }

/-- The finished class; tags that describe nothing else describe it. -/
def finish (d : Draft) : ScriptClass := { d.script with tags := d.script.tags ++ d.pending }

/-- Reads statements up to the end of the script. -/
def read (d : Draft) : List Token → Reading Draft
  | [] => { value := d, rest := [] }
  | t :: ts =>
    if t.kind = .endOfFile then { value := d, rest := t :: ts }
    else
      let s := Statement.read (d.script.name != "") d.script.base.isSome t ts
      let r := read (d.record s.value) s.rest
      { value := r.value, rest := r.rest, faults := s.faults ++ r.faults }
termination_by ts => ts.length
decreasing_by exact Nat.lt_succ_of_le (Statement.read_leaves _ _ t ts).length_le

/-! A script keeps its path while it is read. -/

theorem record_path (d : Draft) (s : Statement) : (d.record s).script.path = d.script.path := by
  cases s with
  | tag t => simp only [record]; split <;> rfl
  | var v => simp only [record]; split <;> rfl
  | func f => simp only [record]; split <;> rfl
  | signal s => simp only [record]; split <;> rfl
  | blank | other | header | base => rfl

theorem read_path (d : Draft) (ts : List Token) :
    (d.read ts).value.script.path = d.script.path := by
  fun_induction Draft.read d ts with
  | case1 => rfl
  | case2 => rfl
  | case3 d t ts _ s r ih => exact ih.trans (record_path d s.value)

/-! A statement adds at most its own declaration to a class. -/

section Record

variable {d : Draft} {s : Statement}

theorem record_name :
    (d.record s).script.name = d.script.name ∨
      ∃ span icon base, s = .header (d.record s).script.name span icon base := by
  cases s with
  | header name span icon base => exact .inr ⟨span, icon, base, rfl⟩
  | tag | var | func | signal => simp only [record]; split <;> exact .inl rfl
  | blank | other | base => exact .inl rfl

/-- A declaration that is added, unless it has no name, is the only new one. -/
theorem mem_recorded {α : Type} (decls : ScriptClass → List α) {name : String}
    {c c' : ScriptClass} {x y : α} (hc : decls c' = decls c ++ [x])
    (h : y ∈ decls (if name == "" then c else c')) : y ∈ decls c ∨ name ≠ "" ∧ y = x := by
  by_cases hname : name = ""
  · rw [if_pos (beq_iff_eq.2 hname)] at h
    exact .inl h
  · rw [if_neg (mt beq_iff_eq.1 hname), hc] at h
    exact (List.mem_append.1 h).imp_right fun h => ⟨hname, List.mem_singleton.1 h⟩

theorem mem_record_vars {v : VariableDecl} (h : v ∈ (d.record s).script.vars) :
    v ∈ d.script.vars ∨ ∃ w, s = .var w ∧ w.name ≠ "" ∧ v = { w with tags := d.pending } := by
  cases s with
  | var w => exact (mem_recorded ScriptClass.vars rfl h).imp_right fun hv => ⟨w, rfl, hv⟩
  | tag | func | signal => simp only [record] at h; split at h <;> exact .inl h
  | blank | other | header | base => exact .inl h

theorem mem_record_functions {f : FunctionDecl} (h : f ∈ (d.record s).script.functions) :
    f ∈ d.script.functions ∨
      ∃ g, s = .func g ∧ g.name ≠ "" ∧ f = { g with tags := d.pending } := by
  cases s with
  | func g => exact (mem_recorded ScriptClass.functions rfl h).imp_right fun hf => ⟨g, rfl, hf⟩
  | tag | var | signal => simp only [record] at h; split at h <;> exact .inl h
  | blank | other | header | base => exact .inl h

theorem mem_record_signals {t : SignalDecl} (h : t ∈ (d.record s).script.signals) :
    t ∈ d.script.signals ∨ s = .signal t ∧ t.name ≠ "" := by
  cases s with
  | signal u =>
    refine (mem_recorded ScriptClass.signals rfl h).imp_right ?_
    rintro ⟨hname, rfl⟩
    exact ⟨rfl, hname⟩
  | tag | var | func => simp only [record] at h; split at h <;> exact .inl h
  | blank | other | header | base => exact .inl h

end Record

end Draft

namespace ScriptClass

/-- The class that the tokens of the script at `path` declare, as far as it could be
read, and the faults found. -/
def ofTokens (path : String) (tokens : List Token) : ScriptClass × List LocatedFault :=
  let r := Draft.read { script := { path } } tokens
  (r.value.finish, r.faults)

/-- Reads the script at `path`. A script yields a class if it names one and if
nothing in it is at fault. -/
def ofSource (path source : String) : Option ScriptClass × List LocatedFault :=
  let lexed := Lexed.ofText source
  let c := ofTokens path lexed.tokens
  let faults := lexed.faults ++ c.2
  (if faults.isEmpty && c.1.name != "" then some c.1 else none, faults)

theorem path_of_ofSource {path source : String} {c : ScriptClass}
    (h : (ofSource path source).1 = some c) : c.path = path := by
  simp only [ofSource, Option.ite_none_right_eq_some, Option.some.injEq] at h
  obtain ⟨-, rfl⟩ := h
  exact Draft.read_path _ _

end ScriptClass

end ScriptBridge
