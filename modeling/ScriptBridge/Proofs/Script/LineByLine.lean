import Mathlib
import ScriptBridge.Proofs.Script.LineReading
import ScriptBridge.Script.ClassReading

/-! A class is read line by line. Whole lines are read alike whatever stands behind them,
and what stands behind them is read as if it stood alone, apart from the head of the class
and from tags that wait for a declaration. Proved: the declarations and the faults of the
whole are those of the lines, followed by those of what stands behind them. -/

namespace ScriptBridge

open Tokens

variable {ts rest : List Token} {t : Token}

/-! ### Whole lines -/

/-- No token ends the script, a line end is an empty token, and the last line has one. -/
structure WholeLines (ts : List Token) : Prop where
  noEnd : ∀ t ∈ ts, t.kind ≠ .endOfFile
  emptyEnds : ∀ t ∈ ts, t.kind = .newline → t.text = ""
  closed : ∀ t ∈ ts.getLast?, t.kind = .newline

theorem Tokens.Leaves.suffix (h : Leaves ts rest) : rest <:+ ts := by
  induction h with
  | all => exact List.suffix_rfl
  | step _ _ ih => exact ih.trans (List.suffix_cons _ _)

namespace WholeLines

theorem of_suffix (h : WholeLines ts) (hs : rest <:+ ts) : WholeLines rest where
  noEnd t ht := h.noEnd t (hs.mem ht)
  emptyEnds t ht := h.emptyEnds t (hs.mem ht)
  closed t ht := by
    obtain ⟨front, rfl⟩ := hs
    refine h.closed t ?_
    rw [List.getLast?_append, Option.mem_def.1 ht]
    rfl

theorem holdsLine (h : WholeLines (t :: ts)) : HoldsLine (t :: ts) := by
  induction ts generalizing t with
  | nil =>
    have hk : t.kind = .newline := h.closed t rfl
    exact .here hk (h.emptyEnds t List.mem_cons_self hk)
  | cons u us ih =>
    by_cases hk : t.kind = .newline
    · exact .here hk (h.emptyEnds t List.mem_cons_self hk)
    · exact .behind hk (ih (h.of_suffix (List.suffix_cons t (u :: us))))

end WholeLines

/-- Whole lines are read alike whatever stands behind them, and that is read after them. -/
theorem Draft.read_append (h : WholeLines ts) (d : Draft) (more : List Token) :
    d.read (ts ++ more) =
      { value := ((d.read ts).value.read more).value
        rest := ((d.read ts).value.read more).rest
        faults := (d.read ts).faults ++ ((d.read ts).value.read more).faults } := by
  fun_induction Draft.read d ts with
  | case1 d => rfl
  | case2 d t ts he => exact absurd he (h.noEnd t List.mem_cons_self)
  | case3 d t ts he s r ih =>
    have hrest : s.rest <:+ t :: ts :=
      (Statement.read_leaves _ _ t ts).suffix.trans (List.suffix_cons t ts)
    have hs := Statement.read_append h.holdsLine (d.script.name != "") d.script.base.isSome more
    rw [List.cons_append, Draft.read, if_neg he]
    simp only [hs, Reading.before]
    rw [ih (h.of_suffix hrest)]
    simp only [List.append_assoc]
    rfl

/-! ### Declarations -/

def VariableDecl.untagged (v : VariableDecl) : VariableDecl := { v with tags := [] }

def FunctionDecl.untagged (f : FunctionDecl) : FunctionDecl := { f with tags := [] }

namespace ScriptClass

def untagged (c : ScriptClass) : ScriptClass :=
  { c with
    tags := []
    vars := c.vars.map VariableDecl.untagged
    functions := c.functions.map FunctionDecl.untagged }

/-- The class with the declarations of another behind its own. -/
def followedBy (c x : ScriptClass) : ScriptClass :=
  { c with
    vars := c.vars ++ x.vars
    functions := c.functions ++ x.functions
    signals := c.signals ++ x.signals }

theorem followedBy_assoc (c x y : ScriptClass) :
    (c.followedBy x).followedBy y = c.followedBy (x.followedBy y) := by
  simp only [followedBy, List.append_assoc]

theorem followedBy_empty (c : ScriptClass) : c.followedBy {} = c := by
  simp only [followedBy, List.append_nil]

end ScriptClass

/-- The two words that open the head of the class. -/
def Token.isHead (t : Token) : Bool :=
  t.kind == .keyword .className || t.kind == .keyword .extending

namespace Statement

/-- Whether a statement gives the class its name or its base. -/
def isHead : Statement → Bool
  | header .. => true
  | base _ => true
  | _ => false

/-- What a statement declares by itself. -/
def declared (s : Statement) : ScriptClass := (Draft.record { script := {} } s).script.untagged

theorem isHead_readWord (t : Token) (ts : List Token) : (readWord t ts).value.isHead = false := by
  unfold readWord
  split_ifs <;> rfl

theorem isHead_readStatic (t : Token) (ts : List Token) :
    (readStatic t ts).value.isHead = false := by
  unfold readStatic
  cases ts with
  | nil => rfl
  | cons u us =>
    dsimp only
    split_ifs <;> rfl

/-- Only the head of the class depends on what the class has already. -/
theorem read_of_not_isHead (ht : t.isHead = false) (hasName hasBase : Bool) (ts : List Token) :
    read hasName hasBase t ts = read false false t ts ∧
      (read false false t ts).value.isHead = false := by
  simp only [Token.isHead, Bool.or_eq_false_iff, beq_eq_false_iff_ne] at ht
  unfold read
  cases hk : t.kind with
  | identifier => exact ⟨rfl, isHead_readWord t ts⟩
  | keyword k =>
    cases k with
    | className => exact absurd hk ht.1
    | extending => exact absurd hk ht.2
    | static => exact ⟨rfl, isHead_readStatic t ts⟩
    | trueLiteral | falseLiteral | nullLiteral =>
      refine ⟨rfl, ?_⟩
      dsimp only
      split_ifs <;> rfl
    | _ => exact ⟨rfl, rfl⟩
  | newline | indent | tag => exact ⟨rfl, rfl⟩
  | _ =>
    refine ⟨rfl, ?_⟩
    dsimp only
    split_ifs <;> rfl

end Statement

namespace Draft

theorem untagged_record {s : Statement} (hs : s.isHead = false) (d : Draft) :
    (d.record s).script.untagged = d.script.untagged.followedBy s.declared := by
  cases s with
  | blank | other => exact (ScriptClass.followedBy_empty _).symm
  | header | base => cases hs
  | tag t =>
    simp only [Statement.declared, record]
    split_ifs <;> simp [ScriptClass.untagged, ScriptClass.followedBy]
  | var v =>
    simp only [Statement.declared, record]
    split_ifs <;> simp [ScriptClass.untagged, ScriptClass.followedBy, VariableDecl.untagged]
  | func f =>
    simp only [Statement.declared, record]
    split_ifs <;> simp [ScriptClass.untagged, ScriptClass.followedBy, FunctionDecl.untagged]
  | signal s =>
    simp only [Statement.declared, record]
    split_ifs <;> simp [ScriptClass.untagged, ScriptClass.followedBy]

/-- Tokens without a head of the class declare the same, with the same faults, whatever was
read before them. -/
theorem exists_read_eq_followedBy (h : ∀ t ∈ ts, t.isHead = false) :
    ∃ x faults, ∀ d : Draft,
      (d.read ts).value.script.untagged = d.script.untagged.followedBy x ∧
        (d.read ts).faults = faults := by
  induction hn : ts.length using Nat.strongRecOn generalizing ts with
  | ind n ih =>
    cases ts with
    | nil => exact ⟨{}, [], fun d => by simp [read, ScriptClass.followedBy_empty]⟩
    | cons t ts =>
      by_cases he : t.kind = .endOfFile
      · exact ⟨{}, [], fun d => by simp [read, he, ScriptClass.followedBy_empty]⟩
      · have ht := Statement.read_of_not_isHead (h t List.mem_cons_self)
        obtain ⟨s, hs⟩ : ∃ s, s = Statement.read false false t ts := ⟨_, rfl⟩
        have hleaves : Leaves ts s.rest := hs ▸ Statement.read_leaves false false t ts
        obtain ⟨x, faults, hx⟩ := ih s.rest.length
          (hn ▸ Nat.lt_succ_of_le hleaves.length_le)
          (fun u hu => h u (List.mem_cons_of_mem t (hleaves.suffix.mem hu))) rfl
        refine ⟨s.value.declared.followedBy x, s.faults ++ faults, fun d => ?_⟩
        have hread : Statement.read (d.script.name != "") d.script.base.isSome t ts = s :=
          hs ▸ (ht _ _ ts).1
        have hhead : s.value.isHead = false := hs ▸ (ht false false ts).2
        rw [read, if_neg he]
        simp only [hread, hx, untagged_record hhead, ScriptClass.followedBy_assoc, and_self]

theorem finish_untagged (d : Draft) : d.finish.untagged = d.script.untagged := rfl

theorem read_endOfFile (d : Draft) (he : t.kind = .endOfFile) :
    d.read [t] = { value := d, rest := [t] } := by rw [read, if_pos he]

end Draft

namespace ScriptClass

/-- What stands behind whole lines neither changes what is read in them nor is changed by it:
it adds its declarations, which differ in their tags at most, and its faults. -/
theorem ofTokens_append (path : String) (lines more : List Token) (hlines : WholeLines lines)
    (hmore : ∀ t ∈ more, t.isHead = false) (stop : Token) (hstop : stop.kind = .endOfFile) :
    let whole := ofTokens path (lines ++ more)
    let front := ofTokens path (lines ++ [stop])
    let back := ofTokens path more
    whole.1.name = front.1.name ∧ whole.1.base = front.1.base ∧
      whole.1.vars.map VariableDecl.untagged =
        (front.1.vars ++ back.1.vars).map VariableDecl.untagged ∧
      whole.1.functions.map FunctionDecl.untagged =
        (front.1.functions ++ back.1.functions).map FunctionDecl.untagged ∧
      whole.1.signals = front.1.signals ++ back.1.signals ∧
      whole.2 = front.2 ++ back.2 := by
  intro whole front back
  obtain ⟨x, faults, hx⟩ := Draft.exists_read_eq_followedBy hmore
  have hwhole : whole.1.untagged =
      (Draft.read { script := { path } } lines).value.script.untagged.followedBy x := by
    simp only [whole, ofTokens, Draft.finish_untagged, Draft.read_append hlines, hx]
  have hfront : front.1.untagged =
      (Draft.read { script := { path } } lines).value.script.untagged := by
    simp only [front, ofTokens, Draft.finish_untagged, Draft.read_append hlines,
      Draft.read_endOfFile _ hstop]
  have hback : back.1.untagged = followedBy { path } x := by
    simp only [back, ofTokens, Draft.finish_untagged, hx]
    rfl
  have hclass : whole.1.untagged = front.1.untagged.followedBy back.1.untagged := by
    rw [hwhole, hfront, hback]
    rfl
  have hfaults : whole.2 = front.2 ++ back.2 := by
    simp only [whole, front, back, ofTokens, Draft.read_append hlines, hx,
      Draft.read_endOfFile _ hstop, List.append_nil]
  have hname : whole.1.untagged.name = front.1.untagged.name := by
    rw [hclass]
    rfl
  have hbase : whole.1.untagged.base = front.1.untagged.base := by
    rw [hclass]
    rfl
  refine ⟨hname, hbase, ?_, ?_, congrArg signals hclass, hfaults⟩
  · rw [List.map_append]
    exact congrArg vars hclass
  · rw [List.map_append]
    exact congrArg functions hclass

/-- Brackets that are open at the line end are three faults of their line, and the signal
behind it is declared. -/
theorem ofTokens_append_openBrackets :
    let lines : List Token :=
      [{ kind := .keyword .func, text := "func" }, { kind := .identifier, text := "f" },
        { kind := .opening .paren, text := "(" }, { kind := .identifier, text := "p" },
        { kind := .colon, text := ":" }, { kind := .identifier, text := "Array" },
        { kind := .opening .square, text := "[" }, { kind := .newline }]
    let more : List Token :=
      [{ kind := .keyword .signal, text := "signal" }, { kind := .identifier, text := "hit" },
        { kind := .newline }, Token.endOfFile]
    WholeLines lines ∧ (∀ t ∈ more, t.isHead = false) ∧ Token.endOfFile.kind = .endOfFile ∧
      (ofTokens "" (lines ++ more)).1.signals.map SignalDecl.name = ["hit"] ∧
      (ofTokens "" (lines ++ more)).2.map LocatedFault.fault =
        [.unclosedElementType, .missingParameterType, .unclosedParameterList] := by
  intro lines more
  have hlines : WholeLines lines := ⟨by decide, by decide, by decide⟩
  have hmore : ∀ t ∈ more, t.isHead = false := by decide
  obtain ⟨-, -, -, -, hsignals, hfaults⟩ :=
    ofTokens_append "" lines more hlines hmore Token.endOfFile rfl
  refine ⟨hlines, hmore, rfl, ?_, ?_⟩
  · rw [hsignals]
    cbv
  · rw [hfaults]
    cbv

end ScriptClass

end ScriptBridge
