import Mathlib.Data.List.Nodup
import ScriptBridge.Bridge.Members

/-! Names of members. The passes over variables, functions and signals share one roster, so a
sequence of passes is one run over all declarations in their order. Each declaration has a fate,
which those before it settle, and the claimed names are those of the members that are written:
they are distinct, and none is reserved or that of the bridge. -/

namespace ScriptBridge

/-! ### Declarations and passes -/

/-- A declaration of any sort. -/
inductive MemberDecl where
  | property (v : VariableDecl)
  | method (f : FunctionDecl)
  | signal (s : SignalDecl)

namespace MemberDecl

def sort : MemberDecl → MemberSort
  | property _ => .property
  | method _ => .method
  | signal _ => .signal

def name : MemberDecl → String
  | property v => v.name
  | method f => f.name
  | signal s => s.name

/-- A signal is never static. -/
def isStatic : MemberDecl → Bool
  | property v => v.isStatic
  | method f => f.isStatic
  | signal _ => false

/-- The text of a member; for a function, of all its overloads. -/
def code (scope : TypeScope) : MemberDecl → List Fragment
  | property v => v.code scope
  | method f => f.code scope
  | signal s => s.code scope

/-- A declaration that is no member of an object has no name there. -/
def memberName (d : MemberDecl) : Option String :=
  if d.isStatic || d.name == "" then none else some d.name

/-- The claim that a declaration makes if it is written. -/
def claim (d : MemberDecl) : Claimed := ⟨d.sort, d.name⟩

theorem memberName_eq_none_iff {d : MemberDecl} :
    d.memberName = none ↔ d.isStatic = true ∨ d.name = "" := by
  rw [memberName]
  cases d.isStatic <;> simp

theorem memberName_eq_some_iff {d : MemberDecl} {name : String} :
    d.memberName = some name ↔ ¬(d.isStatic = true ∨ d.name = "") ∧ d.name = name := by
  simp [memberName]

end MemberDecl

/-- One call on a bridge. -/
inductive Pass where
  | properties (ds : List VariableDecl)
  | methods (ds : List FunctionDecl)
  | signals (ds : List SignalDecl)

namespace Pass

def declarations : Pass → List MemberDecl
  | properties ds => ds.map .property
  | methods ds => ds.map .method
  | signals ds => ds.map .signal

def run (scope : TypeScope) (r : Roster) : Pass → Forwarded
  | properties ds => forwardVariables scope r ds
  | methods ds => forwardFunctions scope r ds
  | signals ds => forwardSignals scope r ds

/-- Calls on the same bridge, one after another. -/
def runAll (scope : TypeScope) : Roster → List Pass → Forwarded
  | r, [] => { roster := r }
  | r, p :: ps =>
    let first := p.run scope r
    let rest := runAll scope first.roster ps
    { roster := rest.roster
      code := first.code ++ rest.code
      skipped := first.skipped ++ rest.skipped }

end Pass

/-! ### What becomes of a declaration -/

inductive Fate where
  | ignored | written
  | skipped (reason : SkipReason)
  deriving DecidableEq

namespace Fate

def code (scope : TypeScope) (d : MemberDecl) : Fate → List Fragment
  | written => d.code scope
  | _ => []

def skips (d : MemberDecl) : Fate → List Skipped
  | skipped reason => [⟨d.name, reason⟩]
  | _ => []

end Fate

namespace Roster

/-- What becomes of the next declaration. -/
def fate (r : Roster) (d : MemberDecl) : Fate :=
  match d.memberName with
  | none => .ignored
  | some name => (r.obstacle name).elim .written .skipped

/-- The roster behind the next declaration. -/
def after (r : Roster) (d : MemberDecl) : Roster :=
  if r.fate d = .written then { r with claimed := r.claimed ++ [⟨d.sort, d.name⟩] } else r

def afterAll (r : Roster) (ds : List MemberDecl) : Roster := ds.foldl after r

/-- Each declaration with what becomes of it. -/
def outcomes : Roster → List MemberDecl → List (MemberDecl × Fate)
  | _, [] => []
  | r, d :: ds => (d, r.fate d) :: outcomes (r.after d) ds

/-- A run over declarations of any sorts. -/
def forwardAll (scope : TypeScope) (r : Roster) (ds : List MemberDecl) : Forwarded :=
  { roster := r.afterAll ds
    code := (r.outcomes ds).flatMap fun x => x.2.code scope x.1
    skipped := (r.outcomes ds).flatMap fun x => x.2.skips x.1 }

variable {scope : TypeScope} {r : Roster} {d : MemberDecl} {ds : List MemberDecl}

@[simp] theorem afterAll_nil : r.afterAll [] = r := rfl

@[simp] theorem afterAll_cons : r.afterAll (d :: ds) = (r.after d).afterAll ds := rfl

theorem outcomes_append (r : Roster) (ds es : List MemberDecl) :
    r.outcomes (ds ++ es) = r.outcomes ds ++ (r.afterAll ds).outcomes es := by
  induction ds generalizing r with
  | nil => rfl
  | cons d ds ih => rw [List.cons_append, outcomes, outcomes, afterAll_cons, ih, List.cons_append]

@[simp] theorem map_fst_outcomes (r : Roster) (ds : List MemberDecl) :
    (r.outcomes ds).map Prod.fst = ds := by
  induction ds generalizing r with
  | nil => rfl
  | cons d ds ih => rw [outcomes, List.map_cons, ih]

theorem fate_of_none (h : d.memberName = none) : r.fate d = .ignored := by rw [fate, h]

theorem fate_of_some {name : String} (h : d.memberName = some name) :
    r.fate d = (r.obstacle name).elim .written .skipped := by rw [fate, h]

theorem after_of_ne (h : r.fate d ≠ .written) : r.after d = r := by rw [after, if_neg h]

theorem after_of_eq (h : r.fate d = .written) :
    r.after d = { r with claimed := r.claimed ++ [⟨d.sort, d.name⟩] } := by rw [after, if_pos h]

/-! ### Passes as runs over declarations -/

theorem forwardAll_cons (scope : TypeScope) (r : Roster) (d : MemberDecl) (ds : List MemberDecl) :
    r.forwardAll scope (d :: ds) =
      let rest := (r.after d).forwardAll scope ds
      { rest with
        code := (r.fate d).code scope d ++ rest.code
        skipped := (r.fate d).skips d ++ rest.skipped } := rfl

/-- A pass over declarations of one sort is a run over them as members. -/
theorem forward_eq {α : Type} {sort : MemberSort} {nameOf : α → Option String}
    {write : α → List Fragment} (toMember : α → MemberDecl)
    (hsort : ∀ a, (toMember a).sort = sort) (hname : ∀ a, (toMember a).memberName = nameOf a)
    (hcode : ∀ a, (toMember a).code scope = write a) (r : Roster) (as : List α) :
    forward sort nameOf write r as = r.forwardAll scope (as.map toMember) := by
  induction as generalizing r with
  | nil => rfl
  | cons a as ih =>
    rw [List.map_cons, forwardAll_cons, ← ih, forward]
    cases hn : nameOf a with
    | none =>
      have hfate : r.fate (toMember a) = .ignored := fate_of_none ((hname a).trans hn)
      rw [after_of_ne (by simp [hfate]), hfate]
      rfl
    | some name =>
      have hfate := fate_of_some (r := r) ((hname a).trans hn)
      obtain ⟨-, rfl⟩ := MemberDecl.memberName_eq_some_iff.1 ((hname a).trans hn)
      cases ho : r.obstacle (toMember a).name with
      | some reason =>
        rw [ho, Option.elim_some] at hfate
        rw [after_of_ne (by simp [hfate]), hfate]
        simp only [ho, Fate.code, Fate.skips, List.nil_append, List.singleton_append]
      | none =>
        rw [ho, Option.elim_none] at hfate
        rw [after_of_eq hfate, hfate, hsort]
        simp only [ho, Fate.code, Fate.skips, hcode, List.nil_append]

theorem run_eq (r : Roster) (p : Pass) : p.run scope r = r.forwardAll scope p.declarations := by
  cases p with
  | properties ds =>
    change forward .property VariableDecl.memberName (VariableDecl.code scope) r ds = _
    exact forward_eq .property (fun _ => rfl) (fun _ => rfl) (fun _ => rfl) r ds
  | methods ds =>
    change forward .method FunctionDecl.memberName (FunctionDecl.code scope) r ds = _
    exact forward_eq .method (fun _ => rfl) (fun _ => rfl) (fun _ => rfl) r ds
  | signals ds =>
    change forward .signal SignalDecl.memberName (SignalDecl.code scope) r ds = _
    exact forward_eq .signal (fun _ => rfl) (fun _ => rfl) (fun _ => rfl) r ds

theorem forwardAll_append (scope : TypeScope) (r : Roster) (ds es : List MemberDecl) :
    r.forwardAll scope (ds ++ es) =
      let first := r.forwardAll scope ds
      let rest := first.roster.forwardAll scope es
      { roster := rest.roster
        code := first.code ++ rest.code
        skipped := first.skipped ++ rest.skipped } := by
  simp only [forwardAll, outcomes_append, List.flatMap_append, afterAll, List.foldl_append]

/-- Passes one after another are one run over their declarations. -/
theorem runAll_eq (r : Roster) (ps : List Pass) :
    Pass.runAll scope r ps = r.forwardAll scope (ps.flatMap Pass.declarations) := by
  induction ps generalizing r with
  | nil => rfl
  | cons p ps ih => rw [List.flatMap_cons, forwardAll_append, Pass.runAll, run_eq, ih]

/-! ### Claimed names -/

theorem obstacle_eq_none_iff {name : String} :
    r.obstacle name = none ↔
      name ∉ reserved ∧ name ≠ r.typeName ∧ name ∉ r.claimed.map Claimed.name := by
  have hclaimed : (r.claimed.any (·.name == name)) = true ↔ name ∈ r.claimed.map Claimed.name := by
    simp
  unfold obstacle
  split_ifs <;> simp_all

theorem fate_eq_ignored_iff : r.fate d = .ignored ↔ d.isStatic = true ∨ d.name = "" := by
  rw [← MemberDecl.memberName_eq_none_iff]
  cases h : d.memberName with
  | none => simp only [fate_of_none h]
  | some name =>
    rw [fate_of_some h]
    cases r.obstacle name <;> simp

theorem fate_eq_written_iff :
    r.fate d = .written ↔ ¬(d.isStatic = true ∨ d.name = "") ∧ d.name ∉ reserved ∧
      d.name ≠ r.typeName ∧ d.name ∉ r.claimed.map Claimed.name := by
  rw [← obstacle_eq_none_iff]
  cases h : d.memberName with
  | none => simp [fate_of_none h, MemberDecl.memberName_eq_none_iff.1 h]
  | some name =>
    obtain ⟨hmember, rfl⟩ := MemberDecl.memberName_eq_some_iff.1 h
    rw [fate_of_some h]
    cases r.obstacle d.name <;> simp [hmember]

/-- The reason that is given for a skipped declaration. -/
theorem reason_of_fate {reason : SkipReason} (h : r.fate d = .skipped reason) :
    reason = if d.name = r.typeName then .bridgeName
      else if d.name ∈ reserved then .reserved else .taken := by
  cases hn : d.memberName with
  | none => simp [fate_of_none hn] at h
  | some name =>
    obtain ⟨-, rfl⟩ := MemberDecl.memberName_eq_some_iff.1 hn
    rw [fate_of_some hn, obstacle] at h
    split_ifs at h <;> simp_all

@[simp] theorem typeName_after : (r.after d).typeName = r.typeName := by
  rw [after]
  split <;> rfl

@[simp] theorem typeName_afterAll : (r.afterAll ds).typeName = r.typeName := by
  induction ds generalizing r with
  | nil => rfl
  | cons d ds ih => rw [afterAll_cons, ih, typeName_after]

/-- The names that a run writes, in order. -/
def writtenNames (outcomes : List (MemberDecl × Fate)) : List String :=
  (outcomes.filter fun x => x.2 == .written).map fun x => x.1.name

/-- The claims of the members that a run writes, in order. -/
def writtenClaims (outcomes : List (MemberDecl × Fate)) : List Claimed :=
  (outcomes.filter fun x => x.2 == .written).map fun x => x.1.claim

theorem map_name_writtenClaims (outcomes : List (MemberDecl × Fate)) :
    (writtenClaims outcomes).map Claimed.name = writtenNames outcomes := by
  rw [writtenClaims, List.map_map]
  rfl

/-- A claim is made where a member is written. -/
theorem claimed_after (r : Roster) (d : MemberDecl) :
    (r.after d).claimed = r.claimed ++ writtenClaims [(d, r.fate d)] := by
  by_cases h : r.fate d = .written
  · simp [after_of_eq h, writtenClaims, MemberDecl.claim, h]
  · simp [after_of_ne h, writtenClaims, h]

theorem claimed_afterAll (r : Roster) (ds : List MemberDecl) :
    (r.afterAll ds).claimed = r.claimed ++ writtenClaims (r.outcomes ds) := by
  induction ds generalizing r with
  | nil => simp [outcomes, writtenClaims]
  | cons d ds ih =>
    have hcons : writtenClaims (r.outcomes (d :: ds)) =
        writtenClaims [(d, r.fate d)] ++ writtenClaims ((r.after d).outcomes ds) := by
      rw [writtenClaims, outcomes, ← List.singleton_append, List.filter_append, List.map_append]
      rfl
    rw [afterAll_cons, ih, claimed_after, hcons, List.append_assoc]

theorem names_afterAll (r : Roster) (ds : List MemberDecl) :
    (r.afterAll ds).claimed.map Claimed.name =
      r.claimed.map Claimed.name ++ writtenNames (r.outcomes ds) := by
  rw [claimed_afterAll, List.map_append, map_name_writtenClaims]

/-- The claimed names are distinct, and none was taken from the start. -/
structure Sound (r : Roster) : Prop where
  nodup : (r.claimed.map Claimed.name).Nodup
  free : ∀ c ∈ r.claimed, c.name ∉ reserved ∧ c.name ≠ r.typeName

theorem Sound.after (h : r.Sound) (d : MemberDecl) : (r.after d).Sound := by
  by_cases hd : r.fate d = .written
  · obtain ⟨-, hreserved, htype, hclaimed⟩ := fate_eq_written_iff.1 hd
    rw [after_of_eq hd]
    constructor
    · rw [List.map_append, List.map_singleton, ← List.concat_eq_append]
      exact h.nodup.concat hclaimed
    · intro c hc
      rcases List.mem_append.1 hc with hc | hc
      · exact h.free c hc
      · obtain rfl := List.mem_singleton.1 hc
        exact ⟨hreserved, htype⟩
  · rwa [after_of_ne hd]

theorem Sound.afterAll (h : r.Sound) (ds : List MemberDecl) : (r.afterAll ds).Sound := by
  induction ds generalizing r with
  | nil => exact h
  | cons d ds ih => exact ih (h.after d)

theorem Sound.start (typeName : String) : Sound { typeName } := ⟨.nil, fun c hc => by cases hc⟩

/-- A run writes no two members under one name. -/
theorem nodup_writtenNames (typeName : String) (ds : List MemberDecl) :
    (writtenNames (Roster.outcomes { typeName } ds)).Nodup := by
  have hnames := names_afterAll { typeName } ds
  rw [List.map_nil, List.nil_append] at hnames
  exact hnames ▸ ((Sound.start typeName).afterAll ds).nodup

/-- What becomes of a declaration is settled by those before it. -/
theorem fate_of_outcomes {earlier later : List (MemberDecl × Fate)} {fate : Fate}
    (h : r.outcomes ds = earlier ++ (d, fate) :: later) :
    earlier = r.outcomes (earlier.map Prod.fst) ∧
      fate = (r.afterAll (earlier.map Prod.fst)).fate d := by
  have hds : ds = earlier.map Prod.fst ++ d :: later.map Prod.fst := by
    rw [← map_fst_outcomes r ds, h, List.map_append, List.map_cons]
  rw [hds, outcomes_append, outcomes] at h
  have hlength : (r.outcomes (earlier.map Prod.fst)).length = earlier.length := by
    rw [← List.length_map Prod.fst, map_fst_outcomes, List.length_map]
  obtain ⟨hearlier, hlater⟩ := List.append_inj h hlength
  obtain ⟨hd, -⟩ := List.cons.inj hlater
  exact ⟨hearlier.symm, (congrArg Prod.snd hd).symm⟩

theorem mem_writtenNames {outcomes : List (MemberDecl × Fate)} {name : String} :
    name ∈ writtenNames outcomes ↔ ∃ x ∈ outcomes, x.2 = .written ∧ x.1.name = name := by
  simp [writtenNames, and_assoc]

end Roster

/-! ### Identifiers -/

/-- Only an at sign makes the identifiers of two names equal. -/
theorem identifier_inj {name name' : String} (h : name.toList.head? ≠ some '@')
    (h' : name'.toList.head? ≠ some '@') (heq : identifier name = identifier name') :
    name = name' := by
  unfold identifier at heq
  split_ifs at heq
  · exact (String.append_right_inj "@").1 heq
  · exact absurd (by rw [← heq]; simp [String.toList_append]) h'
  · exact absurd (by rw [heq]; simp [String.toList_append]) h
  · exact heq

end ScriptBridge
