import ScriptBridge.Proofs.Bridge.MemberTexts

/-! Name containers. Passes and containers may be written in any order on one bridge. A
container lists what stands claimed when it is written, and a claim is made exactly where a
member is written. Proved: each container holds the public members of its sort that were
written before it, in order and once each, and no name is in the containers of two sorts. -/

namespace ScriptBridge

/-- One call on a bridge. -/
inductive BridgeCall where
  | pass (p : Pass)
  | container (sort : MemberSort) (baseName : String)

namespace BridgeCall

def declarations : BridgeCall → List MemberDecl
  | pass p => p.declarations
  | container .. => []

def run (scope : TypeScope) (r : Roster) : BridgeCall → Forwarded
  | pass p => p.run scope r
  | container sort baseName => { roster := r, code := r.containerCode sort baseName }

/-- What each of the calls on one bridge yields. -/
def runEach (scope : TypeScope) : Roster → List BridgeCall → List Forwarded
  | _, [] => []
  | r, c :: cs =>
    let first := c.run scope r
    first :: runEach scope first.roster cs

end BridgeCall

/-- A call, what became of its declarations, and the text it wrote. -/
structure BridgeStep where
  call : BridgeCall
  outcomes : List (MemberDecl × Fate)
  code : List Fragment

/-! ### Claims of written members -/

namespace Roster

variable {scope : TypeScope} {r : Roster} {sort : MemberSort}
variable {outcomes : List (MemberDecl × Fate)}

/-- The names of the members of a sort that a run writes, private ones apart. -/
def publicNames (sort : MemberSort) (outcomes : List (MemberDecl × Fate)) : List String :=
  (outcomes.filter fun x =>
    x.1.name.toList.head? != some '_' && (x.1.sort == sort && x.2 == .written)).map (·.1.name)

theorem mem_publicNames {name : String} :
    name ∈ publicNames sort outcomes ↔ ∃ d, (d, .written) ∈ outcomes ∧ d.sort = sort ∧
      d.name = name ∧ name.toList.head? ≠ some '_' := by
  simp only [publicNames, List.mem_map, List.mem_filter, Bool.and_eq_true, bne_iff_ne, beq_iff_eq]
  constructor
  · rintro ⟨⟨d, fate⟩, ⟨hx, hpublic, rfl, rfl⟩, rfl⟩
    exact ⟨d, hx, rfl, rfl, hpublic⟩
  · rintro ⟨d, hd, rfl, rfl, hpublic⟩
    exact ⟨(d, .written), ⟨hd, hpublic, rfl, rfl⟩, rfl⟩

/-- The names for a container are those of the public members that made the claims. -/
theorem listed_of_claimed (h : r.claimed = writtenClaims outcomes) (sort : MemberSort) :
    r.listed sort = publicNames sort outcomes := by
  rw [listed, h, writtenClaims, publicNames]
  simp only [List.filter_map, List.map_map, List.filter_filter]
  rfl

theorem publicNames_sublist (sort : MemberSort) (outcomes : List (MemberDecl × Fate)) :
    (publicNames sort outcomes).Sublist (writtenNames outcomes) := by
  rw [publicNames, writtenNames, ← List.filter_filter, ← List.filter_filter]
  exact (List.filter_sublist.trans List.filter_sublist).map _

/-- Members that are written under one name are of one sort. -/
theorem sort_unique (h : (writtenNames outcomes).Nodup) {name : String} {sort' : MemberSort}
    (hs : name ∈ publicNames sort outcomes) (hs' : name ∈ publicNames sort' outcomes) :
    sort = sort' := by
  obtain ⟨d, hd, rfl, hname, -⟩ := mem_publicNames.1 hs
  obtain ⟨d', hd', rfl, hname', -⟩ := mem_publicNames.1 hs'
  have hwritten {e : MemberDecl} (he : (e, .written) ∈ outcomes) :
      (e, .written) ∈ outcomes.filter fun x => x.2 == .written :=
    List.mem_filter.2 ⟨he, rfl⟩
  have heq := List.inj_on_of_nodup_map h (hwritten hd) (hwritten hd') (hname.trans hname'.symm)
  rw [(Prod.mk.inj heq).1]

theorem exists_fate_of_mem {d : MemberDecl} {fate : Fate} {ds : List MemberDecl}
    (h : (d, fate) ∈ r.outcomes ds) : ∃ es, fate = (r.afterAll es).fate d := by
  obtain ⟨earlier, later, hsplit⟩ := List.append_of_mem h
  exact ⟨_, (fate_of_outcomes hsplit).2⟩

/-- A member that is written is of an object, and its name was free from the start. -/
theorem written_of_mem {d : MemberDecl} {ds : List MemberDecl}
    (h : (d, .written) ∈ r.outcomes ds) :
    d.isStatic = false ∧ d.name ∉ reserved ∧ d.name ≠ r.typeName := by
  obtain ⟨es, hfate⟩ := exists_fate_of_mem h
  obtain ⟨hmember, hreserved, htype, -⟩ := fate_eq_written_iff.1 hfate.symm
  rw [typeName_afterAll] at htype
  exact ⟨Bool.eq_false_iff.2 fun hs => hmember (.inl hs), hreserved, htype⟩

/-- A declaration that is skipped under the name of a member came after the member. -/
theorem reason_of_mem {d e : MemberDecl} {ds : List MemberDecl} {reason : SkipReason}
    (hd : (d, .written) ∈ r.outcomes ds) (he : (e, .skipped reason) ∈ r.outcomes ds)
    (hname : e.name = d.name) : reason = .taken := by
  obtain ⟨-, hreserved, htype⟩ := written_of_mem hd
  obtain ⟨es, hfate⟩ := exists_fate_of_mem he
  rw [reason_of_fate hfate.symm, typeName_afterAll, hname, if_neg htype, if_neg hreserved]

end Roster

/-! ### Calls one after another -/

namespace BridgeCall

variable {scope : TypeScope} {r : Roster}

theorem roster_run (scope : TypeScope) (r : Roster) (c : BridgeCall) :
    (c.run scope r).roster = r.afterAll c.declarations := by
  cases c with
  | pass p => rw [run, Roster.run_eq]; rfl
  | container => rfl

theorem code_run_pass (r : Roster) (p : Pass) :
    ((pass p).run scope r).code =
      (r.outcomes p.declarations).flatMap fun x => x.2.code scope x.1 := by
  rw [run, Roster.run_eq]
  rfl

/-- The calls with what becomes of their declarations. -/
def steps (scope : TypeScope) : Roster → List BridgeCall → List BridgeStep
  | _, [] => []
  | r, c :: cs =>
    ⟨c, r.outcomes c.declarations, (c.run scope r).code⟩ ::
      steps scope (r.afterAll c.declarations) cs

theorem map_call_steps (r : Roster) (cs : List BridgeCall) :
    (steps scope r cs).map BridgeStep.call = cs := by
  induction cs generalizing r with
  | nil => rfl
  | cons c cs ih => rw [steps, List.map_cons, ih]

theorem map_code_steps (r : Roster) (cs : List BridgeCall) :
    (steps scope r cs).map BridgeStep.code = (runEach scope r cs).map Forwarded.code := by
  induction cs generalizing r with
  | nil => rfl
  | cons c cs ih => rw [steps, List.map_cons, ih, ← roster_run scope, runEach, List.map_cons]

/-- The outcomes of the calls, one behind the other, are those of one run. -/
theorem flatMap_outcomes_steps (r : Roster) (cs : List BridgeCall) :
    (steps scope r cs).flatMap BridgeStep.outcomes = r.outcomes (cs.flatMap declarations) := by
  induction cs generalizing r with
  | nil => rfl
  | cons c cs ih => rw [steps, List.flatMap_cons, List.flatMap_cons, ih, Roster.outcomes_append]

/-- A step starts from the roster that the declarations before it leave. -/
theorem step_of_steps {cs : List BridgeCall} {earlier later : List BridgeStep} {s : BridgeStep}
    (h : steps scope r cs = earlier ++ s :: later) :
    ∃ ds, earlier.flatMap BridgeStep.outcomes = r.outcomes ds ∧
      s.outcomes = (r.afterAll ds).outcomes s.call.declarations ∧
      s.code = (s.call.run scope (r.afterAll ds)).code := by
  induction earlier generalizing r cs with
  | nil =>
    cases cs with
    | nil => cases h
    | cons c cs =>
      obtain ⟨rfl, -⟩ := List.cons.inj h
      exact ⟨[], rfl, rfl, rfl⟩
  | cons s₀ earlier ih =>
    cases cs with
    | nil => cases h
    | cons c cs =>
      obtain ⟨rfl, hrest⟩ := List.cons.inj h
      obtain ⟨ds, hearlier, houtcomes, hcode⟩ := ih hrest
      refine ⟨c.declarations ++ ds, ?_, ?_, ?_⟩
      · rw [List.flatMap_cons, hearlier, Roster.outcomes_append]
      · rw [houtcomes, Roster.afterAll, Roster.afterAll, Roster.afterAll, List.foldl_append]
      · rw [hcode, Roster.afterAll, Roster.afterAll, Roster.afterAll, List.foldl_append]

end BridgeCall

/-! ### Containers -/

/-- A constant whose value is its name. -/
def IsNameConstant (name line : String) : Prop :=
  ∃ literal, line = "public const string " ++ identifier name ++ " = " ++ literal ++ ";" ∧
    Literal.value? literal = some name

theorem forall₂_isNameConstant (names : List String) :
    List.Forall₂ IsNameConstant names (names.map fun name =>
      "public const string " ++ identifier name ++ " = " ++ Literal.quoted name ++ ";") := by
  rw [List.forall₂_map_right_iff, List.forall₂_same]
  exact fun name _ => ⟨_, rfl, Literal.value?_quoted name⟩

open Roster in
/-- After any calls on a bridge, what the passes wrote is the texts of the members that are called
written. Each container holds the public ones of its sort among those of the passes before it, in
order and once each, and no name is in the containers of two sorts. -/
theorem BridgeCall.runEach_containers (scope : TypeScope) (typeName : String)
    (calls : List BridgeCall) :
    ∃ steps : List BridgeStep,
      steps.map BridgeStep.call = calls ∧
      steps.map BridgeStep.code = (runEach scope { typeName } calls).map Forwarded.code ∧
      (∀ s ∈ steps, s.outcomes.map Prod.fst = s.call.declarations ∧
        (∀ p, s.call = .pass p → s.code = s.outcomes.flatMap fun x => x.2.code scope x.1) ∧
        ∀ x ∈ s.outcomes, HasText scope x.1 x.2 (x.2.code scope x.1)) ∧
      (∀ earlier s later sort baseName, steps = earlier ++ s :: later →
        s.call = .container sort baseName →
        let names := publicNames sort (earlier.flatMap BridgeStep.outcomes)
        names.Nodup ∧ ∃ constants, List.Forall₂ IsNameConstant names constants ∧
          s.code =
            [.blank 1, .openBlock ("public new class " ++ sort.container ++ " : " ++ baseName ++
              "." ++ sort.container)] ++ constants.map .line ++ [.closeBlock ""]) ∧
      (∀ sort, ∀ name ∈ publicNames sort (steps.flatMap BridgeStep.outcomes),
        (∃ d, (d, .written) ∈ steps.flatMap BridgeStep.outcomes ∧ d.sort = sort ∧
          d.name = name ∧ d.isStatic = false ∧ name.toList.head? ≠ some '_') ∧
        (∀ d reason, (d, .skipped reason) ∈ steps.flatMap BridgeStep.outcomes →
          d.name = name → reason = .taken) ∧
        ∀ sort', name ∈ publicNames sort' (steps.flatMap BridgeStep.outcomes) → sort' = sort) := by
  let r : Roster := { typeName }
  have hclaimed (ds : List MemberDecl) : (r.afterAll ds).claimed = writtenClaims (r.outcomes ds) :=
    claimed_afterAll r ds
  have hnodup (ds : List MemberDecl) : (writtenNames (r.outcomes ds)).Nodup :=
    nodup_writtenNames typeName ds
  refine ⟨steps scope r calls, map_call_steps r calls, map_code_steps r calls, ?_, ?_, ?_⟩
  · intro s hs
    obtain ⟨earlier, later, hsplit⟩ := List.append_of_mem hs
    obtain ⟨ds, -, houtcomes, hcode⟩ := step_of_steps hsplit
    refine ⟨by rw [houtcomes, map_fst_outcomes], fun p hp => ?_,
      fun x _ => x.2.hasText_code scope x.1⟩
    rw [hcode, houtcomes, hp, code_run_pass]
    rfl
  · intro earlier s later sort baseName hsplit hcall names
    obtain ⟨ds, hearlier, -, hcode⟩ := step_of_steps hsplit
    have hnames : (r.afterAll ds).listed sort = names := by
      rw [listed_of_claimed (hclaimed ds), ← hearlier]
    refine ⟨?_, _, forall₂_isNameConstant names, ?_⟩
    · exact (publicNames_sublist sort _).nodup (hearlier ▸ hnodup ds)
    · rw [hcode, hcall, BridgeCall.run, containerCode, hnames, List.map_map]
      rfl
  · rw [flatMap_outcomes_steps]
    intro sort name hname
    obtain ⟨d, hd, hsort, rfl, hpublic⟩ := mem_publicNames.1 hname
    refine ⟨⟨d, hd, hsort, rfl, (written_of_mem hd).1, hpublic⟩, ?_, ?_⟩
    · exact fun e reason he hname => reason_of_mem hd he hname
    · exact fun sort' hname' => sort_unique (hnodup _) hname' hname

end ScriptBridge
