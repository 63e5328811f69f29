import ScriptBridge.Proofs.Bridge.Overloads

/-! Texts and warnings of members. A member that is written has the text of its sort, under its
name and with a literal of the name to address the script by; a declaration that is skipped has one
warning, which names it and the bridge and says why. Proved: after any sequence of passes each
declaration is ignored, written or warned about; it is written if its name is free and no
declaration before it was written under the name; and the names written are distinct and neither
reserved nor that of the bridge. -/

namespace ScriptBridge

/-! ### Texts -/

/-- The type of a handler of a signal. -/
def IsHandler (scope : TypeScope) (s : SignalDecl) (handler : String) : Prop :=
  s.parameters = [] ∧ handler = "Action" ∨
    s.parameters ≠ [] ∧ handler = "Action<" ++
      ", ".intercalate (s.parameters.map fun p => HostType.ofText scope p.typeName) ++ ">"

/-- A value of the script as a property returns it; only a `Variant` stays what it is. -/
def hostedValue (host value : String) : String :=
  if host = "Variant" then value else value ++ ".As<" ++ host ++ ">()"

/-- The text of a member. A function has at least one method. -/
inductive IsMemberText (scope : TypeScope) : MemberDecl → List Fragment → Prop where
  | property {v : VariableDecl} {host key : String}
      (hhost : host = HostType.ofText scope v.typeName) (hkey : Literal.value? key = some v.name) :
      IsMemberText scope (.property v)
        [.blank 1,
          .openBlock ("public " ++ host ++ " " ++ identifier v.name),
          .line ("get => " ++ hostedValue host ("Wrapped.Get(" ++ key ++ ")") ++ ";"),
          .line ("set => Wrapped.Set(" ++ key ++ ", " ++
            ForwardingMethod.passed (host, "value") ++ ");"),
          .closeBlock ""]
  | method {f : FunctionDecl} {ms : List ForwardingMethod} (h : AreOverloads scope f ms)
      (hne : ms ≠ []) :
      IsMemberText scope (.method f) (ms.flatMap fun m => [.blank 1, .line m.text])
  | signal {s : SignalDecl} {handler key : String} (hhandler : IsHandler scope s handler)
      (hkey : Literal.value? key = some s.name) :
      IsMemberText scope (.signal s)
        [.blank 1,
          .openBlock ("public event " ++ handler ++ " " ++ identifier s.name),
          .line ("add => Wrapped.Connect(" ++ key ++ ", Callable.From(value));"),
          .line ("remove => Wrapped.Disconnect(" ++ key ++ ", Callable.From(value));"),
          .closeBlock ""]

/-- The text of a declaration. Only a member that is written has one. -/
def HasText (scope : TypeScope) (d : MemberDecl) (fate : Fate) (text : List Fragment) : Prop :=
  fate = .written ∧ IsMemberText scope d text ∨ fate ≠ .written ∧ text = []

theorem isHandler_handler (scope : TypeScope) (s : SignalDecl) :
    IsHandler scope s (s.handler scope) := by
  rw [SignalDecl.handler]
  split_ifs with h
  · exact .inl ⟨List.isEmpty_iff.1 h, rfl⟩
  · exact .inr ⟨mt List.isEmpty_iff.2 h, rfl⟩

theorem isMemberText_code (scope : TypeScope) (d : MemberDecl) :
    IsMemberText scope d (d.code scope) := by
  cases d with
  | property v =>
    have htext := IsMemberText.property (v := v) (rfl : HostType.ofText scope v.typeName = _)
      (Literal.value?_quoted v.name)
    by_cases h : HostType.ofText scope v.typeName = "Variant" <;>
      simpa [MemberDecl.code, VariableDecl.code, hostedValue, ForwardingMethod.passed, ofVariant,
        toVariant, HostType.any, h] using htext
  | method f =>
    rw [MemberDecl.code, FunctionDecl.code_eq]
    exact .method (FunctionDecl.areOverloads_overloads scope f) (by simp [FunctionDecl.overloads])
  | signal s => exact .signal (isHandler_handler scope s) (Literal.value?_quoted s.name)

theorem Fate.hasText_code (scope : TypeScope) (d : MemberDecl) (fate : Fate) :
    HasText scope d fate (fate.code scope d) := by
  cases fate with
  | written => exact .inl ⟨rfl, isMemberText_code scope d⟩
  | ignored | skipped => exact .inr ⟨by simp, rfl⟩

/-! ### Warnings -/

/-- What a warning says of a reason. -/
inductive IsExplanation : SkipReason → String → Prop where
  | bridgeName : IsExplanation .bridgeName "it matches the bridge type name"
  | reserved : IsExplanation .reserved "the name is reserved by the generated bridge"
  | taken : IsExplanation .taken "another member already uses the name"

/-- The warnings about a declaration. Only one that is skipped has any, and it has one. -/
inductive HasWarnings (typeName : String) (d : MemberDecl) : Fate → List Diagnostic → Prop where
  | ignored : HasWarnings typeName d .ignored []
  | written : HasWarnings typeName d .written []
  | skipped {reason : SkipReason} {why : String} (h : IsExplanation reason why) :
      HasWarnings typeName d (.skipped reason)
        [{ code := "GDB-W4001"
           message :=
             "Member '" ++ d.name ++ "' of '" ++ typeName ++ "' is not forwarded: " ++ why ++ "."
           subject := typeName
           isWarning := true }]

namespace Fate

/-- The warnings about a declaration. -/
def warnings (typeName : String) (d : MemberDecl) : Fate → List Diagnostic
  | skipped reason => [Skipped.diagnostic typeName typeName ⟨d.name, reason⟩]
  | _ => []

theorem map_skips (typeName : String) (d : MemberDecl) (fate : Fate) :
    (fate.skips d).map (Skipped.diagnostic typeName typeName) = fate.warnings typeName d := by
  cases fate <;> rfl

theorem hasWarnings (typeName : String) (d : MemberDecl) (fate : Fate) :
    HasWarnings typeName d fate (fate.warnings typeName d) := by
  cases fate with
  | ignored => exact .ignored
  | written => exact .written
  | skipped reason =>
    cases reason with
    | bridgeName => exact .skipped .bridgeName
    | reserved => exact .skipped .reserved
    | taken => exact .skipped .taken

end Fate

/-! ### Any passes -/

/-- After any passes over a bridge, each declaration is ignored, written or warned about, and
has the text and the warning that belong to that. The names that are written are distinct, as are
their identifiers. -/
theorem Pass.runAll_members (scope : TypeScope) (typeName : String) (passes : List Pass) :
    let f := Pass.runAll scope { typeName } passes
    ∃ outcomes : List (MemberDecl × Fate),
      outcomes.map Prod.fst = passes.flatMap Pass.declarations ∧
      f.code = outcomes.flatMap (fun x => x.2.code scope x.1) ∧
      f.skipped.map (Skipped.diagnostic typeName typeName) =
        outcomes.flatMap (fun x => x.2.warnings typeName x.1) ∧
      (∀ x ∈ outcomes, HasText scope x.1 x.2 (x.2.code scope x.1) ∧
        HasWarnings typeName x.1 x.2 (x.2.warnings typeName x.1)) ∧
      (∀ earlier d fate later, outcomes = earlier ++ (d, fate) :: later →
        (fate = .ignored ↔ d.isStatic = true ∨ d.name = "") ∧
        (fate = .written ↔ ¬(d.isStatic = true ∨ d.name = "") ∧ d.name ∉ Roster.reserved ∧
          d.name ≠ typeName ∧ ∀ x ∈ earlier, x.2 = .written → x.1.name ≠ d.name) ∧
        ∀ reason, fate = .skipped reason →
          reason = if d.name = typeName then .bridgeName
            else if d.name ∈ Roster.reserved then .reserved else .taken) ∧
      (Roster.writtenNames outcomes).Nodup ∧
      (∀ name ∈ Roster.writtenNames outcomes, name ∉ Roster.reserved ∧ name ≠ typeName) ∧
      ((∀ name ∈ Roster.writtenNames outcomes, name.toList.head? ≠ some '@') →
        ((Roster.writtenNames outcomes).map identifier).Nodup) := by
  intro f
  let r : Roster := { typeName }
  let ds := passes.flatMap Pass.declarations
  have hf : f = r.forwardAll scope ds := Roster.runAll_eq r passes
  have hnames (es : List MemberDecl) :
      (r.afterAll es).claimed.map Claimed.name = Roster.writtenNames (r.outcomes es) :=
    Roster.names_afterAll r es
  have hnodup : (Roster.writtenNames (r.outcomes ds)).Nodup :=
    Roster.nodup_writtenNames typeName ds
  refine ⟨r.outcomes ds, Roster.map_fst_outcomes r ds, congrArg Forwarded.code hf, ?_,
    fun x _ => ⟨x.2.hasText_code scope x.1, x.2.hasWarnings typeName x.1⟩, ?_, hnodup, ?_,
    fun hat => ?_⟩
  · rw [hf, Roster.forwardAll, List.map_flatMap]
    simp only [Fate.map_skips]
  · intro earlier d fate later h
    obtain ⟨hearlier, rfl⟩ := Roster.fate_of_outcomes h
    set r' := r.afterAll (earlier.map Prod.fst)
    have htype : r'.typeName = typeName := Roster.typeName_afterAll
    have hclaimed : d.name ∉ r'.claimed.map Claimed.name ↔
        ∀ x ∈ earlier, x.2 = .written → x.1.name ≠ d.name := by
      rw [hnames, ← hearlier, Roster.mem_writtenNames]
      simp only [not_exists, not_and]
    refine ⟨Roster.fate_eq_ignored_iff, ?_, fun reason hreason => ?_⟩
    · rw [Roster.fate_eq_written_iff, htype, hclaimed]
    · rw [Roster.reason_of_fate hreason, htype]
  · intro name hname
    rw [← hnames ds] at hname
    obtain ⟨c, hc, rfl⟩ := List.mem_map.1 hname
    have hfree := ((Roster.Sound.start typeName).afterAll ds).free c hc
    rwa [Roster.typeName_afterAll] at hfree
  · exact hnodup.map_on fun name hname name' hname' =>
      identifier_inj (hat name hname) (hat name' hname')

end ScriptBridge
