import ScriptBridge.Proofs.Generation.BaseReferences

/-! What becomes of each script. A script yields no class, or a class that is reported, or a
class whose name an earlier script has taken. Proved: the skipped scripts, the reported
classes and the complaints about taken names have together the paths that were given, each
as often; and a class is emitted if it is off circles and its plan asks for a bridge. -/

namespace ScriptBridge

/-! ### Complaints about taken names -/

/-- The code of a complaint about a taken name. -/
def takenNameCode : String := "GDB-W3101"

namespace LineageProblem

theorem code_eq_takenNameCode_iff {p : LineageProblem} :
    p.code = takenNameCode ↔ ∃ className firstPath, p = duplicateClass className firstPath := by
  cases p <;> simp [code, takenNameCode]

end LineageProblem

namespace Lineage

theorem code_of_mem_keepFirst {kept cs : List Candidate} {d : Diagnostic}
    (h : d ∈ (keepFirst kept cs).2) : d.code = takenNameCode := by
  induction cs generalizing kept with
  | nil => simp [keepFirst] at h
  | cons c cs ih =>
    unfold keepFirst at h
    split at h
    · rcases List.mem_cons.1 h with rfl | h
      · rfl
      · exact ih h
    · exact ih h

theorem problemOf_ne_duplicateClass {catalog : Catalog} {kept : Array Candidate}
    {edges : Array Edge} {place : Nat} {className firstPath : String} :
    problemOf catalog kept edges place ≠ some (.duplicateClass className firstPath) := by
  unfold problemOf
  repeat' split
  all_goals simp

theorem code_of_mem_walkDiagnostics {catalog : Catalog} {kept : Array Candidate}
    {edges : Array Edge} {path : List Nat} {d : Diagnostic}
    (h : d ∈ walkDiagnostics catalog kept edges path) : d.code ≠ takenNameCode := by
  rcases List.mem_append.1 h with h | h
  · obtain ⟨p, -, hd⟩ := List.mem_filterMap.1 h
    obtain ⟨c, -, rfl⟩ := Option.map_eq_some_iff.1 hd
    simp [LineageProblem.diagnostic, LineageProblem.code, takenNameCode]
  · obtain ⟨p, -, hd⟩ := List.mem_filterMap.1 h
    obtain ⟨c, -, hd⟩ := Option.bind_eq_some_iff.1 hd
    obtain ⟨problem, hproblem, rfl⟩ := Option.map_eq_some_iff.1 hd
    intro hcode
    obtain ⟨className, firstPath, rfl⟩ := LineageProblem.code_eq_takenNameCode_iff.1 hcode
    exact problemOf_ne_duplicateClass hproblem

/-- Each candidate is kept, or there is a complaint about it. -/
theorem keepFirst_perm (kept cs : List Candidate) :
    ((keepFirst kept cs).1.map (·.script.path) ++
        (keepFirst kept cs).2.map Diagnostic.subject).Perm
      ((kept ++ cs).map (·.script.path)) := by
  induction cs generalizing kept with
  | nil => simp [keepFirst]
  | cons c cs ih =>
    unfold keepFirst
    split
    · simp only [List.map_cons, List.map_append] at ih ⊢
      exact List.perm_middle.trans (((ih kept).cons _).trans List.perm_middle.symm)
    · simpa using ih (kept ++ [c])

end Lineage

namespace Lineages

theorem filter_takenNameCode (catalog : Catalog) (scripts : List ScriptClass) (plans : List Plan) :
    ((ofScripts catalog scripts plans).diagnostics.filter fun d => d.code == takenNameCode) =
      Lineage.duplicatesOf scripts plans := by
  rw [ofScripts_diagnostics, List.filter_append, List.filter_eq_self.2, List.filter_eq_nil_iff.2,
    List.append_nil]
  · intro d hd
    obtain ⟨path, -, hd⟩ := List.mem_flatMap.1 hd
    simpa using Lineage.code_of_mem_walkDiagnostics hd
  · intro d hd
    simpa using Lineage.code_of_mem_keepFirst hd

end Lineages

namespace Generation

variable {catalog : Catalog} {configuration : Configuration} {sources : List ScriptSource}

/-! ### Reading -/

theorem code_faultDiagnostic (path : String) (f : LocatedFault) :
    (faultDiagnostic path f).code ≠ takenNameCode := by
  rcases f with ⟨fault, span⟩
  cases fault <;> simp [faultDiagnostic, Fault.code, takenNameCode]

theorem path_of_mem_readAll {r : ReadScript} (hr : r ∈ readAll sources) {c : ScriptClass}
    (hc : r.class? = some c) : c.path = r.path := by
  obtain ⟨s, -, rfl⟩ := List.mem_map.1 hr
  exact ScriptClass.path_of_ofSource hc

/-- A script that is read is skipped or yields a class. -/
theorem map_path_perm (rs : List ReadScript)
    (hrs : ∀ r ∈ rs, ∀ c, r.class? = some c → c.path = r.path) :
    (rs.map ReadScript.path).Perm
      ((rs.filter fun r => r.class?.isNone).map ReadScript.path ++
        (rs.filterMap ReadScript.class?).map ScriptClass.path) := by
  induction rs with
  | nil => exact .nil
  | cons r rs ih =>
    have ih := ih fun r' hr' => hrs r' (List.mem_cons_of_mem r hr')
    cases hc : r.class? with
    | none => simpa [hc] using ih.cons r.path
    | some c =>
      have hpath := hrs r List.mem_cons_self c hc
      simp only [List.map_cons, List.filter_cons, List.filterMap_cons, hc, Option.isNone_some,
        Bool.false_eq_true, if_false, hpath]
      exact (ih.cons r.path).trans List.perm_middle.symm

theorem sources_perm (sources : List ScriptSource) :
    ((readAll sources).map ReadScript.path).Perm (sources.map ScriptSource.path) := by
  rw [readAll, List.map_map]
  exact (List.mergeSort_perm _ _).map ScriptSource.path

/-- The skipped scripts are those that yield no class. -/
theorem skipped_perm (catalog : Catalog) (configuration : Configuration)
    (sources : List ScriptSource) :
    (ofSources catalog configuration sources).skipped.Perm
      ((sources.filter fun s => (ScriptClass.ofSource s.path s.text).1.isNone).map
        ScriptSource.path) := by
  rw [ofSources_skipped, readAll, List.filter_map, List.map_map]
  exact ((List.mergeSort_perm _ _).filter _).map ScriptSource.path

/-! ### Classes -/

theorem map_fst_zipIdx {α β : Type} (f : α → β) (l : List α) :
    l.zipIdx.map (fun x => f x.1) = l.map f := by
  rw [show (fun x : α × Nat => f x.1) = f ∘ Prod.fst from rfl, ← List.map_map,
    List.zipIdx_map_fst]

theorem map_scriptPath_classes (catalog : Catalog) (configuration : Configuration)
    (sources : List ScriptSource) :
    (ofSources catalog configuration sources).classes.map ClassReport.scriptPath =
      (Lineage.keptOf (scriptsOf sources) (plansOf catalog configuration sources)).map
        (·.script.path) := by
  rw [ofSources_classes, classesOf_eq, List.map_map, List.map_map]
  exact map_fst_zipIdx (fun c : Candidate => c.script.path) _

theorem map_path_candidates (catalog : Catalog) (configuration : Configuration)
    (sources : List ScriptSource) :
    (Lineage.candidates (scriptsOf sources) (plansOf catalog configuration sources)).map
        (·.script.path) = (scriptsOf sources).map ScriptClass.path := by
  rw [plansOf, Lineage.candidates_map, List.map_map]
  exact map_fst_zipIdx ScriptClass.path _

/-- Each class is reported, or there is a complaint about its name. -/
theorem scripts_perm (catalog : Catalog) (configuration : Configuration)
    (sources : List ScriptSource) :
    ((ofSources catalog configuration sources).classes.map ClassReport.scriptPath ++
        (Lineage.duplicatesOf (scriptsOf sources)
          (plansOf catalog configuration sources)).map Diagnostic.subject).Perm
      ((scriptsOf sources).map ScriptClass.path) := by
  rw [map_scriptPath_classes, ← map_path_candidates catalog configuration sources]
  exact Lineage.keepFirst_perm [] _

theorem filter_takenNameCode (catalog : Catalog) (configuration : Configuration)
    (sources : List ScriptSource) :
    ((ofSources catalog configuration sources).diagnostics.filter
        fun d => d.code == takenNameCode) =
      Lineage.duplicatesOf (scriptsOf sources) (plansOf catalog configuration sources) := by
  have hfaults : ((readAll sources).flatMap fun r => r.faults.map (faultDiagnostic r.path)).filter
      (fun d => d.code == takenNameCode) = [] := by
    refine List.filter_eq_nil_iff.2 fun d hd => ?_
    obtain ⟨r, -, hd⟩ := List.mem_flatMap.1 hd
    obtain ⟨f, -, rfl⟩ := List.mem_map.1 hd
    simpa using code_faultDiagnostic r.path f
  have hmembers : (memberDiagnosticsOf catalog configuration sources).filter
      (fun d => d.code == takenNameCode) = [] := by
    refine List.filter_eq_nil_iff.2 fun d hd => ?_
    obtain ⟨x, -, hd⟩ := List.mem_flatMap.1 hd
    obtain ⟨m, -, rfl⟩ := List.mem_map.1 hd
    simp [Skipped.diagnostic, takenNameCode]
  rw [ofSources_diagnostics, List.filter_append, List.filter_append, hfaults, hmembers,
    List.nil_append, List.append_nil]
  exact Lineages.filter_takenNameCode catalog _ _

/-- A class is emitted if it is off circles and its plan asks for a bridge. -/
theorem emitted_iff {r : ClassReport}
    (hr : r ∈ (ofSources catalog configuration sources).classes) :
    r.emitted = true ↔
      r.status ≠ .cyclic ∧ (Plan.ofClass catalog configuration r.className).emitted = true := by
  obtain ⟨l, hl, s, hs, rfl⟩ := mem_classes_iff.1 hr
  have hemitted := Lineages.emitted_iff_hasBridge hl
  rw [Inheritance.HasBridge, ← Lineages.status_eq_cyclic_iff hl, getElem?_plansOf hs] at hemitted
  simpa [report] using hemitted

/-- Each script is skipped, or its class is reported, or there is a complaint about the name of
its class, and it is skipped exactly if it yields no class. -/
theorem ofSources_accounts (catalog : Catalog) (configuration : Configuration)
    (sources : List ScriptSource) :
    let g := ofSources catalog configuration sources
    (sources.map ScriptSource.path).Perm
      (g.skipped ++ g.classes.map ClassReport.scriptPath ++
        (g.diagnostics.filter fun d => d.code == "GDB-W3101").map Diagnostic.subject) ∧
    g.skipped.Perm
      ((sources.filter fun s => (ScriptClass.ofSource s.path s.text).1.isNone).map
        ScriptSource.path) ∧
    ∀ r ∈ g.classes, r.emitted = true ↔
      r.status ≠ .cyclic ∧ (Plan.ofClass catalog configuration r.className).emitted = true := by
  intro g
  refine ⟨?_, skipped_perm catalog configuration sources, fun r hr => emitted_iff hr⟩
  have hread := map_path_perm (readAll sources) fun r hr c hc => path_of_mem_readAll hr hc
  have hscripts := scripts_perm catalog configuration sources
  rw [← filter_takenNameCode] at hscripts
  rw [List.append_assoc]
  exact (sources_perm sources).symm.trans (hread.trans (hscripts.symm.append_left _))

end Generation

end ScriptBridge
