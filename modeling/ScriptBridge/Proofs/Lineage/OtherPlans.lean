import ScriptBridge.Proofs.Lineage.Resolution

/-! The same scripts under other plans. Proved: which scripts count, their edges and the
problems found do not depend on the plans, so a lineage keeps its status and its root, and
takes its names, and whether there is a bridge, from the plan of its own class. -/

namespace ScriptBridge

/-- The same class with the plan that is made for it. -/
def Candidate.replan (plan : ScriptClass → Plan) (c : Candidate) : Candidate :=
  { c with plan := plan c.script }

namespace Lineage

theorem candidates_replan (plan plan' : ScriptClass → Plan) (scripts : List ScriptClass) :
    candidates scripts (scripts.map plan') =
      (candidates scripts (scripts.map plan)).map (Candidate.replan plan') := by
  rw [candidates_map, candidates_map, List.map_map]
  rfl

theorem keepFirst_replan (plan : ScriptClass → Plan) (kept cs : List Candidate) :
    keepFirst (kept.map (Candidate.replan plan)) (cs.map (Candidate.replan plan)) =
      ((keepFirst kept cs).1.map (Candidate.replan plan), (keepFirst kept cs).2) := by
  induction cs generalizing kept with
  | nil => rfl
  | cons c cs ih =>
    have hfind : (kept.map (Candidate.replan plan)).find? (·.script.name == c.script.name) =
        (kept.find? (·.script.name == c.script.name)).map (Candidate.replan plan) := by
      rw [List.find?_map]
      rfl
    have hc : (c.replan plan).script = c.script := rfl
    simp only [List.map_cons, keepFirst, hc, hfind]
    cases kept.find? (·.script.name == c.script.name) with
    | some first => simp only [Option.map_some, ih]; rfl
    | none =>
      have hkept : kept.map (Candidate.replan plan) ++ [c.replan plan] =
          (kept ++ [c]).map (Candidate.replan plan) := by rw [List.map_append]; rfl
      simp only [Option.map_none, hkept, ih]

theorem keepFirst_candidates (plan plan' : ScriptClass → Plan) (scripts : List ScriptClass) :
    keepFirst [] (candidates scripts (scripts.map plan')) =
      ((keptOf scripts (scripts.map plan)).map (Candidate.replan plan'),
        duplicatesOf scripts (scripts.map plan)) := by
  rw [candidates_replan plan plan']
  exact keepFirst_replan plan' [] _

theorem keptOf_replan (plan plan' : ScriptClass → Plan) (scripts : List ScriptClass) :
    keptOf scripts (scripts.map plan') =
      (keptOf scripts (scripts.map plan)).map (Candidate.replan plan') := by
  rw [keptOf, keepFirst_candidates plan plan']

theorem duplicatesOf_replan (plan plan' : ScriptClass → Plan) (scripts : List ScriptClass) :
    duplicatesOf scripts (scripts.map plan') = duplicatesOf scripts (scripts.map plan) := by
  rw [duplicatesOf, keepFirst_candidates plan plan']

theorem edgesOf_replan (catalog : Catalog) (plan plan' : ScriptClass → Plan)
    (scripts : List ScriptClass) :
    edgesOf catalog scripts (scripts.map plan') = edgesOf catalog scripts (scripts.map plan) := by
  simp only [edgesOf, keptOf_replan plan plan', List.map_map]
  rfl

/-- The problems met on a walk do not depend on the plans. -/
theorem walkDiagnostics_replan (catalog : Catalog) (plan : ScriptClass → Plan)
    (kept : List Candidate) (edges : Array Edge) (path : List Nat) :
    walkDiagnostics catalog (kept.map (Candidate.replan plan)).toArray edges path =
      walkDiagnostics catalog kept.toArray edges path := by
  simp only [walkDiagnostics, problemOf, nameOf, List.getElem?_toArray, List.getElem?_map, Option.map_map,
    Option.bind_map]
  rfl

end Lineage

namespace Lineages

theorem diagnostics_replan (catalog : Catalog) (plan plan' : ScriptClass → Plan)
    (scripts : List ScriptClass) :
    (ofScripts catalog scripts (scripts.map plan')).diagnostics =
      (ofScripts catalog scripts (scripts.map plan)).diagnostics := by
  rw [ofScripts_diagnostics, ofScripts_diagnostics, Lineage.duplicatesOf_replan plan plan',
    Lineage.edgesOf_replan catalog plan plan', Lineage.keptOf_replan plan plan']
  simp only [funext (Lineage.walkDiagnostics_replan catalog plan' _ _)]

end Lineages

end ScriptBridge
