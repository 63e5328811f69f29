import ScriptBridge.Proofs.Lineage.Problems

/-! The diagnostics about lineages. They are found in two ways, repeated classes when candidates
are kept, and all else along walks. Proved: the diagnostics of a run are the problems of its
classes, each class has one at most, and only a circle is an error. -/

namespace ScriptBridge

open Relation (TransGen)

namespace Lineage

open Inheritance (Kept HasProblem Repeats nameAt pathAt OnCycle)

variable {catalog : Catalog} {scripts : List ScriptClass} {plans : List Plan}
  {x y i : Nat} {c d : Candidate} {s : ScriptClass} {p : Plan} {problem : LineageProblem}
  {path : List Nat}

/-! ### Classes on circles -/

/-- The index of the script at a place. -/
def indexAt (scripts : List ScriptClass) (plans : List Plan) (place : Nat) : Nat :=
  ((keptOf scripts plans)[place]?.map Candidate.index).getD 0

theorem indexAt_eq (hx : (keptOf scripts plans)[x]? = some c) :
    indexAt scripts plans x = c.index := by
  rw [indexAt, hx, Option.map_some, Option.getD_some]

theorem indexAt_inj (hx : x < (keptOf scripts plans).length)
    (hy : y < (keptOf scripts plans).length)
    (h : indexAt scripts plans x = indexAt scripts plans y) : x = y := by
  have hxc := List.getElem?_eq_getElem hx
  have hyc := List.getElem?_eq_getElem hy
  rw [indexAt_eq hxc, indexAt_eq hyc] at h
  exact place_eq_of_index_eq hxc hyc h

theorem size_edgesOf (catalog : Catalog) (scripts : List ScriptClass) (plans : List Plan) :
    (edgesOf catalog scripts plans).size = (keptOf scripts plans).length := by
  simp [edgesOf]

/-- The places of a circle hold the scripts of a circle. -/
theorem IsCircle.map_indexAt (hplaces : ∀ x ∈ path, x < (keptOf scripts plans).length)
    (h : IsCircle (Extends (edgesOf catalog scripts plans)) path) :
    IsCircle (Inheritance.Extends scripts plans) (path.map (indexAt scripts plans)) := by
  constructor
  · rw [← List.map_take, ← List.map_append, List.isChain_map]
    refine h.chain.imp fun x y hxy => ?_
    obtain ⟨c, d, hx, hy, hext⟩ := extends_edgesOf_iff.1 hxy
    rwa [indexAt_eq hx, indexAt_eq hy]
  · exact h.nodup.map_on fun x hx y hy => indexAt_inj (hplaces x hx) (hplaces y hy)

theorem names_eq (hplaces : ∀ x ∈ path, x < (keptOf scripts plans).length) :
    path.filterMap (fun x => (keptOf scripts plans)[x]?.map (·.script.name)) =
      (path.map (indexAt scripts plans)).map (nameAt scripts) := by
  rw [List.map_map, List.filterMap_eq_map_iff_forall_eq_some]
  intro x hx
  have hxc := List.getElem?_eq_getElem (hplaces x hx)
  rw [hxc, Option.map_some, Function.comp_apply, indexAt_eq hxc, (kept_of_getElem? hxc).nameAt]

/-! ### Problems along walks -/

/-- The problem of the class at a place, whose circle has the given names if it is on one. -/
def problemAt (catalog : Catalog) (scripts : List ScriptClass) (plans : List Plan)
    (names : List String) (place : Nat) : Option LineageProblem :=
  if onCircle (edgesOf catalog scripts plans) place then
    some (.circle (nameAt scripts (indexAt scripts plans place)) names)
  else problemOf catalog (keptOf scripts plans).toArray (edgesOf catalog scripts plans) place

/-- The classes on the circle that a walk meets. -/
def circleNames (catalog : Catalog) (scripts : List ScriptClass) (plans : List Plan)
    (path : List Nat) : List String :=
  ((path.filter (onCircle (edgesOf catalog scripts plans))).map (indexAt scripts plans)).map
    (nameAt scripts)

/-- The problems met on one walk, with the indices of the scripts that have them. -/
def problemsOn (catalog : Catalog) (scripts : List ScriptClass) (plans : List Plan)
    (path : List Nat) : List (Nat × LineageProblem) :=
  let edges := edgesOf catalog scripts plans
  (path.filter (onCircle edges) ++ (path.filter (!onCircle edges ·)).reverse).filterMap fun x =>
    (problemAt catalog scripts plans (circleNames catalog scripts plans path) x).map
      (indexAt scripts plans x, ·)

theorem walkDiagnostics_eq (hplaces : ∀ x ∈ path, x < (keptOf scripts plans).length) :
    walkDiagnostics catalog (keptOf scripts plans).toArray (edgesOf catalog scripts plans) path =
      (problemsOn catalog scripts plans path).map fun x =>
        x.2.diagnostic (pathAt scripts x.1) := by
  have hcircle : ∀ x ∈ path.filter (onCircle (edgesOf catalog scripts plans)),
      x < (keptOf scripts plans).length := fun x hx => hplaces x (List.mem_filter.1 hx).1
  simp only [walkDiagnostics, List.partition_eq_filter_filter, problemsOn, List.filterMap_append,
    List.map_append, List.map_filterMap, List.getElem?_toArray, names_eq hcircle, Option.map_map]
  refine congrArg₂ (· ++ ·) (List.filterMap_congr fun x hx => ?_)
    (List.filterMap_congr fun x hx => ?_)
  · have hxc := List.getElem?_eq_getElem (hcircle x hx)
    have hc := kept_of_getElem? hxc
    rw [problemAt, if_pos (List.mem_filter.1 hx).2, indexAt_eq hxc, hxc, hc.nameAt]
    simp only [Option.map_some, Function.comp_apply, hc.pathAt]
    rfl
  · obtain ⟨hx, hoff⟩ := List.mem_filter.1 (List.mem_reverse.1 hx)
    have hxc := List.getElem?_eq_getElem (hplaces x hx)
    have hc := kept_of_getElem? hxc
    have hon : ¬onCircle (edgesOf catalog scripts plans) x = true := by simpa using hoff
    rw [problemAt, if_neg hon, hxc, indexAt_eq hxc, Option.bind_some, ← hc.pathAt]
    rfl

theorem mem_problemsOn :
    (i, problem) ∈ problemsOn catalog scripts plans path ↔
      ∃ x ∈ path, indexAt scripts plans x = i ∧
        problemAt catalog scripts plans (circleNames catalog scripts plans path) x =
          some problem := by
  simp only [problemsOn, List.mem_filterMap, List.mem_append, List.mem_reverse, List.mem_filter,
    Option.map_eq_some_iff, Prod.mk.injEq, ← and_or_left, Bool.not_eq_true',
    Bool.eq_true_or_eq_false_self, and_true]
  constructor
  · rintro ⟨x, hx, _, hproblem, hi, rfl⟩
    exact ⟨x, hx, hi, hproblem⟩
  · rintro ⟨x, hx, hi, hproblem⟩
    exact ⟨x, hx, problem, hproblem, hi, rfl⟩

/-- The problems met on all walks. -/
def foundProblems (catalog : Catalog) (scripts : List ScriptClass) (plans : List Plan) :
    List (Nat × LineageProblem) :=
  (allWalks (edgesOf catalog scripts plans)).flatMap (problemsOn catalog scripts plans)

theorem lt_of_mem_allWalks (hpath : path ∈ allWalks (edgesOf catalog scripts plans))
    (hx : x ∈ path) : x < (keptOf scripts plans).length := by
  rw [← size_edgesOf catalog, ← (allWalks_spec _).2.1]
  exact List.mem_flatten.2 ⟨path, hpath, hx⟩

/-- What is found is a problem of the class that it is found for. -/
theorem hasProblem_of_mem (h : (i, problem) ∈ foundProblems catalog scripts plans) :
    HasProblem catalog scripts plans i problem := by
  obtain ⟨path, hpath, hmem⟩ := List.mem_flatMap.1 h
  obtain ⟨x, hx, rfl, hproblem⟩ := mem_problemsOn.1 hmem
  have hxc := List.getElem?_eq_getElem (lt_of_mem_allWalks hpath hx)
  have hplaces : ∀ y ∈ path.filter (onCircle (edgesOf catalog scripts plans)),
      y < (keptOf scripts plans).length := fun y hy =>
    lt_of_mem_allWalks hpath (List.mem_filter.1 hy).1
  unfold problemAt at hproblem
  split_ifs at hproblem with hon
  · cases hproblem
    have hcircle := (allWalks_spec _).2.2 path hpath (closed_edgesOf catalog scripts plans)
    exact .circle (List.mem_map_of_mem (List.mem_filter.2 ⟨hx, hon⟩)) (hcircle.map_indexAt hplaces)
  · rw [onCircle_edgesOf_iff catalog hxc] at hon
    rw [indexAt_eq hxc]
    exact (problemOf_eq_some_iff hxc hon).1 hproblem

/-- Each class has its place on a walk, and what is found there is found. -/
theorem exists_place (catalog : Catalog) (hi : Kept scripts plans i s p) :
    ∃ x names, (keptOf scripts plans)[x]? = some ⟨i, s, p⟩ ∧
      ∀ problem, problemAt catalog scripts plans names x = some problem →
        (i, problem) ∈ foundProblems catalog scripts plans := by
  obtain ⟨x, hx⟩ := exists_getElem?_of_kept hi
  have hlt := (List.getElem?_eq_some_iff.1 hx).1
  rw [← size_edgesOf catalog, ← (allWalks_spec _).2.1] at hlt
  obtain ⟨path, hpath, hmem⟩ := List.mem_flatten.1 hlt
  refine ⟨x, circleNames catalog scripts plans path, hx, fun problem hproblem => ?_⟩
  exact List.mem_flatMap.2 ⟨path, hpath, mem_problemsOn.2 ⟨x, hmem, indexAt_eq hx, hproblem⟩⟩

/-- Off circles every problem is found. -/
theorem mem_foundProblems_of_not_onCycle (hoff : ¬OnCycle scripts plans i)
    (h : HasProblem catalog scripts plans i problem) :
    (i, problem) ∈ foundProblems catalog scripts plans := by
  obtain ⟨s, p, hi⟩ := h.kept
  obtain ⟨x, names, hx, hfound⟩ := exists_place catalog hi
  refine hfound problem ?_
  rw [problemAt, if_neg ((onCircle_edgesOf_iff catalog hx).not.2 hoff)]
  exact (problemOf_eq_some_iff hx hoff).2 h

/-- The circle of a class on one is found. -/
theorem exists_mem_foundProblems_of_onCycle (catalog : Catalog) (hon : OnCycle scripts plans i) :
    ∃ names, (i, .circle (nameAt scripts i) names) ∈ foundProblems catalog scripts plans := by
  obtain ⟨j, hij⟩ := hon.exists_extends
  obtain ⟨s, p, hi⟩ := hij.kept_left
  obtain ⟨x, names, hx, hfound⟩ := exists_place catalog hi
  refine ⟨names, hfound _ ?_⟩
  rw [problemAt, if_pos ((onCircle_edgesOf_iff catalog hx).2 hon), indexAt_eq hx]

/-- No class is found twice. -/
theorem nodup_foundProblems (catalog : Catalog) (scripts : List ScriptClass) (plans : List Plan) :
    ((foundProblems catalog scripts plans).map Prod.fst).Nodup := by
  obtain ⟨hnodup, hdisjoint⟩ :=
    List.nodup_flatten.1 (allWalks_spec (edgesOf catalog scripts plans)).1
  refine List.pairwise_map.2 (List.pairwise_flatMap.2 ⟨fun path hpath => ?_, ?_⟩)
  · have horder : (path.filter (onCircle (edgesOf catalog scripts plans)) ++
        (path.filter (!onCircle (edgesOf catalog scripts plans) ·)).reverse).Perm path :=
      ((List.reverse_perm _).append_left _).trans (List.filter_append_perm _ path)
    refine List.pairwise_filterMap.2 ((horder.nodup_iff.2 (hnodup path hpath)).imp_of_mem ?_)
    intro x y hx hy hne a ha b hb heq
    obtain ⟨_, -, rfl⟩ := Option.map_eq_some_iff.1 ha
    obtain ⟨_, -, rfl⟩ := Option.map_eq_some_iff.1 hb
    exact hne (indexAt_inj (lt_of_mem_allWalks hpath (horder.mem_iff.1 hx))
      (lt_of_mem_allWalks hpath (horder.mem_iff.1 hy)) heq)
  · refine hdisjoint.imp_of_mem ?_
    intro path path' hpath hpath' hdisjoint a ha b hb heq
    obtain ⟨x, hx, hxa, -⟩ := mem_problemsOn.1 ha
    obtain ⟨y, hy, hyb, -⟩ := mem_problemsOn.1 hb
    obtain rfl := indexAt_inj (lt_of_mem_allWalks hpath hx) (lt_of_mem_allWalks hpath' hy)
      (hxa.trans (heq.trans hyb.symm))
    exact hdisjoint hx hy

/-! ### Repeated classes -/

/-- The complaint about a candidate if another one is kept for its class. -/
def complaint? (kept : List Candidate) (c : Candidate) : Option LineageProblem :=
  (kept.find? (·.script.name == c.script.name)).bind fun first =>
    if first.index = c.index then none
    else some (.duplicateClass c.script.name first.script.path)

theorem exists_keepFirst_eq (kept cs : List Candidate) :
    ∃ more, (keepFirst kept cs).1 = kept ++ more := by
  induction cs generalizing kept with
  | nil => exact ⟨[], (List.append_nil kept).symm⟩
  | cons c cs ih =>
    unfold keepFirst
    split
    · exact ih kept
    · obtain ⟨more, hmore⟩ := ih (kept ++ [c])
      exact ⟨c :: more, by rw [hmore, List.append_assoc, List.singleton_append]⟩

/-- The complaints about candidates are made by what is kept in the end. -/
theorem keepFirst_complaints {kept cs : List Candidate}
    (h : ((kept ++ cs).map Candidate.index).Nodup) :
    (keepFirst kept cs).2 = cs.filterMap fun c =>
      (complaint? (keepFirst kept cs).1 c).map (·.diagnostic c.script.path) := by
  induction cs generalizing kept with
  | nil => rfl
  | cons c cs ih =>
    unfold keepFirst
    split
    · next first hfirst =>
      obtain ⟨more, hmore⟩ := exists_keepFirst_eq kept cs
      have hrest : ((kept ++ cs).map Candidate.index).Nodup :=
        h.sublist (((List.sublist_cons_self c cs).append_left kept).map _)
      have hkept := List.mem_map_of_mem (f := Candidate.index) (List.mem_of_find?_eq_some hfirst)
      have hne : first.index ≠ c.index := by
        rw [List.map_append] at h
        exact (List.nodup_append.1 h).2.2 _ hkept _ (List.mem_map_of_mem List.mem_cons_self)
      have hcomplaint : complaint? (keepFirst kept cs).1 c =
          some (.duplicateClass c.script.name first.script.path) := by
        rw [complaint?, hmore, List.find?_append, hfirst, Option.some_or, Option.bind_some,
          if_neg hne]
      dsimp only
      rw [List.filterMap_cons, hcomplaint, ← ih hrest]
      rfl
    · next hnone =>
      obtain ⟨more, hmore⟩ := exists_keepFirst_eq (kept ++ [c]) cs
      have hrest : ((kept ++ [c] ++ cs).map Candidate.index).Nodup := by
        rwa [List.append_assoc, List.singleton_append]
      have hself : (c :: more).find? (·.script.name == c.script.name) = some c :=
        List.find?_cons_of_pos (beq_self_eq_true c.script.name)
      have hcomplaint : complaint? (keepFirst (kept ++ [c]) cs).1 c = none := by
        rw [complaint?, hmore, List.append_assoc, List.find?_append, hnone, Option.none_or,
          List.singleton_append, hself, Option.bind_some, if_pos rfl]
      rw [List.filterMap_cons, hcomplaint, ih hrest]
      rfl

/-- The complaints about repeated classes, with the indices of the scripts. -/
def droppedProblems (scripts : List ScriptClass) (plans : List Plan) :
    List (Nat × LineageProblem) :=
  (candidates scripts plans).filterMap fun c =>
    (complaint? (keptOf scripts plans) c).map (c.index, ·)

theorem map_index_candidates (scripts : List ScriptClass) (plans : List Plan) :
    (candidates scripts plans).map Candidate.index = List.range (scripts.zip plans).length := by
  simp [candidates, Function.comp_def, List.zipIdx_map_snd, List.range_eq_range']

theorem duplicatesOf_eq (scripts : List ScriptClass) (plans : List Plan) :
    duplicatesOf scripts plans =
      (droppedProblems scripts plans).map fun x => x.2.diagnostic (pathAt scripts x.1) := by
  have hnodup : (([] ++ candidates scripts plans).map Candidate.index).Nodup := by
    rw [List.nil_append, map_index_candidates]
    exact List.nodup_range
  rw [duplicatesOf, keepFirst_complaints hnodup, droppedProblems, List.map_filterMap]
  refine List.filterMap_congr fun c hc => ?_
  obtain ⟨x, hx⟩ := List.mem_iff_getElem?.1 hc
  obtain ⟨rfl, hscript, -⟩ := getElem?_candidates.1 hx
  have hpath : pathAt scripts c.index = c.script.path := by rw [pathAt, hscript]; rfl
  rw [Option.map_map, ← hpath]
  rfl

theorem droppedProblems_increasing (scripts : List ScriptClass) (plans : List Plan) :
    ((droppedProblems scripts plans).map Prod.fst).Pairwise (· < ·) := by
  have hindex : (candidates scripts plans).Pairwise fun c d => c.index < d.index := by
    rw [← List.pairwise_map, map_index_candidates]
    exact List.pairwise_lt_range
  refine List.pairwise_map.2 (List.pairwise_filterMap.2 (hindex.imp ?_))
  intro c d hcd a ha b hb
  obtain ⟨_, -, rfl⟩ := Option.map_eq_some_iff.1 ha
  obtain ⟨_, -, rfl⟩ := Option.map_eq_some_iff.1 hb
  exact hcd

theorem find?_keptOf (hd : d ∈ keptOf scripts plans) :
    (keptOf scripts plans).find? (·.script.name == d.script.name) = some d := by
  have hsome : ((keptOf scripts plans).find? (·.script.name == d.script.name)).isSome :=
    List.find?_isSome.2 ⟨d, hd, beq_self_eq_true d.script.name⟩
  obtain ⟨e, he⟩ := Option.isSome_iff_exists.1 hsome
  have hname : e.script.name = d.script.name := by simpa using List.find?_some he
  obtain ⟨x, hx⟩ := List.mem_iff_getElem?.1 (List.mem_of_find?_eq_some he)
  obtain ⟨y, hy⟩ := List.mem_iff_getElem?.1 hd
  obtain rfl := place_eq_of_name_eq hx hy hname
  cases hx.symm.trans hy
  exact he

theorem mem_droppedProblems_iff :
    (i, problem) ∈ droppedProblems scripts plans ↔ Repeats scripts plans i problem := by
  rw [droppedProblems, List.mem_filterMap]
  constructor
  · rintro ⟨c, hc, h⟩
    obtain ⟨_, hcomplaint, heq⟩ := Option.map_eq_some_iff.1 h
    cases heq
    obtain ⟨first, hfirst, hproblem⟩ := Option.bind_eq_some_iff.1 hcomplaint
    obtain ⟨x, hx⟩ := List.mem_iff_getElem?.1 hc
    obtain ⟨rfl, hscript, hplan⟩ := getElem?_candidates.1 hx
    have hkept := mem_keptOf_iff.1 (List.mem_of_find?_eq_some hfirst)
    have hname : first.script.name = c.script.name := by simpa using List.find?_some hfirst
    split_ifs at hproblem with hne
    cases hproblem
    refine .intro hscript hplan hkept ?_ hname
    have hnot : ¬c.index < first.index := fun hlt => hkept.first _ hlt _ hscript hname.symm
    omega
  · rintro ⟨hscript, hplan, hj, hlt, hname⟩
    next j s t p q =>
    refine ⟨⟨i, s, p⟩, List.mem_of_getElem? (getElem?_candidates.2 ⟨rfl, hscript, hplan⟩), ?_⟩
    have hfind := find?_keptOf (mem_keptOf_iff (c := ⟨j, t, q⟩) |>.2 hj)
    dsimp only at hfind
    rw [hname] at hfind
    rw [complaint?, hfind, Option.bind_some, if_neg (Nat.ne_of_lt hlt)]
    rfl

end Lineage

namespace Lineages

open Inheritance

variable {catalog : Catalog} {scripts : List ScriptClass} {plans : List Plan} {i : Nat}
  {code : String}

theorem diagnostics_eq (catalog : Catalog) (scripts : List ScriptClass) (plans : List Plan) :
    (ofScripts catalog scripts plans).diagnostics =
      (Lineage.droppedProblems scripts plans ++ Lineage.foundProblems catalog scripts plans).map
        fun x => x.2.diagnostic (pathAt scripts x.1) := by
  rw [ofScripts_diagnostics, Lineage.duplicatesOf_eq, List.map_append, Lineage.foundProblems,
    List.map_flatMap, List.flatMap_def, List.flatMap_def]
  refine congrArg (_ ++ List.flatten ·) (List.map_congr_left fun path hpath => ?_)
  exact Lineage.walkDiagnostics_eq fun x hx => Lineage.lt_of_mem_allWalks hpath hx

theorem reported_iff :
    (∃ problem, (i, problem) ∈ Lineage.foundProblems catalog scripts plans ∧
      problem.code = code) ↔ Reported catalog scripts plans i code := by
  constructor
  · rintro ⟨problem, h, rfl⟩
    exact (Lineage.hasProblem_of_mem h).reported
  · intro h
    by_cases hon : OnCycle scripts plans i
    · obtain ⟨names, hmem⟩ := Lineage.exists_mem_foundProblems_of_onCycle catalog hon
      exact ⟨_, hmem, (h.code_of_onCycle hon).symm⟩
    · obtain ⟨problem, hproblem, hcode⟩ := h.exists_hasProblem hon
      exact ⟨problem, Lineage.mem_foundProblems_of_not_onCycle hon hproblem, hcode⟩

theorem nodup_problems (catalog : Catalog) (scripts : List ScriptClass) (plans : List Plan) :
    ((Lineage.droppedProblems scripts plans ++
      Lineage.foundProblems catalog scripts plans).map Prod.fst).Nodup := by
  rw [List.map_append]
  refine List.nodup_append.2 ⟨(Lineage.droppedProblems_increasing scripts plans).imp Nat.ne_of_lt,
    Lineage.nodup_foundProblems catalog scripts plans, ?_⟩
  intro i hi j hj heq
  obtain ⟨⟨_, dropped⟩, hdropped, rfl⟩ := List.mem_map.1 hi
  obtain ⟨⟨_, found⟩, hfound, rfl⟩ := List.mem_map.1 hj
  obtain ⟨s, p, hkept⟩ := (Lineage.hasProblem_of_mem hfound).kept
  dsimp only at heq
  exact (Lineage.mem_droppedProblems_iff.1 hdropped).not_kept (heq ▸ hkept)

theorem exists_error_iff :
    (∃ d ∈ (ofScripts catalog scripts plans).diagnostics, d.isWarning = false) ↔
      ∃ i, OnCycle scripts plans i := by
  rw [diagnostics_eq]
  constructor
  · rintro ⟨d, hd, herror⟩
    obtain ⟨⟨i, problem⟩, hmem, rfl⟩ := List.mem_map.1 hd
    have hisWarning : problem.isWarning = false := herror
    rcases List.mem_append.1 hmem with hmem | hmem
    · obtain ⟨_, _, _, _, _⟩ := Lineage.mem_droppedProblems_iff.1 hmem
      cases hisWarning
    · cases Lineage.hasProblem_of_mem hmem with
      | circle h hcircle => exact ⟨i, hcircle.transGen h⟩
      | _ => cases hisWarning
  · rintro ⟨i, hon⟩
    obtain ⟨names, hmem⟩ := Lineage.exists_mem_foundProblems_of_onCycle catalog hon
    exact ⟨_, List.mem_map_of_mem (List.mem_append_right _ hmem), rfl⟩

/-- A problem is an error exactly if its code is that of circles. -/
theorem diagnostic_eq (problem : LineageProblem) (subject : String) :
    problem.diagnostic subject =
      ⟨problem.code, problem.message, subject, problem.code != "GDB-E3102"⟩ := by
  cases problem <;> rfl

/-- The diagnostics of a run. First, in their order, come the scripts whose class is declared
before; then the scripts that are reported of, each with the problem that it has. No script comes
twice, none that ends in an engine type through another one comes at all, and there is an error
exactly if there is a circle. -/
theorem ofScripts_problems (catalog : Catalog) (scripts : List ScriptClass) (plans : List Plan) :
    let diagnostics := (ofScripts catalog scripts plans).diagnostics
    (∃ dropped found : List (Nat × Diagnostic),
      diagnostics = (dropped ++ found).map Prod.snd ∧
      (dropped.map Prod.fst).Pairwise (· < ·) ∧
      (∀ i d, (i, d) ∈ dropped ↔ ∃ problem, Repeats scripts plans i problem ∧
        d = ⟨"GDB-W3101", problem.message, pathAt scripts i, true⟩) ∧
      ((dropped ++ found).map Prod.fst).Nodup ∧
      (∀ i d, (i, d) ∈ found → ∃ problem code, HasProblem catalog scripts plans i problem ∧
        Reported catalog scripts plans i code ∧
        d = ⟨code, problem.message, pathAt scripts i, code != "GDB-E3102"⟩) ∧
      (∀ i code, Reported catalog scripts plans i code → ∃ d, (i, d) ∈ found ∧ d.code = code) ∧
      ∀ i j name, Extends scripts plans i j → EndsIn catalog scripts plans i name →
        i ∉ (dropped ++ found).map Prod.fst) ∧
    ((∃ d ∈ diagnostics, d.isWarning = false) ↔ ∃ i, OnCycle scripts plans i) := by
  intro diagnostics
  let located (x : Nat × LineageProblem) : Nat × Diagnostic :=
    (x.1, x.2.diagnostic (pathAt scripts x.1))
  have hmem {problems : List (Nat × LineageProblem)} {i : Nat} {d : Diagnostic} :
      (i, d) ∈ problems.map located ↔
        ∃ problem, (i, problem) ∈ problems ∧ d = problem.diagnostic (pathAt scripts i) := by
    simp only [List.mem_map, Prod.exists, located, Prod.mk.injEq]
    constructor
    · rintro ⟨_, problem, h, rfl, rfl⟩
      exact ⟨problem, h, rfl⟩
    · rintro ⟨problem, h, rfl⟩
      exact ⟨i, problem, h, rfl, rfl⟩
  have hplaces (problems : List (Nat × LineageProblem)) :
      (problems.map located).map Prod.fst = problems.map Prod.fst := by
    rw [List.map_map]
    rfl
  refine ⟨⟨(Lineage.droppedProblems scripts plans).map located,
    (Lineage.foundProblems catalog scripts plans).map located, ?_, ?_, fun i d => ?_, ?_,
    fun i d h => ?_, fun i code h => ?_, ?_⟩, exists_error_iff⟩
  · rw [← List.map_append, List.map_map]
    exact diagnostics_eq catalog scripts plans
  · rw [hplaces]
    exact Lineage.droppedProblems_increasing scripts plans
  · rw [hmem]
    refine exists_congr fun problem => ?_
    rw [Lineage.mem_droppedProblems_iff]
    exact and_congr_right fun ⟨_, _, _, _, _⟩ => Iff.rfl
  · rw [← List.map_append, hplaces]
    exact nodup_problems catalog scripts plans
  · obtain ⟨problem, hproblem, rfl⟩ := hmem.1 h
    have hhas := Lineage.hasProblem_of_mem hproblem
    exact ⟨problem, problem.code, hhas, hhas.reported, diagnostic_eq problem _⟩
  · obtain ⟨problem, hproblem, rfl⟩ := reported_iff.2 h
    exact ⟨_, hmem.2 ⟨problem, hproblem, rfl⟩, rfl⟩
  · intro i j name hij hends hplace
    rw [← List.map_append, hplaces] at hplace
    obtain ⟨⟨_, problem⟩, hproblem, rfl⟩ := List.mem_map.1 hplace
    rcases List.mem_append.1 hproblem with hdropped | hfound
    · obtain ⟨s, p, hi⟩ := hij.kept_left
      exact (Lineage.mem_droppedProblems_iff.1 hdropped).not_kept hi
    · exact hends.not_hasProblem hij (Lineage.hasProblem_of_mem hfound)

end Lineages

end ScriptBridge
