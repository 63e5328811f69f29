import ScriptBridge.Proofs.Lineage.Inheritance
import ScriptBridge.Proofs.Lineage.Visits

/-! The lineages of a run against inheritance as a relation. Proved: the visits give each
class the answers of its ancestors; there is one lineage for each script that counts, in
their order; its status and its root say whether extending leads back to the class, or to
an engine type, or to neither; and its base is the nearest ancestor for which a bridge is
written, or the proxy of that engine type. -/

namespace ScriptBridge

open Relation (TransGen ReflTransGen)

namespace Lineage

variable {catalog : Catalog} {scripts : List ScriptClass} {plans : List Plan}
  {x y : Nat} {c d : Candidate}

/-! ### Places and scripts -/

theorem onCircle_edgesOf_iff (catalog : Catalog) (hc : (keptOf scripts plans)[x]? = some c) :
    onCircle (edgesOf catalog scripts plans) x = true ↔
      Inheritance.OnCycle scripts plans c.index := by
  rw [onCircle_iff (closed_edgesOf catalog scripts plans), transGen_edgesOf_iff hc hc]
  rfl

theorem lastEdge_edgesOf_iff (hc : (keptOf scripts plans)[x]? = some c) {name : String} :
    lastEdge (edgesOf catalog scripts plans) x = some (.engine name) ↔
      Inheritance.EndsIn catalog scripts plans c.index name := by
  rw [lastEdge_eq_engine_iff (closed_edgesOf catalog scripts plans)]
  constructor
  · rintro ⟨y, hxy, hy⟩
    obtain ⟨d, hd, hext⟩ := edgesOf_eq_engine_iff.1 hy
    rcases Relation.reflTransGen_iff_eq_or_transGen.1 hxy with rfl | hxy
    · cases hc.symm.trans hd
      exact ⟨_, .refl, hext⟩
    · exact ⟨_, (transGen_index hc hd hxy).to_reflTransGen, hext⟩
  · rintro ⟨j, hij, hext⟩
    rcases Relation.reflTransGen_iff_eq_or_transGen.1 hij with rfl | hij
    · exact ⟨x, .refl, edgesOf_eq_engine_iff.2 ⟨c, hc, hext⟩⟩
    · obtain ⟨y, d, hd, rfl, hxy⟩ := exists_of_transGen hc hij
      exact ⟨y, hxy.to_reflTransGen, edgesOf_eq_engine_iff.2 ⟨d, hd, hext⟩⟩

theorem isBridged_iff (hc : (keptOf scripts plans)[x]? = some c) :
    isBridged (keptOf scripts plans).toArray (edgesOf catalog scripts plans) x = true ↔
      Inheritance.HasBridge scripts plans c.index := by
  have hon := onCircle_edgesOf_iff catalog hc
  have hp := (kept_of_getElem? hc).plan
  rw [isBridged, Bool.and_eq_true, Inheritance.HasBridge, ← hon, and_comm, Bool.not_eq_true]
  simp [isPlanned, hc, hp]

theorem firstAlong_index (hc : (keptOf scripts plans)[x]? = some c)
    (h : FirstAlong (Extends (edgesOf catalog scripts plans))
      (isBridged (keptOf scripts plans).toArray (edgesOf catalog scripts plans) · = true) x y) :
    ∃ d, (keptOf scripts plans)[y]? = some d ∧
      FirstAlong (Inheritance.Extends scripts plans) (Inheritance.HasBridge scripts plans)
        c.index d.index := by
  induction h generalizing c with
  | here h hb =>
    obtain ⟨c', d, hc', hd, hext⟩ := extends_edgesOf_iff.1 h
    cases hc.symm.trans hc'
    exact ⟨d, hd, .here hext ((isBridged_iff hd).1 hb)⟩
  | further h hm _ ih =>
    obtain ⟨c', e, hc', he, hext⟩ := extends_edgesOf_iff.1 h
    cases hc.symm.trans hc'
    obtain ⟨d, hd, hrest⟩ := ih he
    exact ⟨d, hd, .further hext (fun hb => hm ((isBridged_iff he).2 hb)) hrest⟩

/-! ### The lineage of a place -/

theorem rootOf_edgesOf_iff (hc : (keptOf scripts plans)[x]? = some c) {name : String} :
    rootOf (edgesOf catalog scripts plans) x = some name ↔
      Inheritance.EndsIn catalog scripts plans c.index name := by
  rw [rootOf_eq_some_iff, lastEdge_edgesOf_iff hc]

end Lineage

/-! ### The lineages of a run -/

namespace Lineages

open Lineage (FirstAlong)

variable {catalog : Catalog} {scripts : List ScriptClass} {plans : List Plan}

/-- The visits give each class the answers of its ancestors, and report the problems of all
walks. -/
theorem ofScripts_eq (catalog : Catalog) (scripts : List ScriptClass) (plans : List Plan) :
    ofScripts catalog scripts plans =
      { classes := (Lineage.keptOf scripts plans).zipIdx.map fun x =>
          Lineage.ofPlace (Lineage.keptOf scripts plans).toArray
            (Lineage.edgesOf catalog scripts plans) x.2 x.1
        diagnostics :=
          Lineage.duplicatesOf scripts plans ++
            (Lineage.allWalks (Lineage.edgesOf catalog scripts plans)).flatMap
              (Lineage.walkDiagnostics catalog (Lineage.keptOf scripts plans).toArray
                (Lineage.edgesOf catalog scripts plans)) } := by
  have hdef : ofScripts catalog scripts plans =
      let r := (List.range (Lineage.keptOf scripts plans).length).foldl
        (Resolution.resolveFrom catalog)
        ⟨(Lineage.keptOf scripts plans).map fun c =>
          { candidate := c, edge := Lineage.edgeAmong catalog scripts plans c.script },
          Lineage.duplicatesOf scripts plans⟩
      { classes := r.nodes.map LineageNode.lineage, diagnostics := r.diagnostics } := by
    rw [← List.length_map]
    rfl
  obtain ⟨hclasses, hdiagnostics⟩ := Resolution.foldl_resolveFrom_range catalog
    (Lineage.keptOf scripts plans) (fun c => Lineage.edgeAmong catalog scripts plans c.script)
    (Lineage.closed_edgesOf catalog scripts plans) (Lineage.duplicatesOf scripts plans)
  rw [hdef]
  exact congrArg₂ Lineages.mk hclasses hdiagnostics

theorem ofScripts_classes (catalog : Catalog) (scripts : List ScriptClass) (plans : List Plan) :
    (ofScripts catalog scripts plans).classes = (Lineage.keptOf scripts plans).zipIdx.map fun x =>
      Lineage.ofPlace (Lineage.keptOf scripts plans).toArray
        (Lineage.edgesOf catalog scripts plans) x.2 x.1 :=
  congrArg Lineages.classes (ofScripts_eq catalog scripts plans)

theorem ofScripts_diagnostics (catalog : Catalog) (scripts : List ScriptClass)
    (plans : List Plan) :
    (ofScripts catalog scripts plans).diagnostics =
      Lineage.duplicatesOf scripts plans ++
        (Lineage.allWalks (Lineage.edgesOf catalog scripts plans)).flatMap
          (Lineage.walkDiagnostics catalog (Lineage.keptOf scripts plans).toArray
            (Lineage.edgesOf catalog scripts plans)) :=
  congrArg Lineages.diagnostics (ofScripts_eq catalog scripts plans)

theorem mem_classes_iff {l : Lineage} :
    l ∈ (ofScripts catalog scripts plans).classes ↔
      ∃ (x : Nat) (c : Candidate), (Lineage.keptOf scripts plans)[x]? = some c ∧
        l = Lineage.ofPlace (Lineage.keptOf scripts plans).toArray
          (Lineage.edgesOf catalog scripts plans) x c := by
  rw [ofScripts_classes, List.mem_map]
  constructor
  · rintro ⟨⟨c, x⟩, hx, rfl⟩
    exact ⟨x, c, List.mk_mem_zipIdx_iff_getElem?.1 hx, rfl⟩
  · rintro ⟨x, c, hx, rfl⟩
    exact ⟨(c, x), List.mk_mem_zipIdx_iff_getElem?.2 hx, rfl⟩

theorem classes_index (catalog : Catalog) (scripts : List ScriptClass) (plans : List Plan) :
    (ofScripts catalog scripts plans).classes.map Lineage.index =
      (Lineage.keptOf scripts plans).map Candidate.index := by
  rw [ofScripts_classes, List.map_map]
  have h : (Lineage.index ∘ fun x : Candidate × Nat =>
      Lineage.ofPlace (Lineage.keptOf scripts plans).toArray
        (Lineage.edgesOf catalog scripts plans) x.2 x.1) = Candidate.index ∘ Prod.fst := by
    funext x
    simp [Lineage.ofPlace]
  rw [h, ← List.map_map, List.zipIdx_map_fst]

theorem mem_classes_index_iff {i : Nat} :
    i ∈ (ofScripts catalog scripts plans).classes.map Lineage.index ↔
      ∃ s p, Inheritance.Kept scripts plans i s p := by
  rw [classes_index, List.mem_map]
  constructor
  · rintro ⟨c, hc, rfl⟩
    exact ⟨_, _, Lineage.mem_keptOf_iff.1 hc⟩
  · rintro ⟨s, p, h⟩
    exact ⟨⟨i, s, p⟩, Lineage.mem_keptOf_iff.2 h, rfl⟩

theorem status_eq_cyclic_iff {l : Lineage} (hl : l ∈ (ofScripts catalog scripts plans).classes) :
    l.status = .cyclic ↔ Inheritance.OnCycle scripts plans l.index := by
  obtain ⟨x, c, hx, rfl⟩ := mem_classes_iff.1 hl
  simp only [Lineage.ofPlace]
  rw [Lineage.statusOf_eq_cyclic_iff, Lineage.onCircle_edgesOf_iff catalog hx]

theorem resolved_iff_endsIn {l : Lineage} (hl : l ∈ (ofScripts catalog scripts plans).classes)
    {name : String} :
    l.status = .resolved ∧ l.rootName = name ↔
      Inheritance.EndsIn catalog scripts plans l.index name := by
  obtain ⟨x, c, hx, rfl⟩ := mem_classes_iff.1 hl
  simp only [Lineage.ofPlace]
  rw [← Lineage.rootOf_edgesOf_iff hx,
    Lineage.statusOf_eq_resolved_iff (Lineage.closed_edgesOf catalog scripts plans)]
  cases Lineage.rootOf (Lineage.edgesOf catalog scripts plans) x <;> simp

theorem rootName_of_ne_resolved {l : Lineage} (hl : l ∈ (ofScripts catalog scripts plans).classes)
    (h : l.status ≠ .resolved) : l.rootName = unresolvedName := by
  obtain ⟨x, c, hx, rfl⟩ := mem_classes_iff.1 hl
  simp only [Lineage.ofPlace] at h ⊢
  rw [Ne, Lineage.statusOf_eq_resolved_iff (Lineage.closed_edgesOf catalog scripts plans)] at h
  rw [Option.not_isSome_iff_eq_none.1 h]
  rfl

/-- One lineage for each script that counts, in the order of the scripts, with the status
and the root that inheritance gives its class. -/
theorem ofScripts_status (catalog : Catalog) (scripts : List ScriptClass) (plans : List Plan) :
    let classes := (ofScripts catalog scripts plans).classes
    (classes.map Lineage.index).Pairwise (· < ·) ∧
    (∀ i, i ∈ classes.map Lineage.index ↔ ∃ s p, Inheritance.Kept scripts plans i s p) ∧
    ∀ l ∈ classes,
      (l.status = .cyclic ↔ Inheritance.OnCycle scripts plans l.index) ∧
      (∀ name, l.status = .resolved ∧ l.rootName = name ↔
        Inheritance.EndsIn catalog scripts plans l.index name) ∧
      (l.status = .unresolvedBase ↔ ¬Inheritance.OnCycle scripts plans l.index ∧
        ∀ name, ¬Inheritance.EndsIn catalog scripts plans l.index name) ∧
      (l.status ≠ .resolved → l.rootName = unresolvedName) := by
  intro classes
  refine ⟨?_, fun i => mem_classes_index_iff, fun l hl => ?_⟩
  · rw [classes_index]
    exact Lineage.keptOf_index_increasing scripts plans
  · have hcyc := status_eq_cyclic_iff hl
    have hres (name : String) : l.status = .resolved ∧ l.rootName = name ↔ _ :=
      resolved_iff_endsIn hl
    refine ⟨hcyc, hres, ?_, rootName_of_ne_resolved hl⟩
    rw [← hcyc]
    simp only [← hres]
    cases l.status <;> simp

theorem emitted_iff_hasBridge {l : Lineage} (hl : l ∈ (ofScripts catalog scripts plans).classes) :
    l.emitted = true ↔ Inheritance.HasBridge scripts plans l.index := by
  obtain ⟨x, c, hx, rfl⟩ := mem_classes_iff.1 hl
  have hon := Lineage.onCircle_edgesOf_iff catalog hx
  have hp := (Lineage.kept_of_getElem? hx).plan
  simp only [Lineage.ofPlace, Inheritance.HasBridge, ← hon]
  simp [hp]

/-- The plan of the nearest ancestor with a bridge names the base, if there is such an ancestor. -/
theorem baseName_cases {l : Lineage} (hl : l ∈ (ofScripts catalog scripts plans).classes)
    (hoff : ¬Inheritance.OnCycle scripts plans l.index) :
    (∃ j p, FirstAlong (Inheritance.Extends scripts plans) (Inheritance.HasBridge scripts plans)
        l.index j ∧ plans[j]? = some p ∧
        l.baseName = qualifiedName p.typeName p.namespaceName ∧ l.baseIsNative = false) ∨
      ((∀ j, TransGen (Inheritance.Extends scripts plans) l.index j →
          ¬Inheritance.HasBridge scripts plans j) ∧
        (∀ name, Inheritance.EndsIn catalog scripts plans l.index name →
          l.baseName = proxyName name ∧ l.baseIsNative = true) ∧
        ((∀ name, ¬Inheritance.EndsIn catalog scripts plans l.index name) →
          l.baseName = unresolvedName ∧ l.baseIsNative = false)) := by
  obtain ⟨x, c, hx, rfl⟩ := mem_classes_iff.1 hl
  set edges := Lineage.edgesOf catalog scripts plans
  have hc : Lineage.Closed edges := Lineage.closed_edgesOf catalog scripts plans
  simp only [Lineage.ofPlace] at hoff ⊢
  have hon : Lineage.onCircle edges x = false := by
    rw [← Bool.not_eq_true, Lineage.onCircle_edgesOf_iff catalog hx]
    exact hoff
  rcases Lineage.nearestBridge_cases (Lineage.keptOf scripts plans).toArray hc x with
    ⟨y, d, hn, hy, hfirst⟩ | ⟨hn, hnone⟩
  · left
    obtain ⟨d', hd', hfirst⟩ := Lineage.firstAlong_index hx hfirst
    obtain rfl : d = d' := by simpa [hd'] using hy.symm
    refine ⟨d.index, d.plan, hfirst, (Lineage.kept_of_getElem? hd').plan, ?_⟩
    simp [Lineage.baseNaming, hon, hn]
  · right
    refine ⟨fun j hj hb => ?_, fun name hname => ?_, fun hname => ?_⟩
    · obtain ⟨y, d, hd, rfl, hxy⟩ := Lineage.exists_of_transGen hx hj
      exact absurd ((Lineage.isBridged_iff hd).2 hb) (Bool.eq_false_iff.1 (hnone y hxy))
    · have hroot : Lineage.rootOf edges x = some name := (Lineage.rootOf_edgesOf_iff hx).2 hname
      simp [Lineage.baseNaming, hon, hn, hroot]
    · have hroot : Lineage.rootOf edges x = none := by
        refine Option.eq_none_iff_forall_not_mem.2 fun name h => hname name ?_
        exact (Lineage.rootOf_edgesOf_iff hx).1 h
      simp [Lineage.baseNaming, hon, hn, hroot]

theorem baseName_of_onCycle {l : Lineage} (hl : l ∈ (ofScripts catalog scripts plans).classes)
    (hon : Inheritance.OnCycle scripts plans l.index) :
    l.baseName = unresolvedName ∧ l.baseIsNative = false := by
  obtain ⟨x, c, hx, rfl⟩ := mem_classes_iff.1 hl
  simp only [Lineage.ofPlace] at hon ⊢
  have hon' := (Lineage.onCircle_edgesOf_iff catalog hx).2 hon
  simp [Lineage.baseNaming, hon']

/-- The base of a class is its nearest ancestor for which a bridge is written, else the proxy
of the engine type that its ancestors end in. A class on a cycle has no base and no bridge. -/
theorem ofScripts_base (catalog : Catalog) (scripts : List ScriptClass) (plans : List Plan)
    (l : Lineage) (hl : l ∈ (ofScripts catalog scripts plans).classes) :
    (l.emitted = true ↔ Inheritance.HasBridge scripts plans l.index) ∧
    (Inheritance.OnCycle scripts plans l.index →
      l.baseName = unresolvedName ∧ l.baseIsNative = false) ∧
    (¬Inheritance.OnCycle scripts plans l.index →
      ((∃ j, TransGen (Inheritance.Extends scripts plans) l.index j ∧
          Inheritance.HasBridge scripts plans j) →
        ∃ j p, FirstAlong (Inheritance.Extends scripts plans)
            (Inheritance.HasBridge scripts plans) l.index j ∧
          plans[j]? = some p ∧ l.baseName = qualifiedName p.typeName p.namespaceName ∧
          l.baseIsNative = false) ∧
      ((∀ j, TransGen (Inheritance.Extends scripts plans) l.index j →
          ¬Inheritance.HasBridge scripts plans j) →
        (∀ name, Inheritance.EndsIn catalog scripts plans l.index name →
          l.baseName = proxyName name ∧ l.baseIsNative = true) ∧
        ((∀ name, ¬Inheritance.EndsIn catalog scripts plans l.index name) →
          l.baseName = unresolvedName ∧ l.baseIsNative = false))) := by
  refine ⟨emitted_iff_hasBridge hl, baseName_of_onCycle hl, fun hoff => ?_⟩
  rcases baseName_cases hl hoff with ⟨j, p, hfirst, hbase⟩ | ⟨hnone, hbase⟩
  · refine ⟨fun _ => ⟨j, p, hfirst, hbase⟩, fun hnone => ?_⟩
    exact absurd hfirst.holds (hnone j hfirst.transGen)
  · refine ⟨fun ⟨j, hj, hb⟩ => absurd hb (hnone j hj), fun _ => hbase⟩

/-- The hero's bridge extends that of the actor, because the walker between them has none. -/
theorem ofScripts_base_hero :
    let scripts : List ScriptClass :=
      [{ name := "Hero", base := some (.named "Walker", {}) },
        { name := "Walker", base := some (.named "Actor", {}) },
        { name := "Actor", base := some (.engine .node, {}) }]
    let plans : List Plan :=
      [{ typeName := "Hero" }, { typeName := "Walker", emitted := false }, { typeName := "Actor" }]
    let hero : Lineage := ⟨0, "Hero", "", "Actor", "Node", false, .resolved, true⟩
    hero ∈ (ofScripts {} scripts plans).classes ∧ Inheritance.HasBridge scripts plans 0 ∧
      ∃ j p,
        FirstAlong (Inheritance.Extends scripts plans) (Inheritance.HasBridge scripts plans) 0 j ∧
        plans[j]? = some p ∧ "Actor" = qualifiedName p.typeName p.namespaceName := by
  intro scripts plans hero
  have hl : hero ∈ (ofScripts {} scripts plans).classes := by decide +kernel
  obtain ⟨hemitted, -, hbase⟩ := ofScripts_base {} scripts plans hero hl
  have hhero : Inheritance.HasBridge scripts plans 0 := hemitted.1 rfl
  have hactor : Inheritance.HasBridge scripts plans 2 :=
    (ofScripts_base {} scripts plans ⟨2, "Actor", "", "NodeProxy", "Node", true, .resolved, true⟩
      (by decide +kernel)).1.1 rfl
  have hpath : TransGen (Inheritance.Extends scripts plans) 0 2 :=
    (Lineage.transGen_edgesOf_iff (x := 0) (y := 2) rfl rfl).1
      (.tail (.single (show Lineage.Extends (Lineage.edgesOf {} scripts plans) 0 1 from rfl)) rfl)
  obtain ⟨j, p, hfirst, hp, hname, -⟩ := (hbase hhero.1).1 ⟨2, hpath, hactor⟩
  exact ⟨hl, hhero, j, p, hfirst, hp, hname⟩

end Lineages

end ScriptBridge
