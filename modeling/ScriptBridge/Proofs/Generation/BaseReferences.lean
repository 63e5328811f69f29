import ScriptBridge.Generation
import ScriptBridge.Proofs.Lineage.Closure

/-! The result of a run refers to itself only. Proved: each base that an emitted class
names is written in the same run, as a proxy or as the bridge of another class, unless
it is unresolved; there are no proxies but those that emitted classes need; and the
units are one bridge for each emitted class and one proxy for each engine type, in the
order of their file names. -/

namespace ScriptBridge.Generation

variable {catalog : Catalog} {configuration : Configuration} {sources : List ScriptSource}

/-! ### Parts of a run -/

/-- The scripts after reading, in the order of their paths. -/
def readAll (sources : List ScriptSource) : List ReadScript :=
  (sources.mergeSort fun a b => notAfter a.path b.path).map readScript

/-- The classes that the scripts declare. -/
def scriptsOf (sources : List ScriptSource) : List ScriptClass :=
  (readAll sources).filterMap ReadScript.class?

def plansOf (catalog : Catalog) (configuration : Configuration) (sources : List ScriptSource) :
    List Plan := (scriptsOf sources).map fun s => Plan.ofClass catalog configuration s.name

def lineagesOf (catalog : Catalog) (configuration : Configuration) (sources : List ScriptSource) :
    Lineages := Lineages.ofScripts catalog (scriptsOf sources) (plansOf catalog configuration sources)

/-- Each class with its lineage. -/
def classesOf (catalog : Catalog) (configuration : Configuration) (sources : List ScriptSource) :
    List (ScriptClass × Lineage) :=
  (lineagesOf catalog configuration sources).classes.filterMap fun l =>
    (scriptsOf sources)[l.index]?.map fun s => (s, l)

/-- The bridges in the order of their classes, then the proxies. -/
def unitsOf (catalog : Catalog) (configuration : Configuration) (sources : List ScriptSource) :
    List GeneratedUnit :=
  ((classesOf catalog configuration sources).filter fun x => x.2.emitted).map (fun x =>
      unit .bridge x.2.typeName
        (BridgeUnit.ofScript ⟨catalog, (scriptsOf sources).map ScriptClass.name⟩ x.1 x.2).text) ++
    (lineagesOf catalog configuration sources).usedEngineTypes.map fun name =>
      unit .proxy (proxyName name) (ProxyUnit.text catalog name)

/-- The messages about members that the bridges leave out. -/
def memberDiagnosticsOf (catalog : Catalog) (configuration : Configuration)
    (sources : List ScriptSource) : List Diagnostic :=
  ((classesOf catalog configuration sources).filter fun x => x.2.emitted).flatMap fun x =>
    (BridgeUnit.ofScript ⟨catalog, (scriptsOf sources).map ScriptClass.name⟩ x.1 x.2).diagnostics

theorem ofSources_skipped (catalog : Catalog) (configuration : Configuration)
    (sources : List ScriptSource) :
    (ofSources catalog configuration sources).skipped =
      ((readAll sources).filter fun r => r.class?.isNone).map ReadScript.path := rfl

theorem ofSources_diagnostics (catalog : Catalog) (configuration : Configuration)
    (sources : List ScriptSource) :
    (ofSources catalog configuration sources).diagnostics =
      (readAll sources).flatMap (fun r => r.faults.map (faultDiagnostic r.path)) ++
        (lineagesOf catalog configuration sources).diagnostics ++
        memberDiagnosticsOf catalog configuration sources :=
  congrArg (_ ++ ·) (List.flatMap_map _ _ _)

theorem ofSources_classes (catalog : Catalog) (configuration : Configuration)
    (sources : List ScriptSource) :
    (ofSources catalog configuration sources).classes =
      (classesOf catalog configuration sources).map fun x => report x.1 x.2 := rfl

theorem ofSources_proxies (catalog : Catalog) (configuration : Configuration)
    (sources : List ScriptSource) :
    (ofSources catalog configuration sources).proxies =
      (lineagesOf catalog configuration sources).usedEngineTypes := rfl

theorem ofSources_units (catalog : Catalog) (configuration : Configuration)
    (sources : List ScriptSource) :
    (ofSources catalog configuration sources).units =
      (unitsOf catalog configuration sources).mergeSort
        fun a b => notAfter a.fileName b.fileName := by
  simp only [ofSources, unitsOf, List.map_map]
  rfl

theorem getElem?_plansOf {i : Nat} {s : ScriptClass} (hs : (scriptsOf sources)[i]? = some s) :
    (plansOf catalog configuration sources)[i]? =
      some (Plan.ofClass catalog configuration s.name) := by
  rw [plansOf, List.getElem?_map, hs, Option.map_some]

/-! ### Reports -/

/-- The reported classes are the kept ones, each with the lineage of its place. -/
theorem classesOf_eq (catalog : Catalog) (configuration : Configuration)
    (sources : List ScriptSource) :
    classesOf catalog configuration sources =
      (Lineage.keptOf (scriptsOf sources) (plansOf catalog configuration sources)).zipIdx.map
        fun x => (x.1.script,
          Lineage.ofPlace
            (Lineage.keptOf (scriptsOf sources) (plansOf catalog configuration sources)).toArray
            (Lineage.edgesOf catalog (scriptsOf sources)
              (plansOf catalog configuration sources)) x.2 x.1) := by
  rw [classesOf, lineagesOf, Lineages.ofScripts_classes, List.filterMap_map,
    ← List.filterMap_eq_map]
  refine List.filterMap_congr fun x hx => ?_
  have hkept := Lineage.kept_of_getElem? (List.mk_mem_zipIdx_iff_getElem?.1 hx)
  simp only [Function.comp_apply, Lineage.ofPlace, hkept.script, Option.map_some]

theorem mem_classes_iff {r : ClassReport} :
    r ∈ (ofSources catalog configuration sources).classes ↔
      ∃ l ∈ (lineagesOf catalog configuration sources).classes,
        ∃ s, (scriptsOf sources)[l.index]? = some s ∧ r = report s l := by
  rw [ofSources_classes, List.mem_map]
  simp only [classesOf, List.mem_filterMap, Option.map_eq_some_iff]
  constructor
  · rintro ⟨-, ⟨l, hl, s, hs, rfl⟩, rfl⟩
    exact ⟨l, hl, s, hs, rfl⟩
  · rintro ⟨l, hl, s, hs, rfl⟩
    exact ⟨(s, l), ⟨l, hl, s, hs, rfl⟩, rfl⟩

theorem exists_report {l : Lineage} (hl : l ∈ (lineagesOf catalog configuration sources).classes) :
    ∃ s, (scriptsOf sources)[l.index]? = some s ∧
      report s l ∈ (ofSources catalog configuration sources).classes := by
  obtain ⟨s, p, hk, -⟩ := Lineages.kept_of_mem hl
  exact ⟨s, hk.script, mem_classes_iff.2 ⟨l, hl, s, hk.script, rfl⟩⟩

/-- Classes at two places have two names. -/
theorem name_ne_of_index_ne {l m : Lineage} {s t : ScriptClass}
    (hl : l ∈ (lineagesOf catalog configuration sources).classes)
    (hm : m ∈ (lineagesOf catalog configuration sources).classes)
    (hs : (scriptsOf sources)[l.index]? = some s) (ht : (scriptsOf sources)[m.index]? = some t)
    (hne : m.index ≠ l.index) : t.name ≠ s.name := by
  obtain ⟨s', p, hks, -⟩ := Lineages.kept_of_mem hl
  obtain ⟨t', q, hkt, -⟩ := Lineages.kept_of_mem hm
  cases hks.script.symm.trans hs
  cases hkt.script.symm.trans ht
  rcases Nat.lt_or_gt_of_ne hne with h | h
  · exact hks.first _ h _ ht
  · exact (hkt.first _ h _ hs).symm

/-! ### Units -/

/-- The kind of a unit, the name of its type and the name of its file. -/
def label (u : GeneratedUnit) : UnitKind × String × String := (u.kind, u.typeName, u.fileName)

def bridgeLabel (r : ClassReport) : UnitKind × String × String :=
  (.bridge, r.bridgeName, r.bridgeName ++ fileSuffix)

def proxyLabel (name : String) : UnitKind × String × String :=
  (.proxy, proxyName name, proxyName name ++ fileSuffix)

theorem map_label_unitsOf (catalog : Catalog) (configuration : Configuration)
    (sources : List ScriptSource) :
    (unitsOf catalog configuration sources).map label =
      ((ofSources catalog configuration sources).classes.filter (·.emitted)).map bridgeLabel ++
        (ofSources catalog configuration sources).proxies.map proxyLabel := by
  rw [unitsOf, List.map_append, List.map_map, List.map_map, ofSources_classes, ofSources_proxies,
    List.filter_map, List.map_map]
  rfl

theorem units_perm (catalog : Catalog) (configuration : Configuration)
    (sources : List ScriptSource) :
    ((ofSources catalog configuration sources).units.map label).Perm
      (((ofSources catalog configuration sources).classes.filter (·.emitted)).map bridgeLabel ++
        (ofSources catalog configuration sources).proxies.map proxyLabel) := by
  rw [ofSources_units, ← map_label_unitsOf]
  exact (List.mergeSort_perm _ _).map label

theorem exists_unit_of_label {l : UnitKind × String × String}
    (h : l ∈ ((ofSources catalog configuration sources).classes.filter (·.emitted)).map
      bridgeLabel ++ (ofSources catalog configuration sources).proxies.map proxyLabel) :
    ∃ u ∈ (ofSources catalog configuration sources).units, label u = l :=
  List.mem_map.1 ((units_perm catalog configuration sources).mem_iff.2 h)

theorem notAfter_iff {a b : String} : notAfter a b = true ↔ a ≤ b := by
  rw [notAfter, Bool.not_eq_true', decide_eq_false_iff_not, not_lt]

theorem notAfter_trans (a b c : String) (hab : notAfter a b = true) (hbc : notAfter b c = true) :
    notAfter a c = true :=
  notAfter_iff.2 (le_trans (notAfter_iff.1 hab) (notAfter_iff.1 hbc))

theorem notAfter_total (a b : String) : (notAfter a b || notAfter b a) = true := by
  rw [Bool.or_eq_true, notAfter_iff, notAfter_iff]
  exact le_total a b

/-- Sorting by a name puts the names in order. -/
theorem pairwise_mergeSort_notAfter {α : Type} (name : α → String) (l : List α) :
    (l.mergeSort fun a b => notAfter (name a) (name b)).Pairwise fun a b => name a ≤ name b := by
  refine (List.pairwise_mergeSort ?_ ?_ _).imp fun h => notAfter_iff.1 h
  · exact fun a b c => notAfter_trans (name a) (name b) (name c)
  · exact fun a b => notAfter_total (name a) (name b)

theorem units_sorted (catalog : Catalog) (configuration : Configuration)
    (sources : List ScriptSource) :
    (ofSources catalog configuration sources).units.Pairwise
      fun u v => u.fileName ≤ v.fileName := by
  rw [ofSources_units]
  exact pairwise_mergeSort_notAfter GeneratedUnit.fileName _

theorem exists_bridge_unit {r : ClassReport}
    (hr : r ∈ (ofSources catalog configuration sources).classes) (hemitted : r.emitted = true) :
    ∃ u ∈ (ofSources catalog configuration sources).units, u.kind = .bridge ∧
      u.typeName = r.bridgeName := by
  obtain ⟨u, hu, hlabel⟩ := exists_unit_of_label (List.mem_append_left _
    (List.mem_map_of_mem (f := bridgeLabel) (List.mem_filter.2 ⟨hr, hemitted⟩)))
  exact ⟨u, hu, congrArg Prod.fst hlabel, congrArg (fun l => l.2.1) hlabel⟩

theorem exists_proxy_unit {name : String}
    (h : name ∈ (ofSources catalog configuration sources).proxies) :
    ∃ u ∈ (ofSources catalog configuration sources).units, u.kind = .proxy ∧
      u.typeName = proxyName name := by
  obtain ⟨u, hu, hlabel⟩ := exists_unit_of_label (List.mem_append_right _
    (List.mem_map_of_mem (f := proxyLabel) h))
  exact ⟨u, hu, congrArg Prod.fst hlabel, congrArg (fun l => l.2.1) hlabel⟩

/-! ### Base references -/

/-- The base of an emitted class is unresolved, or a proxy or a bridge of the same run. -/
def BaseWritten (g : Generation) (r : ClassReport) : Prop :=
  (r.baseName = unresolvedName ∧ r.status = .unresolvedBase) ∨
    (∃ name ∈ g.proxies, r.baseName = proxyName name ∧
      ∃ u ∈ g.units, u.kind = .proxy ∧ u.typeName = proxyName name) ∨
    ∃ r' ∈ g.classes, r'.className ≠ r.className ∧ r'.emitted = true ∧
      r.baseName = qualifiedName r'.bridgeName r'.namespaceName ∧
      ∃ u ∈ g.units, u.kind = .bridge ∧ u.typeName = r'.bridgeName

theorem baseWritten_of_emitted {r : ClassReport}
    (hr : r ∈ (ofSources catalog configuration sources).classes) (hemitted : r.emitted = true) :
    BaseWritten (ofSources catalog configuration sources) r := by
  obtain ⟨l, hl, s, hs, rfl⟩ := mem_classes_iff.1 hr
  rcases Lineages.baseName_closed hl hemitted with hopen | ⟨name, hname, hbase⟩ |
    ⟨m, hm, hne, hm', hbase⟩
  · exact .inl hopen
  · exact .inr (.inl ⟨name, hname, hbase, exists_proxy_unit hname⟩)
  · obtain ⟨t, ht, hreport⟩ := exists_report hm
    exact .inr (.inr ⟨report t m, hreport, name_ne_of_index_ne hl hm hs ht hne, hm', hbase,
      exists_bridge_unit hreport hm'⟩)

theorem mem_proxies_iff {name : String} :
    name ∈ (ofSources catalog configuration sources).proxies ↔
      ∃ r ∈ (ofSources catalog configuration sources).classes,
        r.emitted = true ∧ r.status = .resolved ∧ r.rootName = name := by
  rw [ofSources_proxies, Lineages.mem_usedEngineTypes_iff]
  constructor
  · rintro ⟨l, hl, h⟩
    obtain ⟨s, -, hreport⟩ := exists_report hl
    exact ⟨_, hreport, h⟩
  · rintro ⟨r, hr, h⟩
    obtain ⟨l, hl, s, -, rfl⟩ := mem_classes_iff.1 hr
    exact ⟨l, hl, h⟩

theorem exists_class_on_proxy {name : String}
    (h : name ∈ (ofSources catalog configuration sources).proxies) :
    ∃ r ∈ (ofSources catalog configuration sources).classes,
      r.emitted = true ∧ r.baseName = proxyName name := by
  obtain ⟨l, hl, hemitted, -, -, hbase⟩ := Lineages.exists_baseName_eq_proxyName h
  obtain ⟨s, -, hreport⟩ := exists_report hl
  exact ⟨_, hreport, hemitted, hbase⟩

/-- A run is closed under the bases that it writes, and writes no proxy without need. -/
theorem ofSources_closed (catalog : Catalog) (configuration : Configuration)
    (sources : List ScriptSource) :
    let g := ofSources catalog configuration sources
    (∀ r ∈ g.classes, r.emitted = true → BaseWritten g r) ∧
    g.proxies.Pairwise (· < ·) ∧
    (∀ name, name ∈ g.proxies ↔
      ∃ r ∈ g.classes, r.emitted = true ∧ r.status = .resolved ∧ r.rootName = name) ∧
    (∀ name ∈ g.proxies, ∃ r ∈ g.classes, r.emitted = true ∧ r.baseName = proxyName name) ∧
    (g.units.Pairwise fun u v => u.fileName ≤ v.fileName) ∧
    (g.units.map label).Perm
      ((g.classes.filter (·.emitted)).map bridgeLabel ++ g.proxies.map proxyLabel) := by
  intro g
  refine ⟨fun r hr hemitted => baseWritten_of_emitted hr hemitted, ?_, fun name => mem_proxies_iff,
    fun name => exists_class_on_proxy, units_sorted _ _ _, units_perm _ _ _⟩
  rw [show g.proxies = _ from ofSources_proxies catalog configuration sources]
  exact sortOnce_increasing _

end ScriptBridge.Generation
