import ScriptBridge.Proofs.Generation.FileNames
import ScriptBridge.Proofs.Lineage.OtherPlans

/-! Runs that write bridges for existing project types only. Such a run has the plans of a
run for all classes, except that fewer of them ask for a bridge. Proved: it reports the same
classes, emits those of them that have a project type, needs no other proxies and leaves
messages out only with their bridges; and a bridge whose base is the same is written with the
same text. -/

namespace ScriptBridge

variable {catalog : Catalog} {configuration : Configuration} {sources : List ScriptSource}

/-! ### Plans -/

namespace Configuration

/-- Bridges for all classes. -/
def forAll (c : Configuration) : Configuration := { c with onlyExisting := false }

/-- Bridges for existing project types only. -/
def forExisting (c : Configuration) : Configuration := { c with onlyExisting := true }

end Configuration

theorem Plan.ofClass_forAll_emitted (catalog : Catalog) (configuration : Configuration)
    (className : String) : (ofClass catalog configuration.forAll className).emitted = true := by
  simp only [ofClass]
  split <;> rfl

/-- Only whether there is a bridge depends on the policy. -/
theorem Plan.ofClass_forExisting (catalog : Catalog) (configuration : Configuration)
    (className : String) :
    ofClass catalog configuration.forExisting className =
      { ofClass catalog configuration.forAll className with
        emitted := (catalog.findProjectType
          (ofClass catalog configuration.forAll className).typeName).isSome } := by
  unfold Configuration.forAll Configuration.forExisting ofClass
  dsimp only
  generalize (if configuration.appendSuffix then className ++ "Bridge" else className) = typeName
  cases h : catalog.findProjectType typeName with
  | some existing => simp only [h, Option.isSome_some]
  | none => simp only [h, Option.isSome_none, Bool.not_true]

namespace Generation

/-! ### Reports -/

/-- The same class in a run that writes bridges for existing project types only. -/
structure Narrowed (catalog : Catalog) (r r' : ClassReport) : Prop where
  scriptPath : r'.scriptPath = r.scriptPath
  className : r'.className = r.className
  bridgeName : r'.bridgeName = r.bridgeName
  namespaceName : r'.namespaceName = r.namespaceName
  rootName : r'.rootName = r.rootName
  status : r'.status = r.status
  emitted : r'.emitted = true ↔
    r.emitted = true ∧ (catalog.findProjectType r.bridgeName).isSome = true

/-- The classes of a run by the kept ones of a run under another configuration. -/
theorem classesOf_replan (catalog : Catalog) (configuration configuration' : Configuration)
    (sources : List ScriptSource) :
    let kept := Lineage.keptOf (scriptsOf sources) (plansOf catalog configuration sources)
    let plan := fun s : ScriptClass => Plan.ofClass catalog configuration' s.name
    classesOf catalog configuration' sources = kept.zipIdx.map fun x =>
      (x.1.script,
        Lineage.ofPlace (kept.map (Candidate.replan plan)).toArray
          (Lineage.edgesOf catalog (scriptsOf sources) (plansOf catalog configuration sources))
          x.2 (x.1.replan plan)) := by
  intro kept plan
  have hkept : Lineage.keptOf (scriptsOf sources) (plansOf catalog configuration' sources) =
      kept.map (Candidate.replan plan) := Lineage.keptOf_replan _ plan (scriptsOf sources)
  have hedges : Lineage.edgesOf catalog (scriptsOf sources) (plansOf catalog configuration' sources) =
      Lineage.edgesOf catalog (scriptsOf sources) (plansOf catalog configuration sources) :=
    Lineage.edgesOf_replan catalog _ plan (scriptsOf sources)
  rw [classesOf_eq, hkept, hedges, List.zipIdx_map, List.map_map]
  rfl

theorem forall₂_classesOf (catalog : Catalog) (configuration : Configuration)
    (sources : List ScriptSource) :
    List.Forall₂ (fun x x' => x'.1 = x.1 ∧ Narrowed catalog (report x.1 x.2) (report x'.1 x'.2))
      (classesOf catalog configuration.forAll sources)
      (classesOf catalog configuration.forExisting sources) := by
  rw [classesOf_eq, classesOf_replan catalog configuration.forAll, List.forall₂_map_left_iff,
    List.forall₂_map_right_iff, List.forall₂_same]
  rintro ⟨c, p⟩ hc
  have hkept := Lineage.kept_of_getElem? (List.mk_mem_zipIdx_iff_getElem?.1 hc)
  have hplan : c.plan = Plan.ofClass catalog configuration.forAll c.script.name :=
    Option.some.inj (hkept.plan.symm.trans (getElem?_plansOf hkept.script))
  have hall : c.plan.emitted = true := hplan ▸ Plan.ofClass_forAll_emitted _ _ _
  refine ⟨rfl, ?_⟩
  simp only [report, Lineage.ofPlace, Candidate.replan, Plan.ofClass_forExisting, ← hplan]
  exact
    { scriptPath := rfl
      className := rfl
      bridgeName := rfl
      namespaceName := rfl
      rootName := rfl
      status := rfl
      emitted := by rw [hall, Bool.and_true, Bool.and_eq_true] }

theorem forall₂_classes (catalog : Catalog) (configuration : Configuration)
    (sources : List ScriptSource) :
    List.Forall₂ (Narrowed catalog) (ofSources catalog configuration.forAll sources).classes
      (ofSources catalog configuration.forExisting sources).classes := by
  rw [ofSources_classes, ofSources_classes, List.forall₂_map_left_iff, List.forall₂_map_right_iff]
  exact (forall₂_classesOf catalog configuration sources).imp fun _ _ h => h.2

theorem exists_mem_of_forall₂ {α β : Type} {R : α → β → Prop} {l : List α} {l' : List β}
    (h : List.Forall₂ R l l') {b : β} (hb : b ∈ l') : ∃ a ∈ l, R a b := by
  induction h with
  | nil => cases hb
  | @cons a b' l l' hab _ ih =>
    rcases List.mem_cons.1 hb with rfl | hb
    · exact ⟨a, List.mem_cons_self, hab⟩
    · obtain ⟨a', ha', h⟩ := ih hb
      exact ⟨a', List.mem_cons_of_mem a ha', h⟩

theorem proxies_subset (catalog : Catalog) (configuration : Configuration)
    (sources : List ScriptSource) :
    (ofSources catalog configuration.forExisting sources).proxies ⊆
      (ofSources catalog configuration.forAll sources).proxies := by
  intro name hname
  obtain ⟨r', hr', hemitted, hstatus, hroot⟩ := mem_proxies_iff.1 hname
  obtain ⟨r, hr, h⟩ := exists_mem_of_forall₂ (forall₂_classes catalog configuration sources) hr'
  exact mem_proxies_iff.2
    ⟨r, hr, (h.emitted.1 hemitted).1, h.status ▸ hstatus, h.rootName ▸ hroot⟩

/-! ### Units -/

/-- The bridges of a name among the units of a run. -/
def bridgesNamed (g : Generation) (name : String) : List GeneratedUnit :=
  g.units.filter fun u => u.kind == .bridge && u.typeName == name

theorem filter_key_eq_singleton {α β : Type} [DecidableEq β] {key : α → β} {l : List α}
    (h : (l.map key).Nodup) {a : α} (ha : a ∈ l) : l.filter (fun b => key b == key a) = [a] := by
  induction l with
  | nil => cases ha
  | cons b l ih =>
    obtain ⟨hb, hl⟩ := List.nodup_cons.1 h
    rcases List.mem_cons.1 ha with rfl | ha
    · have hnone : l.filter (fun b => key b == key a) = [] := List.filter_eq_nil_iff.2
        fun c hc hkey => hb (List.mem_map.2 ⟨c, hc, by simpa using hkey⟩)
      rw [List.filter_cons_of_pos (by simp), hnone]
    · have hkey : (key b == key a) = false := beq_eq_false_iff_ne.2
        fun heq => hb (List.mem_map.2 ⟨a, ha, heq.symm⟩)
      rw [List.filter_cons_of_neg (by simp [hkey]), ih hl ha]

/-- An emitted class has one bridge. -/
theorem bridgesNamed_eq {x : ScriptClass × Lineage}
    (hx : x ∈ classesOf catalog configuration sources) (hemitted : x.2.emitted = true) :
    (ofSources catalog configuration sources).bridgesNamed x.2.typeName =
      [unit .bridge x.2.typeName
        (BridgeUnit.ofScript ⟨catalog, (scriptsOf sources).map ScriptClass.name⟩ x.1 x.2).text] := by
  have hnames : (((classesOf catalog configuration sources).filter fun y => y.2.emitted).map
      fun y => y.2.typeName).Nodup := by
    have h := bridgeNames_nodup catalog configuration sources
    rw [ofSources_classes, List.map_map] at h
    exact h.sublist (List.filter_sublist.map _)
  have hclass := filter_key_eq_singleton hnames (List.mem_filter.2 ⟨hx, hemitted⟩)
  have hproxies (names : List String) : (names.map fun name =>
      unit .proxy (proxyName name) (ProxyUnit.text catalog name)).filter
        (fun u => u.kind == .bridge && u.typeName == x.2.typeName) = [] :=
    List.filter_eq_nil_iff.2 fun u hu => by
      obtain ⟨name, -, rfl⟩ := List.mem_map.1 hu
      simp [unit]
  rw [← List.perm_singleton, bridgesNamed, ofSources_units]
  refine ((List.mergeSort_perm _ _).filter _).trans (.of_eq ?_)
  rw [unitsOf, List.filter_append, hproxies, List.append_nil, List.filter_map]
  exact congrArg (List.map _) hclass

/-- The text of a bridge does not depend on how its class was resolved but by the names of the
bridge and its base. -/
theorem ofScript_congr (scope : TypeScope) (s : ScriptClass) {l l' : Lineage}
    (htype : l'.typeName = l.typeName) (hspace : l'.namespaceName = l.namespaceName)
    (hbase : l'.baseName = l.baseName) (hnative : l'.baseIsNative = l.baseIsNative) :
    BridgeUnit.ofScript scope s l' = BridgeUnit.ofScript scope s l := by
  simp only [BridgeUnit.ofScript, BridgeUnit.preamble, BridgeUnit.ownMembers, htype, hspace, hbase,
    hnative]

/-! ### Messages -/

theorem flatMap_filter_sublist {α β : Type} {keep : α → Bool} {f : α → List β} {l l' : List α}
    (h : List.Forall₂ (fun a b => (keep b = true → keep a = true) ∧ f b = f a) l l') :
    ((l'.filter keep).flatMap f).Sublist ((l.filter keep).flatMap f) := by
  induction h with
  | nil => exact .slnil
  | @cons a b l l' hab _ ih =>
    cases hb : keep b with
    | true =>
      rw [List.filter_cons_of_pos hb, List.filter_cons_of_pos (hab.1 hb), List.flatMap_cons,
        List.flatMap_cons, hab.2]
      exact ih.append_left (f a)
    | false =>
      rw [List.filter_cons_of_neg (by simp [hb])]
      cases ha : keep a with
      | true =>
        rw [List.filter_cons_of_pos ha, List.flatMap_cons]
        exact ih.trans (List.sublist_append_right _ _)
      | false => rwa [List.filter_cons_of_neg (by simp [ha])]

theorem diagnostics_sublist (catalog : Catalog) (configuration : Configuration)
    (sources : List ScriptSource) :
    (ofSources catalog configuration.forExisting sources).diagnostics.Sublist
      (ofSources catalog configuration.forAll sources).diagnostics := by
  have hlineages : (lineagesOf catalog configuration.forExisting sources).diagnostics =
      (lineagesOf catalog configuration.forAll sources).diagnostics :=
    Lineages.diagnostics_replan catalog _ _ (scriptsOf sources)
  rw [ofSources_diagnostics, ofSources_diagnostics, hlineages]
  refine List.Sublist.append_left (flatMap_filter_sublist ?_) _
  refine (forall₂_classesOf catalog configuration sources).imp ?_
  rintro ⟨s, l⟩ ⟨s', l'⟩ ⟨rfl, h⟩
  have htype : l'.typeName = l.typeName := h.bridgeName
  refine ⟨fun hemitted => (h.emitted.1 hemitted).1, ?_⟩
  simp only [BridgeUnit.ofScript, htype]

/-! ### Both runs -/

theorem mem_classesOf {l : Lineage}
    (hl : l ∈ (lineagesOf catalog configuration sources).classes) {s : ScriptClass}
    (hs : (scriptsOf sources)[l.index]? = some s) :
    (s, l) ∈ classesOf catalog configuration sources :=
  List.mem_filterMap.2 ⟨l, hl, by rw [hs, Option.map_some]⟩

/-- The bridge of a class has the names of the plan. -/
theorem names_of_script {l : Lineage} {s : ScriptClass}
    (hl : l ∈ (lineagesOf catalog configuration sources).classes)
    (hs : (scriptsOf sources)[l.index]? = some s) :
    l.typeName = (Plan.ofClass catalog configuration s.name).typeName ∧
      l.namespaceName = (Plan.ofClass catalog configuration s.name).namespaceName := by
  obtain ⟨t, p, hk, hnames⟩ := Lineages.kept_of_mem hl
  cases hk.script.symm.trans hs
  cases hk.plan.symm.trans (getElem?_plansOf hs)
  exact hnames

/-- A run for existing types reports the classes of a run for all, emits those that have a type in
the project, and writes no proxy and no message that the other does not; a bridge that
extends the same in both runs is the same unit. -/
theorem ofSources_onlyExisting (catalog : Catalog) (configuration : Configuration)
    (sources : List ScriptSource) :
    let forAll := { configuration with onlyExisting := false }
    let forExisting := { configuration with onlyExisting := true }
    let g := ofSources catalog forAll sources
    let g' := ofSources catalog forExisting sources
    List.Forall₂ (Narrowed catalog) g.classes g'.classes ∧ g'.proxies ⊆ g.proxies ∧
    (∀ l ∈ (lineagesOf catalog forAll sources).classes,
      ∀ l' ∈ (lineagesOf catalog forExisting sources).classes, l'.index = l.index →
        l.emitted = true → l'.emitted = true →
        l'.baseName = l.baseName → l'.baseIsNative = l.baseIsNative →
        ∃ u, g.bridgesNamed l.typeName = [u] ∧ g'.bridgesNamed l.typeName = [u]) ∧
    g'.diagnostics.Sublist g.diagnostics := by
  intro forAll forExisting g g'
  refine ⟨forall₂_classes catalog configuration sources, proxies_subset catalog configuration sources,
    ?_, diagnostics_sublist catalog configuration sources⟩
  intro l hl l' hl' hindex hemitted hemitted' hbase hnative
  obtain ⟨s, hs, -⟩ := exists_report hl
  have hs' : (scriptsOf sources)[l'.index]? = some s := hindex ▸ hs
  obtain ⟨htype, hspace⟩ := names_of_script hl hs
  obtain ⟨htype', hspace'⟩ := names_of_script hl' hs'
  have hplan := Plan.ofClass_forExisting catalog configuration s.name
  have htypes : l'.typeName = l.typeName :=
    htype'.trans ((congrArg Plan.typeName hplan).trans htype.symm)
  have hspaces : l'.namespaceName = l.namespaceName :=
    hspace'.trans ((congrArg Plan.namespaceName hplan).trans hspace.symm)
  have hbridge' := bridgesNamed_eq (mem_classesOf hl' hs') hemitted'
  rw [ofScript_congr _ s htypes hspaces hbase hnative, htypes] at hbridge'
  exact ⟨_, bridgesNamed_eq (mem_classesOf hl hs) hemitted, hbridge'⟩

end Generation

end ScriptBridge
