import Mathlib
import ScriptBridge.Proofs.Generation.BaseReferences

/-! Names of generated files. Classes have distinct names, and so have their bridges; the
proxies are those of distinct engine types. Proved: the files of a run have distinct names
exactly if no bridge is written under the name of a proxy of the run, and always if the names
of bridges are extended. -/

namespace ScriptBridge

/-! ### Names of bridges -/

theorem Plan.ofClass_typeName (catalog : Catalog) (configuration : Configuration)
    (className : String) :
    (ofClass catalog configuration className).typeName =
      if configuration.appendSuffix then className ++ "Bridge" else className := by
  simp only [ofClass]
  split <;> rfl

theorem Plan.ofClass_typeName_inj {catalog : Catalog} {configuration : Configuration}
    {name name' : String} :
    (ofClass catalog configuration name).typeName =
      (ofClass catalog configuration name').typeName ↔ name = name' := by
  rw [ofClass_typeName, ofClass_typeName]
  split
  · exact String.append_left_inj "Bridge"
  · exact Iff.rfl

theorem proxyName_inj {name name' : String} : proxyName name = proxyName name' ↔ name = name' :=
  String.append_left_inj "Proxy"

namespace Generation

variable {catalog : Catalog} {configuration : Configuration} {sources : List ScriptSource}

/-- The bridge of a class is named after the class. -/
theorem typeName_of_script {l : Lineage} {s : ScriptClass}
    (hl : l ∈ (lineagesOf catalog configuration sources).classes)
    (hs : (scriptsOf sources)[l.index]? = some s) :
    l.typeName = (Plan.ofClass catalog configuration s.name).typeName := by
  obtain ⟨t, p, hk, htype, -⟩ := Lineages.kept_of_mem hl
  cases hk.script.symm.trans hs
  cases hk.plan.symm.trans (getElem?_plansOf hs)
  exact htype

theorem bridgeNames_nodup (catalog : Catalog) (configuration : Configuration)
    (sources : List ScriptSource) :
    ((ofSources catalog configuration sources).classes.map ClassReport.bridgeName).Nodup := by
  have hindex : ((lineagesOf catalog configuration sources).classes).Pairwise
      fun l m => l.index < m.index := by
    rw [← List.pairwise_map, lineagesOf, Lineages.classes_index]
    exact Lineage.keptOf_index_increasing _ _
  rw [ofSources_classes, List.map_map, List.Nodup, List.pairwise_map, classesOf,
    List.pairwise_filterMap]
  refine hindex.imp_of_mem fun {l m} hl hm hlt x hx y hy => ?_
  obtain ⟨s, hs, rfl⟩ := Option.map_eq_some_iff.1 hx
  obtain ⟨t, ht, rfl⟩ := Option.map_eq_some_iff.1 hy
  have hne : t.name ≠ s.name := name_ne_of_index_ne hl hm hs ht (Nat.ne_of_gt hlt)
  intro heq
  have heq : l.typeName = m.typeName := heq
  rw [typeName_of_script hl hs, typeName_of_script hm ht, Plan.ofClass_typeName_inj] at heq
  exact hne heq.symm

theorem proxies_nodup (catalog : Catalog) (configuration : Configuration)
    (sources : List ScriptSource) : (ofSources catalog configuration sources).proxies.Nodup := by
  rw [ofSources_proxies]
  exact (sortOnce_increasing _).imp ne_of_lt

/-! ### Names of files -/

theorem fileNames_perm (catalog : Catalog) (configuration : Configuration)
    (sources : List ScriptSource) :
    ((ofSources catalog configuration sources).units.map GeneratedUnit.fileName).Perm
      ((((ofSources catalog configuration sources).classes.filter (·.emitted)).map
            ClassReport.bridgeName ++
          (ofSources catalog configuration sources).proxies.map proxyName).map
        (· ++ fileSuffix)) := by
  have hperm := (units_perm catalog configuration sources).map fun x => x.2.2
  rw [List.map_map, List.map_append, List.map_map, List.map_map] at hperm
  rw [List.map_append, List.map_map, List.map_map]
  exact hperm

/-- The files have distinct names exactly if no bridge is written under the name of a proxy. -/
theorem nodup_fileNames_iff (catalog : Catalog) (configuration : Configuration)
    (sources : List ScriptSource) :
    ((ofSources catalog configuration sources).units.map GeneratedUnit.fileName).Nodup ↔
      ∀ r ∈ (ofSources catalog configuration sources).classes, r.emitted = true →
        ∀ name ∈ (ofSources catalog configuration sources).proxies,
          r.bridgeName ≠ proxyName name := by
  have hbridges : (((ofSources catalog configuration sources).classes.filter (·.emitted)).map
      ClassReport.bridgeName).Nodup :=
    (bridgeNames_nodup catalog configuration sources).sublist (List.filter_sublist.map _)
  have hproxies : ((ofSources catalog configuration sources).proxies.map proxyName).Nodup :=
    (proxies_nodup catalog configuration sources).map fun _ _ => proxyName_inj.1
  have hsuffix : Function.Injective fun name : String => name ++ fileSuffix :=
    fun _ _ => (String.append_left_inj fileSuffix).1
  rw [(fileNames_perm catalog configuration sources).nodup_iff, List.nodup_map_iff hsuffix,
    List.nodup_append]
  simp only [hbridges, hproxies, true_and, List.forall_mem_map, List.mem_filter, and_imp]

/-- With an extended name, no bridge is named like a proxy. -/
theorem bridgeName_ne_proxyName (hsuffix : configuration.appendSuffix = true) {r : ClassReport}
    (hr : r ∈ (ofSources catalog configuration sources).classes) (name : String) :
    r.bridgeName ≠ proxyName name := by
  obtain ⟨l, hl, s, hs, rfl⟩ := mem_classes_iff.1 hr
  have hname : l.typeName = s.name ++ "Bridge" := by
    rw [typeName_of_script hl hs, Plan.ofClass_typeName, if_pos hsuffix]
  intro heq
  have heq : l.typeName = name ++ "Proxy" := heq
  rw [hname] at heq
  have hlast := congrArg (fun t : String => t.toList.getLast?) heq
  simp [String.toList_append, List.getLast?_append] at hlast

/-- The files of a run have distinct names exactly if no bridge is written under the name of a
proxy of the run, and always if the names of bridges are extended. -/
theorem fileNames_nodup (catalog : Catalog) (configuration : Configuration)
    (sources : List ScriptSource) :
    let g := ofSources catalog configuration sources
    ((g.units.map GeneratedUnit.fileName).Nodup ↔
      ∀ r ∈ g.classes, r.emitted = true → ∀ name ∈ g.proxies, r.bridgeName ≠ proxyName name) ∧
    (configuration.appendSuffix = true → (g.units.map GeneratedUnit.fileName).Nodup) := by
  intro g
  refine ⟨nodup_fileNames_iff catalog configuration sources, fun hsuffix => ?_⟩
  rw [nodup_fileNames_iff]
  exact fun r hr _ name _ => bridgeName_ne_proxyName hsuffix hr name

/-- A class on nodes that is named like the proxy of nodes. -/
def proxyLikeSource : ScriptSource :=
  { path := "res://node_proxy.gd", text := "class_name NodeProxy\nextends Node\n" }

/-- The bridge of that class and the proxy that it extends are to be the same file. -/
theorem fileNames_proxyLike :
    (ofSources {} {} [proxyLikeSource]).units.map GeneratedUnit.fileName =
      ["NodeProxy.g.cs", "NodeProxy.g.cs"] := by
  have hclasses : ((ofSources {} {} [proxyLikeSource]).classes.filter (·.emitted)).map
      ClassReport.bridgeName = ["NodeProxy"] := by
    rw [ofSources_classes]
    cbv
  have hproxies : (ofSources {} {} [proxyLikeSource]).proxies.map proxyName = ["NodeProxy"] := by
    rw [ofSources_proxies]
    cbv
  have hfiles : (["NodeProxy"] ++ ["NodeProxy"]).map (· ++ fileSuffix) =
      List.replicate 2 "NodeProxy.g.cs" := by decide
  have hperm := fileNames_perm {} {} [proxyLikeSource]
  rw [hclasses, hproxies, hfiles] at hperm
  exact List.perm_replicate.1 hperm

theorem exists_not_nodup_fileNames :
    ¬∀ (catalog : Catalog) (configuration : Configuration) (sources : List ScriptSource),
      ((ofSources catalog configuration sources).units.map GeneratedUnit.fileName).Nodup := by
  intro h
  have hfiles := h {} {} [proxyLikeSource]
  rw [fileNames_proxyLike] at hfiles
  exact absurd hfiles (by decide)

end Generation

end ScriptBridge
