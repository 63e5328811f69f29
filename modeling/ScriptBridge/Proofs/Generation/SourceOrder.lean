import ScriptBridge.Proofs.Generation.BaseReferences

/-! The order of the sources. A run sorts the scripts by their paths first and takes
everything else from the sorted list. Proved: if no two scripts share a path, the order in
which they are given does not matter. -/

namespace ScriptBridge.Generation

variable {xs ys : List ScriptSource}

/-- Scripts with distinct paths have one order. -/
theorem mergeSort_eq_of_perm (hperm : xs.Perm ys) (hpaths : (xs.map ScriptSource.path).Nodup) :
    (xs.mergeSort fun a b => notAfter a.path b.path) =
      ys.mergeSort fun a b => notAfter a.path b.path := by
  have hx := List.mergeSort_perm xs fun a b => notAfter a.path b.path
  have hy := List.mergeSort_perm ys fun a b => notAfter a.path b.path
  refine List.Perm.eq_of_pairwise ?_ (pairwise_mergeSort_notAfter ScriptSource.path xs)
    (pairwise_mergeSort_notAfter ScriptSource.path ys) (hx.trans (hperm.trans hy.symm))
  intro a b ha hb hab hba
  have ha : a ∈ xs := hx.mem_iff.1 ha
  have hb : b ∈ xs := hperm.mem_iff.2 (hy.mem_iff.1 hb)
  exact List.inj_on_of_nodup_map hpaths ha hb (le_antisymm hab hba)

/-- A run on scripts with distinct paths does not depend on their order. -/
theorem ofSources_perm (catalog : Catalog) (configuration : Configuration) (hperm : xs.Perm ys)
    (hpaths : (xs.map ScriptSource.path).Nodup) :
    ofSources catalog configuration xs = ofSources catalog configuration ys := by
  unfold ofSources
  rw [mergeSort_eq_of_perm hperm hpaths]

/-- A class and its base may be given in either order. -/
theorem ofSources_perm_base :
    let hero : ScriptSource := { path := "res://hero.gd", text := "class_name Hero extends Foe\n" }
    let foe : ScriptSource := { path := "res://foe.gd", text := "class_name Foe extends Node\n" }
    [hero, foe].Perm [foe, hero] ∧ ([hero, foe].map ScriptSource.path).Nodup ∧
      ofSources {} {} [hero, foe] = ofSources {} {} [foe, hero] := by
  intro hero foe
  have hperm : [hero, foe].Perm [foe, hero] := .swap foe hero []
  have hpaths : ([hero, foe].map ScriptSource.path).Nodup := by decide
  exact ⟨hperm, hpaths, ofSources_perm {} {} hperm hpaths⟩

end ScriptBridge.Generation
