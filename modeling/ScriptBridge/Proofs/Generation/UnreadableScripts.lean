import Mathlib
import ScriptBridge.Proofs.Generation.BaseReferences
import ScriptBridge.Proofs.Script.WalkToEnd

/-! Scripts without a class. Sorting is stable, so one more script only takes its place
among the others, whatever paths they share. A run brings something only if reading comes to an
end with each of the scripts. Proved: with a script that is read to its end and yields no class, a
run brings something exactly if it does without it; the script leaves the units, the classes and
the proxies as they are, and adds its path to the skipped ones and its faults to the messages. -/

namespace ScriptBridge.Generation

/-! ### Sorting one more -/

section Sorting

variable {α : Type} (name : α → String)

theorem exists_mergeSort_cons (a : α) (l : List α) :
    ∃ before after,
      ((a :: l).mergeSort fun a b => notAfter (name a) (name b)) = before ++ a :: after ∧
      (l.mergeSort fun a b => notAfter (name a) (name b)) = before ++ after ∧
      (∀ b ∈ before, (!notAfter (name a) (name b)) = true) ∧
      ∀ b ∈ after, notAfter (name a) (name b) = true := by
  have htrans (a b c : α) : notAfter (name a) (name b) = true →
      notAfter (name b) (name c) = true → notAfter (name a) (name c) = true :=
    notAfter_trans (name a) (name b) (name c)
  have htotal (a b : α) : (notAfter (name a) (name b) || notAfter (name b) (name a)) = true :=
    notAfter_total (name a) (name b)
  obtain ⟨before, after, hcons, hl, hbefore⟩ := List.mergeSort_cons htrans htotal a l
  have hsorted := pairwise_mergeSort_notAfter name (a :: l)
  rw [hcons] at hsorted
  refine ⟨before, after, hcons, hl, hbefore, fun b hb => notAfter_iff.2 ?_⟩
  exact (List.pairwise_cons.1 (List.pairwise_append.1 hsorted).2.1).1 b hb

/-- Sorting puts the first element behind those that come before it by name, and before
all others. -/
theorem mergeSort_cons_eq_filter (a : α) (l : List α) :
    ((a :: l).mergeSort fun a b => notAfter (name a) (name b)) =
      (l.mergeSort fun a b => notAfter (name a) (name b)).filter
          (fun b => !notAfter (name a) (name b)) ++
        a :: (l.mergeSort fun a b => notAfter (name a) (name b)).filter
          fun b => notAfter (name a) (name b) := by
  obtain ⟨before, after, hcons, hl, hbefore, hafter⟩ := exists_mergeSort_cons name a l
  have hbefore' : before.filter (fun b => notAfter (name a) (name b)) = [] :=
    List.filter_eq_nil_iff.2 fun b hb => by simpa using hbefore b hb
  have hafter' : after.filter (fun b => !notAfter (name a) (name b)) = [] :=
    List.filter_eq_nil_iff.2 fun b hb => by simp [hafter b hb]
  rw [hcons, hl, List.filter_append, List.filter_append, hbefore', hafter',
    List.filter_eq_self.2 hbefore, List.filter_eq_self.2 hafter, List.append_nil, List.nil_append]

/-- One more element takes its place in the sorted list, which is otherwise the same. -/
theorem exists_mergeSort_insert (xs ys : List α) (s : α) :
    ∃ before after,
      ((xs ++ ys).mergeSort fun a b => notAfter (name a) (name b)) = before ++ after ∧
      ((xs ++ s :: ys).mergeSort fun a b => notAfter (name a) (name b)) =
        before ++ s :: after := by
  induction xs with
  | nil =>
    obtain ⟨before, after, hwith, hwithout, -⟩ := exists_mergeSort_cons name s ys
    exact ⟨before, after, hwithout, hwith⟩
  | cons x xs ih =>
    obtain ⟨before, after, hwithout, hwith⟩ := ih
    simp only [List.cons_append, mergeSort_cons_eq_filter, hwithout, hwith, List.filter_append,
      List.filter_cons]
    -- `x` goes before `s` or behind it
    cases hx : notAfter (name x) (name s) with
    | true =>
      refine ⟨before.filter (fun b => !notAfter (name x) (name b)) ++
          after.filter (fun b => !notAfter (name x) (name b)) ++
          x :: before.filter fun b => notAfter (name x) (name b),
        after.filter fun b => notAfter (name x) (name b), ?_, ?_⟩ <;> simp
    | false =>
      refine ⟨before.filter fun b => !notAfter (name x) (name b),
        after.filter (fun b => !notAfter (name x) (name b)) ++
          x :: (before.filter (fun b => notAfter (name x) (name b)) ++
            after.filter fun b => notAfter (name x) (name b)), ?_, ?_⟩ <;> simp

end Sorting

/-! ### Runs with the same classes -/

section SameClasses

variable {sources sources' : List ScriptSource} (catalog : Catalog) (configuration : Configuration)

theorem lineagesOf_congr (h : scriptsOf sources = scriptsOf sources') :
    lineagesOf catalog configuration sources = lineagesOf catalog configuration sources' := by
  rw [lineagesOf, lineagesOf, plansOf, plansOf, h]

theorem classesOf_congr (h : scriptsOf sources = scriptsOf sources') :
    classesOf catalog configuration sources = classesOf catalog configuration sources' := by
  rw [classesOf, classesOf, lineagesOf_congr catalog configuration h, h]

theorem unitsOf_congr (h : scriptsOf sources = scriptsOf sources') :
    unitsOf catalog configuration sources = unitsOf catalog configuration sources' := by
  rw [unitsOf, unitsOf, classesOf_congr catalog configuration h,
    lineagesOf_congr catalog configuration h, h]

theorem memberDiagnosticsOf_congr (h : scriptsOf sources = scriptsOf sources') :
    memberDiagnosticsOf catalog configuration sources =
      memberDiagnosticsOf catalog configuration sources' := by
  rw [memberDiagnosticsOf, memberDiagnosticsOf, classesOf_congr catalog configuration h, h]

end SameClasses

/-! ### One more script -/

theorem exists_readAll_insert (xs ys : List ScriptSource) (s : ScriptSource) :
    ∃ before after, readAll (xs ++ ys) = before ++ after ∧
      readAll (xs ++ s :: ys) = before ++ readScript s :: after := by
  obtain ⟨before, after, hwithout, hwith⟩ := exists_mergeSort_insert ScriptSource.path xs ys s
  refine ⟨before.map readScript, after.map readScript, ?_, ?_⟩
  · rw [readAll, hwithout, List.map_append]
  · rw [readAll, hwith, List.map_append, List.map_cons]

/-- A script that yields no class, wherever it stands among the others, changes nothing but the
list of skipped scripts, where its path is put in, and the messages, where its faults are. -/
theorem ofSources_insert (catalog : Catalog) (configuration : Configuration)
    (xs ys : List ScriptSource) (s : ScriptSource)
    (hs : (ScriptClass.ofSource s.path s.text).1 = none) :
    let g := ofSources catalog configuration (xs ++ ys)
    let g' := ofSources catalog configuration (xs ++ s :: ys)
    g'.units = g.units ∧ g'.classes = g.classes ∧ g'.proxies = g.proxies ∧
    (∃ before after, g.skipped = before ++ after ∧ g'.skipped = before ++ s.path :: after) ∧
    ∃ before after, g.diagnostics = before ++ after ∧
      g'.diagnostics =
        before ++ (ScriptClass.ofSource s.path s.text).2.map (faultDiagnostic s.path) ++ after := by
  intro g g'
  obtain ⟨before, after, hwithout, hwith⟩ := exists_readAll_insert xs ys s
  have hnone : (readScript s).class? = none := hs
  have hscripts : scriptsOf (xs ++ s :: ys) = scriptsOf (xs ++ ys) := by
    rw [scriptsOf, scriptsOf, hwithout, hwith, List.filterMap_append, List.filterMap_append,
      List.filterMap_cons_none hnone]
  refine ⟨?_, ?_, ?_, ?_, ?_⟩
  · rw [ofSources_units, ofSources_units, unitsOf_congr catalog configuration hscripts]
  · rw [ofSources_classes, ofSources_classes, classesOf_congr catalog configuration hscripts]
  · rw [ofSources_proxies, ofSources_proxies, lineagesOf_congr catalog configuration hscripts]
  · refine ⟨(before.filter fun r => r.class?.isNone).map ReadScript.path,
      (after.filter fun r => r.class?.isNone).map ReadScript.path, ?_, ?_⟩
    · rw [ofSources_skipped, hwithout, List.filter_append, List.map_append]
    · rw [ofSources_skipped, hwith, List.filter_append,
        List.filter_cons_of_pos (by rw [hnone, Option.isNone_none]), List.map_append, List.map_cons]
      rfl
  · refine ⟨before.flatMap fun r => r.faults.map (faultDiagnostic r.path),
      (after.flatMap fun r => r.faults.map (faultDiagnostic r.path)) ++
        (lineagesOf catalog configuration (xs ++ ys)).diagnostics ++
        memberDiagnosticsOf catalog configuration (xs ++ ys), ?_, ?_⟩
    · rw [ofSources_diagnostics, hwithout, List.flatMap_append, List.append_assoc, List.append_assoc,
        List.append_assoc]
    · rw [ofSources_diagnostics, hwith, List.flatMap_append, List.flatMap_cons,
        lineagesOf_congr catalog configuration hscripts,
        memberDiagnosticsOf_congr catalog configuration hscripts]
      simp only [List.append_assoc]
      rfl

/-! ### Runs that come to an end -/

/-- A run over scripts brings `g`. All of them are read first; a run that does not come to the end
of one of them brings nothing. -/
def Brings (catalog : Catalog) (configuration : Configuration) (sources : List ScriptSource)
    (g : Generation) : Prop :=
  (∀ s ∈ sources, ∃ result, ScriptClass.Yields s.path s.text result) ∧
    g = ofSources catalog configuration sources

section Brings

variable {catalog : Catalog} {configuration : Configuration} {sources : List ScriptSource}

theorem exists_brings_iff :
    (∃ g, Brings catalog configuration sources g) ↔
      ∀ s ∈ sources, ∃ result, ScriptClass.Yields s.path s.text result :=
  ⟨fun ⟨_, hsources, _⟩ => hsources, fun hsources => ⟨_, hsources, rfl⟩⟩

/-- One hint with a semicolon outside brackets keeps a run over any scripts from its end. -/
theorem not_brings_of_semicolonIn {s : ScriptSource} (hs : s ∈ sources)
    (hhint : ∃ us ∈ Draft.hints { script := { path := s.path } } (Lexed.ofText s.text).tokens,
      Walk.SemicolonIn 0 us) (g : Generation) : ¬Brings catalog configuration sources g := by
  rintro ⟨hsources, -⟩
  obtain ⟨result, hresult⟩ := hsources s hs
  obtain ⟨us, hus, hsemicolon⟩ := hhint
  exact (ScriptClass.yields_iff.1 hresult).1 us hus hsemicolon

end Brings

/-- One more script that is read to its end and yields no class. Wherever it stands among the
others, a run with it brings something exactly if a run without it does. It changes nothing but the
list of skipped scripts, where its path is put in, and the messages, where its faults are. -/
theorem brings_insert (catalog : Catalog) (configuration : Configuration)
    (xs ys : List ScriptSource) (s : ScriptSource) (faults : List LocatedFault)
    (hs : ScriptClass.Yields s.path s.text (none, faults)) :
    ((∃ g', Brings catalog configuration (xs ++ s :: ys) g') ↔
      ∃ g, Brings catalog configuration (xs ++ ys) g) ∧
    ∀ g g', Brings catalog configuration (xs ++ ys) g →
      Brings catalog configuration (xs ++ s :: ys) g' →
      g'.units = g.units ∧ g'.classes = g.classes ∧ g'.proxies = g.proxies ∧
      (∃ before after, g.skipped = before ++ after ∧ g'.skipped = before ++ s.path :: after) ∧
      ∃ before after, g.diagnostics = before ++ after ∧
        g'.diagnostics = before ++ faults.map (faultDiagnostic s.path) ++ after := by
  have hread := (ScriptClass.yields_iff.1 hs).2
  constructor
  · rw [exists_brings_iff, exists_brings_iff, List.forall_mem_append, List.forall_mem_append,
      List.forall_mem_cons, and_iff_right (⟨_, hs⟩ : ∃ result, ScriptClass.Yields _ _ result)]
  · rintro g g' ⟨-, rfl⟩ ⟨-, rfl⟩
    have hinsert := ofSources_insert catalog configuration xs ys s (by rw [hread])
    rwa [hread] at hinsert

/-- A text that is no script is skipped, although another one at its path is read. -/
theorem brings_insert_garbled :
    let hero : ScriptSource := { path := "res://hero.gd", text := "class_name Hero\n" }
    let garbled : ScriptSource := { path := "res://hero.gd", text := "?" }
    let faults := (ScriptClass.ofSource garbled.path garbled.text).2
    ScriptClass.Yields garbled.path garbled.text (none, faults) ∧
    ∃ g g', Brings {} {} [hero] g ∧ Brings {} {} [hero, garbled] g' ∧
      g'.units = g.units ∧ g'.classes = g.classes ∧ g'.proxies = g.proxies ∧
      (∃ before after, g.skipped = before ++ after ∧
        g'.skipped = before ++ garbled.path :: after) ∧
      ∃ before after, g.diagnostics = before ++ after ∧
        g'.diagnostics = before ++ faults.map (faultDiagnostic garbled.path) ++ after := by
  intro hero garbled faults
  have hhints (s) (h : s = hero ∨ s = garbled) :
      Draft.hints { script := { path := s.path } } (Lexed.ofText s.text).tokens = [] := by
    rcases h with rfl | rfl <;> cbv
  have hnone : (ScriptClass.ofSource garbled.path garbled.text).1 = none := by cbv
  have hyields (s) (h : s = hero ∨ s = garbled) :
      ScriptClass.Yields s.path s.text (ScriptClass.ofSource s.path s.text) :=
    ScriptClass.yields_iff.2 ⟨by simp [hhints s h], rfl⟩
  have hgarbled : ScriptClass.Yields garbled.path garbled.text (none, faults) := by
    have h := hyields garbled (.inr rfl)
    rwa [← Prod.mk.eta (p := ScriptClass.ofSource garbled.path garbled.text), hnone] at h
  obtain ⟨hiff, hsame⟩ := brings_insert {} {} [hero] [] garbled faults hgarbled
  have hbrings : ∃ g, Brings {} {} [hero] g :=
    exists_brings_iff.2 (List.forall_mem_singleton.2 ⟨_, hyields hero (.inl rfl)⟩)
  obtain ⟨g, hg⟩ := hbrings
  obtain ⟨g', hg'⟩ := hiff.2 ⟨g, hg⟩
  exact ⟨hgarbled, g, g', hg, hg', hsame g g' hg hg'⟩

end ScriptBridge.Generation
