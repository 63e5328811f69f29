import ScriptBridge.Proofs.Lineage.Resolution
import ScriptBridge.Proofs.Sorted

/-! The bases that lineages name among themselves. Extending is a function that stops at
engine types, so each chain has a last class with a bridge. Proved: the base of a class
with a bridge is unresolved, or the proxy of a used engine type, or the bridge of another
class; and each used engine type is the base of a class with a bridge. -/

namespace ScriptBridge

open Relation (TransGen ReflTransGen)

namespace Inheritance

variable {catalog : Catalog} {scripts : List ScriptClass} {plans : List Plan} {i j k : Nat}
  {name : String}

theorem Extends.kept_left (h : Extends scripts plans i j) : ∃ s p, Kept scripts plans i s p := by
  cases h with
  | named hi _ _ => exact ⟨_, _, hi⟩
  | path hi _ _ _ _ => exact ⟨_, _, hi⟩

theorem Extends.kept_right (h : Extends scripts plans i j) : ∃ s p, Kept scripts plans j s p := by
  cases h with
  | named _ hj _ => exact ⟨_, _, hj⟩
  | path _ hj _ _ _ => exact ⟨_, _, hj⟩

/-- A script extends one script at most. -/
theorem extends_functional (i j k : Nat) (h : Extends scripts plans i j)
    (h' : Extends scripts plans i k) : j = k := by
  obtain ⟨s, p, hi⟩ := h.kept_left
  obtain ⟨x, hx⟩ := Lineage.exists_getElem?_of_kept hi
  obtain ⟨y, d, hd, rfl, hxy⟩ := Lineage.exists_of_extends {} hx h
  obtain ⟨z, e, he, rfl, hxz⟩ := Lineage.exists_of_extends {} hx h'
  obtain rfl := Lineage.extends_functional x y z hxy hxz
  exact congrArg Candidate.index (Option.some.inj (hd.symm.trans he))

/-- A script that extends an engine type extends no script. -/
theorem ExtendsEngine.not_extends (h : ExtendsEngine catalog scripts plans i name) :
    ¬Extends scripts plans i j := by
  intro h'
  obtain ⟨s, p, hi⟩ := h'.kept_left
  obtain ⟨x, hx⟩ := Lineage.exists_getElem?_of_kept hi
  obtain ⟨y, d, hd, -, hxy⟩ := Lineage.exists_of_extends catalog hx h'
  have hedge := Lineage.edgesOf_eq_engine_iff.2 ⟨_, hx, h⟩
  simp [Lineage.Extends, Lineage.baseOf, hedge] at hxy

theorem EndsIn.kept (h : EndsIn catalog scripts plans i name) : ∃ s p, Kept scripts plans i s p := by
  obtain ⟨j, hij, hj⟩ := h
  rcases Relation.ReflTransGen.cases_head hij with rfl | ⟨m, him, -⟩
  · cases hj with
    | root hi _ => exact ⟨_, _, hi⟩
    | kind hi _ => exact ⟨_, _, hi⟩
    | named hi _ _ _ => exact ⟨_, _, hi⟩
  · exact him.kept_left

/-- Where a chain ends in an engine type, no class on it has a bridge, or there is a last
class that has one. -/
theorem exists_last_bridge (h : EndsIn catalog scripts plans i name) :
    (∀ j, ReflTransGen (Extends scripts plans) i j → ¬HasBridge scripts plans j) ∨
      ∃ k, HasBridge scripts plans k ∧ EndsIn catalog scripts plans k name ∧
        ∀ j, TransGen (Extends scripts plans) k j → ¬HasBridge scripts plans j := by
  obtain ⟨e, hie, he⟩ := h
  induction hie using ReflTransGen.head_induction_on with
  | refl =>
    have hstop (j : Nat) : ¬TransGen (Extends scripts plans) e j := by
      intro hj
      obtain ⟨m, hm, -⟩ := TransGen.head'_iff.1 hj
      exact he.not_extends hm
    by_cases hb : HasBridge scripts plans e
    · exact .inr ⟨e, hb, ⟨e, .refl, he⟩, fun j hj => absurd hj (hstop j)⟩
    · refine .inl fun j hj => ?_
      rcases Relation.reflTransGen_iff_eq_or_transGen.1 hj with rfl | hj
      · exact hb
      · exact absurd hj (hstop j)
  | @head i m him hme ih =>
    rcases ih with hnone | hlast
    · have hbehind (j : Nat) (hj : TransGen (Extends scripts plans) i j) :
          ¬HasBridge scripts plans j := by
        obtain ⟨m', hm', hj⟩ := TransGen.head'_iff.1 hj
        exact hnone j (extends_functional i m m' him hm' ▸ hj)
      by_cases hb : HasBridge scripts plans i
      · exact .inr ⟨i, hb, ⟨e, .head him hme, he⟩, hbehind⟩
      · refine .inl fun j hj => ?_
        rcases Relation.reflTransGen_iff_eq_or_transGen.1 hj with rfl | hj
        · exact hb
        · exact hbehind j hj
    · exact .inr hlast

end Inheritance

namespace Lineages

variable {catalog : Catalog} {scripts : List ScriptClass} {plans : List Plan} {l : Lineage}

theorem mem_usedEngineTypes_iff {r : Lineages} {name : String} :
    name ∈ r.usedEngineTypes ↔
      ∃ l ∈ r.classes, l.emitted = true ∧ l.status = .resolved ∧ l.rootName = name := by
  simp [usedEngineTypes, and_assoc]

theorem kept_of_mem (hl : l ∈ (ofScripts catalog scripts plans).classes) :
    ∃ s p, Inheritance.Kept scripts plans l.index s p ∧ l.typeName = p.typeName ∧
      l.namespaceName = p.namespaceName := by
  obtain ⟨x, c, hx, rfl⟩ := mem_classes_iff.1 hl
  simp only [Lineage.ofPlace]
  exact ⟨_, _, Lineage.kept_of_getElem? hx, rfl, rfl⟩

theorem exists_mem_of_kept {i : Nat} {s : ScriptClass} {p : Plan}
    (h : Inheritance.Kept scripts plans i s p) :
    ∃ l ∈ (ofScripts catalog scripts plans).classes, l.index = i ∧ l.typeName = p.typeName ∧
      l.namespaceName = p.namespaceName := by
  obtain ⟨l, hl, rfl⟩ := List.mem_map.1 (mem_classes_index_iff.2 ⟨s, p, h⟩)
  obtain ⟨s', p', h', hp⟩ := kept_of_mem hl
  cases h.plan.symm.trans h'.plan
  exact ⟨l, hl, rfl, hp⟩

/-- The base of a class with a bridge is unresolved, or a proxy, or the bridge of another class. -/
theorem baseName_closed (hl : l ∈ (ofScripts catalog scripts plans).classes)
    (hemitted : l.emitted = true) :
    (l.baseName = unresolvedName ∧ l.status = .unresolvedBase) ∨
      (∃ name ∈ (ofScripts catalog scripts plans).usedEngineTypes, l.baseName = proxyName name) ∨
      ∃ m ∈ (ofScripts catalog scripts plans).classes, m.index ≠ l.index ∧ m.emitted = true ∧
        l.baseName = qualifiedName m.typeName m.namespaceName := by
  have hoff := ((emitted_iff_hasBridge hl).1 hemitted).1
  rcases baseName_cases hl hoff with ⟨j, p, hfirst, hp, hname, -⟩ | ⟨-, hproxy, hopen⟩
  · obtain ⟨m, hm, hmj⟩ := TransGen.tail'_iff.1 hfirst.transGen
    obtain ⟨t, q, hj⟩ := hmj.kept_right
    obtain ⟨l', hl', rfl, htype, hspace⟩ := exists_mem_of_kept hj
    cases hp.symm.trans hj.plan
    refine .inr (.inr ⟨l', hl', fun heq => hoff ?_, (emitted_iff_hasBridge hl').2 hfirst.holds, ?_⟩)
    · exact heq ▸ hfirst.transGen
    · rw [hname, htype, hspace]
  · by_cases hends : ∃ name, Inheritance.EndsIn catalog scripts plans l.index name
    · obtain ⟨name, hends⟩ := hends
      obtain ⟨hstatus, hroot⟩ := (resolved_iff_endsIn hl).2 hends
      exact .inr (.inl ⟨name, mem_usedEngineTypes_iff.2 ⟨l, hl, hemitted, hstatus, hroot⟩,
        (hproxy name hends).1⟩)
    · refine .inl ⟨(hopen fun name h => hends ⟨name, h⟩).1, ?_⟩
      cases hstatus : l.status with
      | resolved => exact absurd ⟨_, (resolved_iff_endsIn hl).1 ⟨hstatus, rfl⟩⟩ hends
      | unresolvedBase => rfl
      | cyclic => exact absurd ((status_eq_cyclic_iff hl).1 hstatus) hoff

/-- Each used engine type has a class whose bridge extends its proxy. -/
theorem exists_baseName_eq_proxyName {name : String}
    (h : name ∈ (ofScripts catalog scripts plans).usedEngineTypes) :
    ∃ l ∈ (ofScripts catalog scripts plans).classes, l.emitted = true ∧ l.status = .resolved ∧
      l.rootName = name ∧ l.baseName = proxyName name := by
  obtain ⟨l, hl, hemitted, hresolved⟩ := mem_usedEngineTypes_iff.1 h
  have hends := (resolved_iff_endsIn hl).1 hresolved
  rcases Inheritance.exists_last_bridge hends with hnone | ⟨k, hb, hends, hlast⟩
  · exact absurd ((emitted_iff_hasBridge hl).1 hemitted) (hnone l.index .refl)
  · obtain ⟨s, p, hk⟩ := hends.kept
    obtain ⟨l', hl', rfl, -⟩ := exists_mem_of_kept hk
    obtain ⟨hstatus, hroot⟩ := (resolved_iff_endsIn hl').2 hends
    refine ⟨l', hl', (emitted_iff_hasBridge hl').2 hb, hstatus, hroot, ?_⟩
    rcases baseName_cases hl' hb.1 with ⟨j, -, hfirst, -⟩ | ⟨-, hproxy, -⟩
    · exact absurd hfirst.holds (hlast j hfirst.transGen)
    · exact (hproxy name hends).1

end Lineages

end ScriptBridge
