import ScriptBridge.Proofs.Lineage.Closure
import ScriptBridge.Proofs.Lineage.Walks

/-! The problems of lineages, stated without any computation. A class is repeated, or on a circle,
or its base is missing, or on a circle, or without a root, or its root is not described. Proved:
a class that ends in an engine type through another class has none of them, and what is found for
a place off circles is the problem of the class at this place. -/

namespace ScriptBridge

open Relation (TransGen ReflTransGen)

namespace Inheritance

/-! ### Problems as relations -/

/-- The class that the script at `i` declares. -/
def nameAt (scripts : List ScriptClass) (i : Nat) : String := (scripts[i]?.map (·.name)).getD ""

/-- The path of the script at `i`. -/
def pathAt (scripts : List ScriptClass) (i : Nat) : String := (scripts[i]?.map (·.path)).getD ""

/-- The script at `i` names a base that is neither a script nor an engine type. -/
inductive MissesBase (catalog : Catalog) (scripts : List ScriptClass) (plans : List Plan) :
    Nat → String → Prop where
  | named {i : Nat} {s : ScriptClass} {p : Plan} {name : String} (hi : Kept scripts plans i s p)
      (h : s.base.map Prod.fst = some (.named name))
      (other : ∀ j t q, Kept scripts plans j t q → t.name ≠ name)
      (unknown : catalog.isEngineType name = false) : MissesBase catalog scripts plans i name
  | path {i : Nat} {s : ScriptClass} {p : Plan} {path : String} (hi : Kept scripts plans i s p)
      (h : s.base.map Prod.fst = some (.script path))
      (other : ∀ j t q, Kept scripts plans j t q → Lineage.slashed t.path ≠ Lineage.slashed path) :
      MissesBase catalog scripts plans i path

/-- The script at `i` has a plan, but its class is declared by the script at an earlier place. -/
inductive Repeats (scripts : List ScriptClass) (plans : List Plan) :
    Nat → LineageProblem → Prop where
  | intro {i j : Nat} {s t : ScriptClass} {p q : Plan} (script : scripts[i]? = some s)
      (plan : plans[i]? = some p) (hj : Kept scripts plans j t q) (earlier : j < i)
      (name : t.name = s.name) : Repeats scripts plans i (.duplicateClass s.name t.path)

/-- What is wrong with the lineage of the script at `i`. -/
inductive HasProblem (catalog : Catalog) (scripts : List ScriptClass) (plans : List Plan) :
    Nat → LineageProblem → Prop where
  | circle {i : Nat} {circle : List Nat} (h : i ∈ circle)
      (hcircle : Lineage.IsCircle (Extends scripts plans) circle) :
      HasProblem catalog scripts plans i (.circle (nameAt scripts i) (circle.map (nameAt scripts)))
  | missingBase {i : Nat} {base : String} (h : MissesBase catalog scripts plans i base) :
      HasProblem catalog scripts plans i (.missingBase (nameAt scripts i) base)
  | baseOnCircle {i j : Nat} (h : Extends scripts plans i j) (hoff : ¬OnCycle scripts plans i)
      (hon : OnCycle scripts plans j) :
      HasProblem catalog scripts plans i (.baseOnCircle (nameAt scripts i) (nameAt scripts j))
  | baseUnresolved {i j : Nat} (h : Extends scripts plans i j) (hoff : ¬OnCycle scripts plans j)
      (hend : ∀ name, ¬EndsIn catalog scripts plans j name) :
      HasProblem catalog scripts plans i (.baseUnresolved (nameAt scripts i) (nameAt scripts j))
  | undescribedRoot {i : Nat} {name : String} (h : ExtendsEngine catalog scripts plans i name)
      (hname : catalog.isEngineType name = false) :
      HasProblem catalog scripts plans i (.undescribedRoot name)

variable {catalog : Catalog} {scripts : List ScriptClass} {plans : List Plan} {i j : Nat}
  {s : ScriptClass} {p : Plan} {name : String}

theorem Kept.nameAt (h : Kept scripts plans i s p) : nameAt scripts i = s.name := by
  rw [Inheritance.nameAt, h.script, Option.map_some, Option.getD_some]

theorem Kept.pathAt (h : Kept scripts plans i s p) : pathAt scripts i = s.path := by
  rw [Inheritance.pathAt, h.script, Option.map_some, Option.getD_some]

theorem MissesBase.kept (h : MissesBase catalog scripts plans i name) :
    ∃ s p, Kept scripts plans i s p := by
  cases h with
  | named hi _ _ _ => exact ⟨_, _, hi⟩
  | path hi _ _ => exact ⟨_, _, hi⟩

/-- A script that misses its base extends no script. -/
theorem MissesBase.not_extends (h : MissesBase catalog scripts plans i name) :
    ¬Extends scripts plans i j := by
  intro h'
  cases h with
  | named hi hb other _ =>
    cases h' with
    | named hi' hj hb' =>
      cases hi.script.symm.trans hi'.script
      cases hb.symm.trans hb'
      exact other _ _ _ hj rfl
    | path hi' _ hb' _ _ =>
      cases hi.script.symm.trans hi'.script
      cases hb.symm.trans hb'
  | path hi hb other =>
    cases h' with
    | named hi' _ hb' =>
      cases hi.script.symm.trans hi'.script
      cases hb.symm.trans hb'
    | path hi' hj hb' hpath _ =>
      cases hi.script.symm.trans hi'.script
      cases hb.symm.trans hb'
      exact other _ _ _ hj hpath

theorem OnCycle.exists_extends (h : OnCycle scripts plans i) : ∃ j, Extends scripts plans i j := by
  obtain ⟨j, hj, -⟩ := TransGen.head'_iff.1 h
  exact ⟨j, hj⟩

theorem OnCycle.of_extends (h : OnCycle scripts plans i) (hij : Extends scripts plans i j) :
    OnCycle scripts plans j :=
  Lineage.onCircle_of_reflTransGen extends_functional h (.single hij)

/-- A circle leads to no engine type. -/
theorem EndsIn.not_onCycle (h : EndsIn catalog scripts plans i name) :
    ¬OnCycle scripts plans i := by
  intro hon
  obtain ⟨e, hie, he⟩ := h
  have hone : OnCycle scripts plans e := Lineage.onCircle_of_reflTransGen extends_functional hon hie
  obtain ⟨j, hj⟩ := hone.exists_extends
  exact he.not_extends hj

theorem EndsIn.of_extends (h : EndsIn catalog scripts plans i name)
    (hij : Extends scripts plans i j) : EndsIn catalog scripts plans j name := by
  obtain ⟨e, hie, he⟩ := h
  rcases Relation.ReflTransGen.cases_head hie with rfl | ⟨m, him, hme⟩
  · exact absurd hij he.not_extends
  · exact ⟨e, extends_functional i m j him hij ▸ hme, he⟩

theorem HasProblem.kept {problem : LineageProblem}
    (h : HasProblem catalog scripts plans i problem) : ∃ s p, Kept scripts plans i s p := by
  cases h with
  | circle h hcircle =>
    obtain ⟨j, hj⟩ := OnCycle.exists_extends (hcircle.transGen h)
    exact hj.kept_left
  | missingBase h => exact h.kept
  | baseOnCircle h => exact h.kept_left
  | baseUnresolved h => exact h.kept_left
  | undescribedRoot h => exact EndsIn.kept ⟨i, .refl, h⟩

/-- A class that is repeated does not count. -/
theorem Repeats.not_kept {problem : LineageProblem} (h : Repeats scripts plans i problem) :
    ¬Kept scripts plans i s p := by
  intro hi
  obtain ⟨hscript, -, hj, hlt, hname⟩ := h
  cases hscript.symm.trans hi.script
  exact hi.first _ hlt _ hj.script hname

/-- A class with a script for its base that ends in an engine type has no problem. -/
theorem EndsIn.not_hasProblem {problem : LineageProblem}
    (hends : EndsIn catalog scripts plans i name) (hij : Extends scripts plans i j) :
    ¬HasProblem catalog scripts plans i problem := by
  intro h
  cases h with
  | circle h hcircle => exact hends.not_onCycle (hcircle.transGen h)
  | missingBase h => exact h.not_extends hij
  | baseOnCircle h _ hon => exact (hends.of_extends h).not_onCycle hon
  | baseUnresolved h _ hend => exact hend name (hends.of_extends h)
  | undescribedRoot h => exact h.not_extends hij

/-- The class at `i` is on a circle, or misses its base, or has a base without a root, or has a
root that is not described. -/
def Reported (catalog : Catalog) (scripts : List ScriptClass) (plans : List Plan) (i : Nat)
    (code : String) : Prop :=
  (code = "GDB-E3102" ∧ OnCycle scripts plans i) ∨
  (code = "GDB-W3103" ∧ ∃ base, MissesBase catalog scripts plans i base) ∨
  (code = "GDB-W3104" ∧ ¬OnCycle scripts plans i ∧ ∃ j, Extends scripts plans i j ∧
    (OnCycle scripts plans j ∨ ∀ name, ¬EndsIn catalog scripts plans j name)) ∨
  (code = "GDB-W3105" ∧ ∃ name, ExtendsEngine catalog scripts plans i name ∧
    catalog.isEngineType name = false)

theorem HasProblem.reported {problem : LineageProblem}
    (h : HasProblem catalog scripts plans i problem) :
    Reported catalog scripts plans i problem.code := by
  cases h with
  | circle h hcircle => exact .inl ⟨rfl, hcircle.transGen h⟩
  | missingBase h => exact .inr (.inl ⟨rfl, _, h⟩)
  | baseOnCircle h hoff hon => exact .inr (.inr (.inl ⟨rfl, hoff, _, h, .inl hon⟩))
  | baseUnresolved h hoff hend =>
    exact .inr (.inr (.inl ⟨rfl, fun hon => hoff (hon.of_extends h), _, h, .inr hend⟩))
  | undescribedRoot h hname => exact .inr (.inr (.inr ⟨rfl, _, h, hname⟩))

theorem Reported.code_of_onCycle {code : String} (h : Reported catalog scripts plans i code)
    (hon : OnCycle scripts plans i) : code = "GDB-E3102" := by
  obtain ⟨j, hij⟩ := hon.exists_extends
  rcases h with ⟨rfl, -⟩ | ⟨-, base, h⟩ | ⟨-, hoff, -⟩ | ⟨-, name, h, -⟩
  · rfl
  · exact absurd hij h.not_extends
  · exact absurd hon hoff
  · exact absurd hij h.not_extends

/-- What is reported of a class off circles is a problem that it has. -/
theorem Reported.exists_hasProblem {code : String} (h : Reported catalog scripts plans i code)
    (hoff : ¬OnCycle scripts plans i) :
    ∃ problem, HasProblem catalog scripts plans i problem ∧ problem.code = code := by
  rcases h with ⟨-, hon⟩ | ⟨rfl, base, h⟩ | ⟨rfl, -, j, hij, h⟩ | ⟨rfl, name, h, hname⟩
  · exact absurd hon hoff
  · exact ⟨_, .missingBase h, rfl⟩
  · by_cases hon : OnCycle scripts plans j
    · exact ⟨_, .baseOnCircle hij hoff hon, rfl⟩
    · exact ⟨_, .baseUnresolved hij hon (h.resolve_left hon), rfl⟩
  · exact ⟨_, .undescribedRoot h hname, rfl⟩

end Inheritance

namespace Lineage

open Inheritance (Kept MissesBase HasProblem Repeats nameAt pathAt OnCycle EndsIn)

variable {catalog : Catalog} {scripts : List ScriptClass} {plans : List Plan}
  {x y i : Nat} {c d : Candidate} {s : ScriptClass} {p : Plan} {problem : LineageProblem}
  {path : List Nat}

/-! ### Classes off circles -/

theorem edgeAmong_eq_missing_iff (hc : Kept scripts plans c.index c.script c.plan) {name : String} :
    edgeAmong catalog scripts plans c.script = .missing name ↔
      MissesBase catalog scripts plans c.index name := by
  constructor
  · intro h
    unfold edgeAmong edgeOf at h
    split at h
    · cases h
    · cases h
    · next base hb =>
      split at h
      · cases h
      · next hidx =>
        split at h
        · cases h
        · next hk =>
          cases h
          exact .named hc hb (idxOf?_name_eq_none_iff.1 hidx) (Bool.not_eq_true _ ▸ hk)
    · next path hb =>
      split at h
      · cases h
      · next hidx =>
        cases h
        exact .path hc hb (idxOf?_path_eq_none_iff.1 hidx)
  · intro h
    cases h with
    | named hi hb hn hk =>
      cases hi.script.symm.trans hc.script
      simp [edgeAmong, edgeOf, hb, idxOf?_name_eq_none_iff.2 hn, hk]
    | path hi hb hn =>
      cases hi.script.symm.trans hc.script
      simp [edgeAmong, edgeOf, hb, idxOf?_path_eq_none_iff.2 hn]

theorem getElem?_edgesOf_of_kept (catalog : Catalog) (hx : (keptOf scripts plans)[x]? = some c) :
    (edgesOf catalog scripts plans)[x]? = some (edgeAmong catalog scripts plans c.script) := by
  rw [getElem?_edgesOf, hx, Option.map_some]

theorem nameOf_keptOf (hx : (keptOf scripts plans)[x]? = some c) :
    nameOf (keptOf scripts plans).toArray x = nameAt scripts c.index := by
  rw [nameOf, List.getElem?_toArray, hx, (kept_of_getElem? hx).nameAt]
  rfl

/-- The edge of a class that extends the script at `j` leads to the place of this script. -/
theorem exists_edgeAmong_of_extends (catalog : Catalog)
    (hc : Kept scripts plans c.index c.script c.plan) {j : Nat}
    (h : Inheritance.Extends scripts plans c.index j) :
    ∃ y d, (keptOf scripts plans)[y]? = some d ∧ d.index = j ∧
      edgeAmong catalog scripts plans c.script = .script y := by
  obtain ⟨t, q, hj⟩ := h.kept_right
  obtain ⟨y, hy⟩ := exists_getElem?_of_kept hj
  exact ⟨y, _, hy, rfl, (edgeAmong_eq_script_iff hc).2 ⟨_, hy, h⟩⟩

theorem hasProblem_of_problemOf (hx : (keptOf scripts plans)[x]? = some c)
    (hoff : ¬OnCycle scripts plans c.index)
    (h : problemOf catalog (keptOf scripts plans).toArray (edgesOf catalog scripts plans) x =
      some problem) : HasProblem catalog scripts plans c.index problem := by
  have hc := kept_of_getElem? hx
  simp only [problemOf, getElem?_edgesOf_of_kept catalog hx, nameOf_keptOf hx] at h
  cases hkind : edgeAmong catalog scripts plans c.script with
  | engine name =>
    rw [hkind] at h
    dsimp only at h
    split_ifs at h with hknown
    cases h
    exact .undescribedRoot ((edgeAmong_eq_engine_iff hc).1 hkind) (Bool.not_eq_true _ ▸ hknown)
  | missing base =>
    rw [hkind] at h
    cases h
    exact .missingBase ((edgeAmong_eq_missing_iff hc).1 hkind)
  | script y =>
    obtain ⟨d, hy, hext⟩ := (edgeAmong_eq_script_iff hc).1 hkind
    rw [hkind] at h
    dsimp only at h
    rw [nameOf_keptOf hy] at h
    split_ifs at h with hon
    · cases h
      exact .baseOnCircle hext hoff ((onCircle_edgesOf_iff catalog hy).1 hon)
    · split at h
      · cases h
      · next hend =>
        cases h
        rw [onCircle_edgesOf_iff catalog hy] at hon
        exact .baseUnresolved hext hon fun name hname =>
          absurd ((rootOf_edgesOf_iff hy).2 hname) (by simp [hend])

theorem problemOf_of_hasProblem (hx : (keptOf scripts plans)[x]? = some c)
    (hoff : ¬OnCycle scripts plans c.index) (h : HasProblem catalog scripts plans c.index problem) :
    problemOf catalog (keptOf scripts plans).toArray (edgesOf catalog scripts plans) x =
      some problem := by
  have hc := kept_of_getElem? hx
  simp only [problemOf, getElem?_edgesOf_of_kept catalog hx, nameOf_keptOf hx]
  cases h with
  | circle h hcircle => exact absurd (hcircle.transGen h) hoff
  | missingBase h => rw [(edgeAmong_eq_missing_iff hc).2 h]
  | baseOnCircle h _ hon =>
    obtain ⟨y, d, hy, rfl, hkind⟩ := exists_edgeAmong_of_extends catalog hc h
    simp only [hkind, nameOf_keptOf hy, (onCircle_edgesOf_iff catalog hy).2 hon, if_true]
  | baseUnresolved h hoffBase hend =>
    obtain ⟨y, d, hy, rfl, hkind⟩ := exists_edgeAmong_of_extends catalog hc h
    have hon : onCircle (edgesOf catalog scripts plans) y = false := by
      rw [← Bool.not_eq_true, onCircle_edgesOf_iff catalog hy]
      exact hoffBase
    simp only [hkind, nameOf_keptOf hy, hon, Bool.false_eq_true, if_false]
    split
    · next hroot => exact absurd ((rootOf_edgesOf_iff hy).1 hroot) (hend _)
    · rfl
  | undescribedRoot h hknown =>
    simp only [(edgeAmong_eq_engine_iff hc).2 h, hknown, Bool.false_eq_true, if_false]

/-- Off circles, a class has the problem that is found for its place. -/
theorem problemOf_eq_some_iff (hx : (keptOf scripts plans)[x]? = some c)
    (hoff : ¬OnCycle scripts plans c.index) :
    problemOf catalog (keptOf scripts plans).toArray (edgesOf catalog scripts plans) x =
        some problem ↔ HasProblem catalog scripts plans c.index problem :=
  ⟨hasProblem_of_problemOf hx hoff, problemOf_of_hasProblem hx hoff⟩

end Lineage

end ScriptBridge
