import ScriptBridge.Proofs.Lineage.Ancestors

/-! The answers about a class, as its ancestors give them. The root is the engine type of the last
edge, the base is the nearest ancestor with a bridge, and a class on a circle has neither. Proved:
each of these answers follows from the edge of the class and from the answers about the class
that the edge leads to. -/

namespace ScriptBridge.Lineage

open Relation (TransGen ReflTransGen)

/-! ### Answers from ancestors -/

/-- The plan at `p` asks for a bridge. -/
def isPlanned (kept : Array Candidate) (p : Nat) : Bool := (kept[p]?.map (·.plan.emitted)).getD false

/-- A bridge is written for the class at `p`: its plan asks for one, and it is off circles. -/
def isBridged (kept : Array Candidate) (edges : Array Edge) (p : Nat) : Bool :=
  isPlanned kept p && !onCircle edges p

/-- The plan of the nearest ancestor with a bridge. -/
def nearestBridge (kept : Array Candidate) (edges : Array Edge) (p : Nat) : Option Plan :=
  ((ancestors edges p).find? (isBridged kept edges)).bind fun q => kept[q]?.map Candidate.plan

/-- The engine type that the ancestors of `p` end in. -/
def rootOf (edges : Array Edge) (p : Nat) : Option String :=
  match lastEdge edges p with
  | some (.engine name) => some name
  | _ => none

/-- What the bridge at `p` extends, and whether that is a proxy. -/
def baseNaming (kept : Array Candidate) (edges : Array Edge) (p : Nat) : String × Bool :=
  if onCircle edges p then (unresolvedName, false)
  else match nearestBridge kept edges p, rootOf edges p with
    | some base, _ => (qualifiedName base.typeName base.namespaceName, false)
    | none, some name => (proxyName name, true)
    | none, none => (unresolvedName, false)

def statusOf (edges : Array Edge) (p : Nat) : LineageStatus :=
  if onCircle edges p then .cyclic
  else if (rootOf edges p).isSome then .resolved else .unresolvedBase

/-- The lineage of the class at `p`. -/
def ofPlace (kept : Array Candidate) (edges : Array Edge) (p : Nat) (c : Candidate) : Lineage where
  index := c.index
  typeName := c.plan.typeName
  namespaceName := c.plan.namespaceName
  baseName := (baseNaming kept edges p).1
  rootName := (rootOf edges p).getD unresolvedName
  baseIsNative := (baseNaming kept edges p).2
  status := statusOf edges p
  emitted := !onCircle edges p && c.plan.emitted

/-- The class that is declared at `p`. -/
def nameOf (kept : Array Candidate) (p : Nat) : String := (kept[p]?.map (·.script.name)).getD ""

/-- The problem of a class off every circle. -/
def problemOf (catalog : Catalog) (kept : Array Candidate) (edges : Array Edge) (p : Nat) :
    Option LineageProblem :=
  match edges[p]? with
  | none => none
  | some (.engine name) => if catalog.isEngineType name then none else some (.undescribedRoot name)
  | some (.missing base) => some (.missingBase (nameOf kept p) base)
  | some (.script base) =>
    if onCircle edges base then some (.baseOnCircle (nameOf kept p) (nameOf kept base))
    else match rootOf edges base with
      | some _ => none
      | none => some (.baseUnresolved (nameOf kept p) (nameOf kept base))

variable {kept : Array Candidate} {edges : Array Edge} {p q : Nat} {name : String}

/-! ### Roots -/

theorem rootOf_eq_some_iff : rootOf edges p = some name ↔ lastEdge edges p = some (.engine name) := by
  unfold rootOf
  split
  · next h => simp [h]
  · next h => simpa using h name

theorem rootOf_eq_some_iff_exists (hc : Closed edges) :
    rootOf edges p = some name ↔
      ∃ q, ReflTransGen (Extends edges) p q ∧ edges[q]? = some (.engine name) := by
  rw [rootOf_eq_some_iff, lastEdge_eq_engine_iff hc]

theorem extends_iff : Extends edges p q ↔ edges[p]? = some (.script q) := by
  unfold Extends baseOf
  split <;> simp_all

/-- A circle leads to no engine type. -/
theorem rootOf_of_onCircle (hc : Closed edges) (h : onCircle edges p = true) :
    rootOf edges p = none := by
  cases hr : rootOf edges p with
  | none => rfl
  | some name =>
    obtain ⟨q, hpq, hq⟩ := (rootOf_eq_some_iff_exists hc).1 hr
    have hcirc := onCircle_of_reflTransGen extends_functional ((onCircle_iff hc).1 h) hpq
    obtain ⟨m, hm, -⟩ := TransGen.head'_iff.1 hcirc
    rw [extends_iff, hq] at hm
    cases hm

theorem rootOf_of_engine (hc : Closed edges) (h : edges[p]? = some (.engine name)) :
    rootOf edges p = some name := (rootOf_eq_some_iff_exists hc).2 ⟨p, .refl, h⟩

/-- Without an edge to a class, nothing but this edge counts. -/
theorem rootOf_of_missing (hc : Closed edges) (h : edges[p]? = some (.missing name)) :
    rootOf edges p = none := by
  rw [Option.eq_none_iff_forall_ne_some]
  intro root hroot
  obtain ⟨q, hpq, hq⟩ := (rootOf_eq_some_iff_exists hc).1 hroot
  rcases hpq.cases_head with rfl | ⟨m, hm, -⟩
  · rw [h] at hq
    cases hq
  · rw [extends_iff, h] at hm
    cases hm

theorem rootOf_of_extends (hc : Closed edges) (h : Extends edges p q) :
    rootOf edges p = rootOf edges q := by
  refine Option.ext fun name => ?_
  rw [rootOf_eq_some_iff_exists hc, rootOf_eq_some_iff_exists hc]
  constructor
  · rintro ⟨r, hpr, hr⟩
    rcases hpr.cases_head with rfl | ⟨m, hm, hmr⟩
    · rw [extends_iff, hr] at h
      cases h
    · exact ⟨r, extends_functional p m q hm h ▸ hmr, hr⟩
  · rintro ⟨r, hqr, hr⟩
    exact ⟨r, .head h hqr, hr⟩

/-! ### Bases -/

theorem exists_of_isBridged (h : isBridged kept edges p = true) : ∃ c, kept[p]? = some c := by
  cases hc : kept[p]? with
  | none => simp [isBridged, isPlanned, hc] at h
  | some c => exact ⟨c, rfl⟩

theorem nearestBridge_cases (kept : Array Candidate) (hc : Closed edges) (p : Nat) :
    (∃ q c, nearestBridge kept edges p = some c.plan ∧ kept[q]? = some c ∧
        FirstAlong (Extends edges) (isBridged kept edges · = true) p q) ∨
      (nearestBridge kept edges p = none ∧
        ∀ q, TransGen (Extends edges) p q → isBridged kept edges q = false) := by
  unfold nearestBridge
  cases hf : (ancestors edges p).find? (isBridged kept edges) with
  | none =>
    refine .inr ⟨rfl, fun q hq => ?_⟩
    exact Bool.eq_false_iff.2 (List.find?_eq_none.1 hf q ((mem_ancestors_iff hc).2 hq))
  | some q =>
    have hfirst := firstAlong_of_find? hf
    obtain ⟨c, hq⟩ := exists_of_isBridged hfirst.holds
    exact .inl ⟨q, c, by rw [Option.bind_some, hq, Option.map_some], hq, hfirst⟩

/-- The nearest bridge is that of the base class, or else the one nearest to that class. -/
theorem nearestBridge_of_extends (kept : Array Candidate) (hc : Closed edges) (h : Extends edges p q) :
    nearestBridge kept edges p =
      if isBridged kept edges q then kept[q]?.map Candidate.plan else nearestBridge kept edges q := by
  rcases nearestBridge_cases kept hc p with ⟨r, c, hp, hr, hfirst⟩ | ⟨hp, hnone⟩
  · rw [hp]
    cases hfirst with
    | here hstep hb =>
      obtain rfl := extends_functional p r q hstep h
      rw [if_pos hb, hr, Option.map_some]
    | further hstep hb hfirst =>
      next m =>
      obtain rfl := extends_functional p m q hstep h
      rw [if_neg hb]
      rcases nearestBridge_cases kept hc m with ⟨r', c', hm, hr', hfirst'⟩ | ⟨-, hnone⟩
      · obtain rfl := hfirst.unique extends_functional hfirst'
        cases hr.symm.trans hr'
        exact hm.symm
      · exact absurd hfirst.holds (by simp [hnone r hfirst.transGen])
  · rw [hp, if_neg (by simp [hnone q (.single h)])]
    rcases nearestBridge_cases kept hc q with ⟨r, c, -, -, hfirst⟩ | ⟨hq, -⟩
    · exact absurd hfirst.holds (by simp [hnone r (.head h hfirst.transGen)])
    · exact hq.symm

theorem nearestBridge_of_not_extends (kept : Array Candidate) (hc : Closed edges)
    (h : ∀ q, ¬Extends edges p q) :
    nearestBridge kept edges p = none := by
  rcases nearestBridge_cases kept hc p with ⟨q, _, -, -, hfirst⟩ | ⟨hp, -⟩
  · obtain ⟨m, hm, -⟩ := TransGen.head'_iff.1 hfirst.transGen
    exact absurd hm (h m)
  · exact hp

/-- What a circle leads to is on it, so none of it has a bridge. -/
theorem nearestBridge_of_onCircle (kept : Array Candidate) (hc : Closed edges)
    (h : onCircle edges p = true) : nearestBridge kept edges p = none := by
  rcases nearestBridge_cases kept hc p with ⟨q, _, -, -, hfirst⟩ | ⟨hp, -⟩
  · have hq : onCircle edges q = true := (onCircle_iff hc).2 (onCircle_of_reflTransGen
      extends_functional ((onCircle_iff hc).1 h) hfirst.transGen.to_reflTransGen)
    have hb := hfirst.holds
    rw [isBridged, hq, Bool.not_true, Bool.and_false] at hb
    cases hb
  · exact hp

theorem not_extends_of_engine (h : edges[p]? = some (.engine name)) : ¬Extends edges p q := by
  rw [extends_iff, h]
  exact fun h => Edge.noConfusion (Option.some.inj h)

theorem not_extends_of_missing (h : edges[p]? = some (.missing name)) : ¬Extends edges p q := by
  rw [extends_iff, h]
  exact fun h => Edge.noConfusion (Option.some.inj h)

/-! ### Status -/

theorem statusOf_eq_cyclic_iff : statusOf edges p = .cyclic ↔ onCircle edges p = true := by
  unfold statusOf
  split_ifs <;> simp_all

theorem statusOf_eq_resolved_iff (hc : Closed edges) :
    statusOf edges p = .resolved ↔ (rootOf edges p).isSome = true := by
  unfold statusOf
  split_ifs with hon hr
  · simp [rootOf_of_onCircle hc hon]
  · simp [hr]
  · simp [hr]

end ScriptBridge.Lineage
