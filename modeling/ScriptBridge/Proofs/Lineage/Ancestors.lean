import Mathlib.Data.Fintype.Pigeonhole
import Mathlib.Logic.Relation
import ScriptBridge.Bridge.Lineage

/-! Ancestors, as places that edges lead to. Following an edge is a partial function on places,
and a walk that reaches a place reaches it in at most as many steps as there are places.
Proved: the computed ancestors are the places that edges lead to, a place is on a
circle if edges lead from it back to it, the last edge is an edge to an engine type
exactly if some walk ends in that edge, and the first ancestor with a property is
the first along the edges. -/

namespace ScriptBridge.Lineage

open Relation (TransGen ReflTransGen)

/-- The place that the edge from `place` leads to. -/
def baseOf (edges : Array Edge) (place : Nat) : Option Nat :=
  match edges[place]? with
  | some (.script base) => some base
  | _ => none

/-- The first `count` places that the edges lead to from `place`. -/
def follow (edges : Array Edge) : Nat → Nat → List Nat
  | 0, _ => []
  | count + 1, place =>
    match baseOf edges place with
    | some base => base :: follow edges count base
    | none => []

/-- The ancestors of `place`, the nearest first. No walk without repetition is longer;
one that runs into a circle goes on along it. -/
def ancestors (edges : Array Edge) (place : Nat) : List Nat := follow edges edges.size place

/-- A place is on a circle if it is among its own ancestors. -/
def onCircle (edges : Array Edge) (place : Nat) : Bool := (ancestors edges place).contains place

/-- The edge of the last ancestor, which leads to a class only if there is a circle. -/
def lastEdge (edges : Array Edge) (place : Nat) : Option Edge :=
  edges[(ancestors edges place).getLastD place]?

/-- The edge from `p` leads to `q`. -/
def Extends (edges : Array Edge) (p q : Nat) : Prop := baseOf edges p = some q

/-- No edge leads out of the places. -/
def Closed (edges : Array Edge) : Prop := ∀ p q, Extends edges p q → q < edges.size

/-- `q` is the first place with `B` behind `p` along `r`. -/
inductive FirstAlong {α : Type*} (r : α → α → Prop) (B : α → Prop) : α → α → Prop where
  | here {p q : α} (h : r p q) (hq : B q) : FirstAlong r B p q
  | further {p m q : α} (h : r p m) (hm : ¬B m) (hq : FirstAlong r B m q) : FirstAlong r B p q

variable {edges : Array Edge} {p q : Nat}

/-! ### Walks -/

/-- The place that `k` edges lead to. -/
def climb (edges : Array Edge) : Nat → Nat → Option Nat
  | 0, p => some p
  | k + 1, p => (baseOf edges p).bind (climb edges k)

theorem climb_add (a b : Nat) (p : Nat) :
    climb edges (a + b) p = (climb edges a p).bind (climb edges b) := by
  induction a generalizing p with
  | zero => simp [climb]
  | succ a ih =>
    rw [Nat.succ_add]
    simp only [climb, Option.bind_assoc]
    exact congrArg _ (funext ih)

theorem climb_isSome_of_le {a b : Nat} (hab : a ≤ b) (h : (climb edges b p).isSome) :
    (climb edges a p).isSome := by
  obtain ⟨c, rfl⟩ := Nat.exists_eq_add_of_le hab
  rw [climb_add] at h
  cases ha : climb edges a p with
  | none => simp [ha] at h
  | some m => rfl

theorem climb_succ_lt_size (hc : Closed edges) {k : Nat} (h : climb edges (k + 1) p = some q) :
    q < edges.size := by
  rw [climb_add] at h
  obtain ⟨m, -, hm⟩ := Option.bind_eq_some_iff.1 h
  obtain ⟨b, hb, hq⟩ := Option.bind_eq_some_iff.1 hm
  have hbq : b = q := Option.some.inj hq
  exact hbq ▸ hc m b hb

theorem reflTransGen_of_climb {k : Nat} (h : climb edges k p = some q) :
    ReflTransGen (Extends edges) p q := by
  induction k generalizing p with
  | zero =>
    cases h
    exact .refl
  | succ k ih =>
    obtain ⟨m, hm, hq⟩ := Option.bind_eq_some_iff.1 h
    exact .head hm (ih hq)

theorem transGen_iff_climb : TransGen (Extends edges) p q ↔ ∃ k, climb edges (k + 1) p = some q := by
  constructor
  · intro h
    induction h with
    | single h => exact ⟨0, by simp [climb, show baseOf edges p = _ from h]⟩
    | tail _ h ih =>
      obtain ⟨k, hk⟩ := ih
      refine ⟨k + 1, ?_⟩
      rw [climb_add, hk]
      simp [climb, show baseOf edges _ = _ from h]
  · rintro ⟨k, h⟩
    obtain ⟨m, hm, hq⟩ := Option.bind_eq_some_iff.1 h
    exact .head' hm (reflTransGen_of_climb hq)

/-- A shortest walk meets no place twice, so it is no longer than there are places. -/
theorem climb_short (hc : Closed edges) {k : Nat} (h : climb edges (k + 1) p = some q) :
    ∃ j < edges.size, climb edges (j + 1) p = some q := by
  induction k using Nat.strong_induction_on with
  | _ k ih =>
    by_cases hk : k < edges.size
    · exact ⟨k, hk, h⟩
    -- among the places on a longer walk there are two equal ones
    have hsome (i : Fin (k + 1)) : (climb edges (i + 1) p).isSome :=
      climb_isSome_of_le (Nat.succ_le_succ (Nat.le_of_lt_succ i.2)) (by simp [h])
    let place (i : Fin (k + 1)) : Fin edges.size :=
      ⟨(climb edges (i + 1) p).get (hsome i), climb_succ_lt_size hc (Option.some_get (hsome i)).symm⟩
    obtain ⟨i, j, hne, heq⟩ := Fintype.exists_ne_map_eq_of_card_lt place (by simp; omega)
    wlog hij : i < j generalizing i j
    · exact this j i hne.symm heq.symm (lt_of_le_of_ne (not_lt.1 hij) hne.symm)
    have heq' : climb edges (i + 1) p = climb edges (j + 1) p := by
      rw [← Option.some_get (hsome i), ← Option.some_get (hsome j)]
      exact congrArg some (congrArg Fin.val heq)
    -- cut the walk between them out
    have hcut : climb edges (i + (k - j) + 1) p = some q := by
      rw [show (i : Nat) + (k - j) + 1 = i + 1 + (k - j) by omega, climb_add, heq', ← climb_add,
        show (j : Nat) + 1 + (k - j) = k + 1 by omega]
      exact h
    exact ih (i + (k - j)) (by have : (i : Nat) < j := hij; omega) hcut

/-! ### Ancestors -/

theorem getElem?_follow (n k p : Nat) :
    (follow edges n p)[k]? = if k < n then climb edges (k + 1) p else none := by
  induction n generalizing k p with
  | zero => simp [follow]
  | succ n ih =>
    cases hb : baseOf edges p with
    | none => simp [follow, hb, climb]
    | some b =>
      cases k with
      | zero => simp [follow, hb, climb]
      | succ k =>
        simp only [follow, hb, List.getElem?_cons_succ, ih, Nat.succ_lt_succ_iff]
        simp [climb, hb]

theorem mem_follow_iff {n : Nat} :
    q ∈ follow edges n p ↔ ∃ k < n, climb edges (k + 1) p = some q := by
  simp only [List.mem_iff_getElem?, getElem?_follow]
  constructor
  · rintro ⟨k, h⟩
    by_cases hk : k < n
    · exact ⟨k, hk, by simpa [hk] using h⟩
    · simp [hk] at h
  · rintro ⟨k, hk, h⟩
    exact ⟨k, by simpa [hk] using h⟩

theorem mem_ancestors_iff (hc : Closed edges) :
    q ∈ ancestors edges p ↔ TransGen (Extends edges) p q := by
  rw [ancestors, mem_follow_iff, transGen_iff_climb]
  constructor
  · rintro ⟨k, -, h⟩
    exact ⟨k, h⟩
  · rintro ⟨k, h⟩
    exact climb_short hc h

theorem onCircle_iff (hc : Closed edges) :
    onCircle edges p = true ↔ TransGen (Extends edges) p p := by
  rw [onCircle, List.contains_iff_mem, mem_ancestors_iff hc]

/-! ### The last ancestor -/

theorem follow_getLastD {n k : Nat} (h : climb edges k p = some q) (hq : baseOf edges q = none)
    (hk : k ≤ n) : (follow edges n p).getLastD p = q := by
  induction n generalizing k p with
  | zero =>
    obtain rfl : k = 0 := by omega
    cases h
    rfl
  | succ n ih =>
    cases k with
    | zero =>
      cases h
      simp [follow, hq]
    | succ k =>
      obtain ⟨b, hb, hbq⟩ := Option.bind_eq_some_iff.1 h
      simp only [follow, hb, List.getLastD_cons]
      exact ih hbq (by omega)

theorem reflTransGen_getLastD (hc : Closed edges) (p : Nat) :
    ReflTransGen (Extends edges) p ((ancestors edges p).getLastD p) := by
  cases h : (ancestors edges p).getLast? with
  | none =>
    rw [List.getLastD_eq_getLast?, h]
    exact .refl
  | some q =>
    rw [List.getLastD_eq_getLast?, h]
    exact ((mem_ancestors_iff hc).1 (List.mem_of_getLast? h)).to_reflTransGen

theorem lastEdge_eq_engine_iff (hc : Closed edges) {name : String} :
    lastEdge edges p = some (.engine name) ↔
      ∃ q, ReflTransGen (Extends edges) p q ∧ edges[q]? = some (.engine name) := by
  constructor
  · intro h
    exact ⟨_, reflTransGen_getLastD hc p, h⟩
  · rintro ⟨q, hpq, hq⟩
    have hb : baseOf edges q = none := by simp [baseOf, hq]
    suffices h : (ancestors edges p).getLastD p = q by rw [lastEdge, h, hq]
    rcases Relation.reflTransGen_iff_eq_or_transGen.1 hpq with rfl | hpq
    · exact follow_getLastD (k := 0) rfl hb (Nat.zero_le _)
    · obtain ⟨k, h⟩ := transGen_iff_climb.1 hpq
      obtain ⟨j, hj, h⟩ := climb_short hc h
      exact follow_getLastD h hb hj

/-! ### The first ancestor with a property -/

theorem firstAlong_of_find? {n : Nat} {f : Nat → Bool} (h : (follow edges n p).find? f = some q) :
    FirstAlong (Extends edges) (f · = true) p q := by
  induction n generalizing p with
  | zero => simp [follow] at h
  | succ n ih =>
    cases hb : baseOf edges p with
    | none => simp [follow, hb] at h
    | some b =>
      simp only [follow, hb, List.find?_cons] at h
      split at h
      · next hf =>
        cases h
        exact .here hb hf
      · next hf => exact .further hb (by simp [hf]) (ih h)

namespace FirstAlong

variable {α : Type*} {r : α → α → Prop} {B : α → Prop} {a b c : α}

theorem transGen (h : FirstAlong r B a b) : TransGen r a b := by
  induction h with
  | here h _ => exact .single h
  | further h _ _ ih => exact .head h ih

theorem holds (h : FirstAlong r B a b) : B b := by
  induction h with
  | here _ hq => exact hq
  | further _ _ _ ih => exact ih

/-- Along a function there is one first place at most. -/
theorem unique (hr : ∀ x y z, r x y → r x z → y = z) (h : FirstAlong r B a b)
    (h' : FirstAlong r B a c) : b = c := by
  induction h with
  | here h hb =>
    cases h' with
    | here h' _ => exact hr _ _ _ h h'
    | further h' hm _ => exact absurd (hr _ _ _ h h' ▸ hb) hm
  | further h hm _ ih =>
    cases h' with
    | here h' hc => exact absurd (hr _ _ _ h h' ▸ hc) hm
    | further h' _ hrest => exact ih (hr _ _ _ h h' ▸ hrest)

end FirstAlong

theorem extends_functional (p q q' : Nat) (h : Extends edges p q) (h' : Extends edges p q') :
    q = q' := Option.some.inj (h.symm.trans h')

/-- Along a function, what a circle leads to is on the circle. -/
theorem onCircle_of_reflTransGen {α : Type*} {r : α → α → Prop}
    (hr : ∀ x y z, r x y → r x z → y = z) {a b : α} (ha : TransGen r a a)
    (h : ReflTransGen r a b) : TransGen r b b := by
  induction h with
  | refl => exact ha
  | tail _ hstep ih =>
    obtain ⟨m, hm, hmb⟩ := TransGen.head'_iff.1 ih
    obtain rfl := hr _ _ _ hstep hm
    exact .tail' hmb hstep

end ScriptBridge.Lineage
