import Mathlib.Data.List.Chain
import ScriptBridge.Proofs.Lineage.Ancestors

/-! Walks over places. A walk takes each place that it meets out of the open ones, so that no
place is met twice. Proved: the walks from all places meet each place once, and what a walk
meets of a circle is the whole circle, from where it was entered. -/

namespace ScriptBridge.Lineage

open Relation (TransGen ReflTransGen)

/-- The open places on the walk from `place`, in order. -/
def walk (edges : Array Edge) (unmet : List Nat) (place : Nat) : List Nat :=
  if _h : place ∈ unmet then
    match baseOf edges place with
    | some base => place :: walk edges (unmet.erase place) base
    | none => [place]
  else []
termination_by unmet.length
decreasing_by
  rw [List.length_erase_of_mem _h]
  exact Nat.sub_one_lt_of_lt (List.length_pos_of_mem _h)

/-- Walks from every place in turn over the places not met before. -/
def walks (edges : Array Edge) : List Nat → List Nat → List (List Nat)
  | _, [] => []
  | unmet, start :: starts =>
    let path := walk edges unmet start
    path :: walks edges (unmet.removeAll path) starts

/-- Each thing of the list leads to the next, and the last one to the first. -/
structure IsCircle {α : Type} (r : α → α → Prop) (l : List α) : Prop where
  chain : (l ++ l.take 1).IsChain r
  nodup : l.Nodup

/-- A thing on a circle leads back to itself. -/
theorem IsCircle.transGen {α : Type} {r : α → α → Prop} {l : List α} {a : α} (h : IsCircle r l)
    (ha : a ∈ l) : TransGen r a a := by
  have hpairs : (l ++ l.take 1).Pairwise (TransGen r) :=
    List.isChain_iff_pairwise.1 (h.chain.imp fun _ _ => .single)
  obtain ⟨hl, -, hback⟩ := List.pairwise_append.1 hpairs
  cases l with
  | nil => cases ha
  | cons first rest =>
    have hfirst : TransGen r a first := hback a ha first (by simp)
    rcases List.mem_cons.1 ha with rfl | ha
    · exact hfirst
    · exact hfirst.trans ((List.pairwise_cons.1 hl).1 a ha)

/-- What leads to an open place is open. -/
def BackClosed (edges : Array Edge) (unmet : List Nat) : Prop :=
  ∀ p q, Extends edges p q → q ∈ unmet → p ∈ unmet

/-- Open places that lead to each other, on as far as they lead to open ones. -/
structure IsWalk (edges : Array Edge) (unmet path : List Nat) : Prop where
  nodup : path.Nodup
  subset : path ⊆ unmet
  chain : path.IsChain (Extends edges)
  closed : ∀ p ∈ path, ∀ q ∈ unmet, Extends edges p q → q ∈ path

variable {edges : Array Edge} {unmet path starts : List Nat} {p q m : Nat}

/-! ### One walk -/

theorem head?_walk (h : p ∈ unmet) : (walk edges unmet p).head? = some p := by
  unfold walk
  rw [dif_pos h]
  split <;> rfl

theorem mem_walk_self (h : p ∈ unmet) : p ∈ walk edges unmet p :=
  List.mem_of_mem_head? (head?_walk h)

theorem walk_of_notMem (h : p ∉ unmet) : walk edges unmet p = [] := by
  unfold walk
  exact dif_neg h

theorem isWalk_walk (h : unmet.Nodup) : IsWalk edges unmet (walk edges unmet p) := by
  fun_induction walk edges unmet p with
  | case1 unmet p hp base hbase ih =>
    obtain ⟨hnodup, hsubset, hchain, hclosed⟩ := ih (h.erase p)
    refine ⟨?_, ?_, ?_, ?_⟩
    · exact List.nodup_cons.2 ⟨fun hmem => h.not_mem_erase (hsubset hmem), hnodup⟩
    · exact List.cons_subset.2 ⟨hp, fun q hq => List.mem_of_mem_erase (hsubset hq)⟩
    · refine List.isChain_cons.2 ⟨fun q hq => ?_, hchain⟩
      by_cases hopen : base ∈ unmet.erase p
      · rw [head?_walk hopen] at hq
        cases hq
        exact hbase
      · rw [walk_of_notMem hopen] at hq
        cases hq
    · intro m hm q hq hext
      by_cases hqp : q = p
      · exact hqp ▸ List.mem_cons_self
      · have hopen : q ∈ unmet.erase p := (List.mem_erase_of_ne hqp).2 hq
        rcases List.mem_cons.1 hm with rfl | hm
        · obtain rfl := extends_functional m base q hbase hext
          exact List.mem_cons_of_mem _ (mem_walk_self hopen)
        · exact List.mem_cons_of_mem _ (hclosed m hm q hopen hext)
  | case2 unmet p hp hbase =>
    refine ⟨List.nodup_singleton p, by simpa using hp, List.isChain_singleton p, ?_⟩
    intro m hm q _ hext
    rw [List.mem_singleton.1 hm, Extends, hbase] at hext
    cases hext
  | case3 unmet p hp => exact ⟨List.nodup_nil, List.nil_subset unmet, .nil, by simp⟩

/-! ### The circle on a walk -/

/-- On circles no two places lead to one place. -/
theorem extends_injective_of_transGen (hp : TransGen (Extends edges) p p)
    (hq : TransGen (Extends edges) q q) (hpm : Extends edges p m) (hqm : Extends edges q m) :
    p = q := by
  -- from `m` some edges lead to `p` and some to `q`, and one more leads back to `m`
  have hback {x : Nat} (hx : TransGen (Extends edges) x x) (hxm : Extends edges x m) :
      ∃ k, climb edges k m = some x := by
    obtain ⟨k, hk⟩ := transGen_iff_climb.1 hx
    refine ⟨k, ?_⟩
    rwa [climb, show baseOf edges x = some m from hxm, Option.bind_some] at hk
  have hround {k x : Nat} (hk : climb edges k m = some x) (hxm : Extends edges x m) :
      climb edges (k + 1) m = some m := by
    rw [climb_add, hk, Option.bind_some, climb, show baseOf edges x = some m from hxm]
    rfl
  obtain ⟨a, ha⟩ := hback hp hpm
  obtain ⟨b, hb⟩ := hback hq hqm
  have hpath : climb edges (b + 1) p = some p := by
    have hsum : climb edges (a + (b + 1)) m = climb edges (b + 1) p := by
      rw [climb_add, ha, Option.bind_some]
    rw [← hsum, Nat.add_comm, climb_add, hround hb hqm, Option.bind_some, ha]
  rw [climb, show baseOf edges p = some m from hpm, Option.bind_some, hb] at hpath
  exact (Option.some.inj hpath).symm

theorem BackClosed.mem_of_reflTransGen (h : BackClosed edges unmet)
    (hpq : ReflTransGen (Extends edges) p q) (hq : q ∈ unmet) : p ∈ unmet := by
  induction hpq using ReflTransGen.head_induction_on with
  | refl => exact hq
  | head hstep _ ih => exact h _ _ hstep ih

/-- Once on a circle, a walk stays on it. -/
theorem onCircle_of_isChain (hc : Closed edges) (hon : onCircle edges p = true)
    (hchain : (p :: path).IsChain (Extends edges)) : ∀ q ∈ p :: path, onCircle edges q = true := by
  induction path generalizing p with
  | nil => simpa using hon
  | cons m path ih =>
    obtain ⟨hpm, hrest⟩ := List.isChain_cons_cons.1 hchain
    have hm : onCircle edges m = true := (onCircle_iff hc).2
      (onCircle_of_reflTransGen extends_functional ((onCircle_iff hc).1 hon) (.single hpm))
    exact List.forall_mem_cons.2 ⟨hon, ih hm hrest⟩

/-- The places of a walk that are on a circle are its last ones. -/
theorem filter_onCircle_eq_dropWhile (hc : Closed edges) (hchain : path.IsChain (Extends edges)) :
    path.filter (onCircle edges) = path.dropWhile (!onCircle edges ·) := by
  induction path with
  | nil => rfl
  | cons p path ih =>
    cases hon : onCircle edges p with
    | false =>
      rw [List.filter_cons_of_neg (by simp [hon]), List.dropWhile_cons_of_pos (by simp [hon])]
      exact ih hchain.tail
    | true =>
      rw [List.dropWhile_cons_of_neg (by simp [hon]), List.filter_eq_self]
      exact onCircle_of_isChain hc hon hchain

/-- A place that something in a list leads to, behind the first one, has its predecessor there. -/
theorem exists_predecessor {r : Nat → Nat → Prop} (hchain : (p :: path).IsChain r)
    (hq : q ∈ path) : ∃ front m back, p :: path = front ++ m :: q :: back ∧ r m q := by
  induction path generalizing p with
  | nil => cases hq
  | cons x path ih =>
    obtain ⟨hpx, hrest⟩ := List.isChain_cons_cons.1 hchain
    rcases List.mem_cons.1 hq with rfl | hq
    · exact ⟨[], p, path, rfl, hpx⟩
    · obtain ⟨front, m, back, heq, hm⟩ := ih hrest hq
      exact ⟨p :: front, m, back, congrArg (p :: ·) heq, hm⟩

/-- What a walk meets of a circle is the whole circle. -/
theorem IsWalk.isCircle (hc : Closed edges) (hunmet : BackClosed edges unmet)
    (h : IsWalk edges unmet path) :
    IsCircle (Extends edges) (path.filter (onCircle edges)) := by
  have hchain : (path.filter (onCircle edges)).IsChain (Extends edges) := by
    rw [filter_onCircle_eq_dropWhile hc h.chain]
    exact h.chain.suffix (List.dropWhile_suffix _)
  have hnodup := h.nodup.filter (onCircle edges)
  refine ⟨List.isChain_append.2 ⟨hchain, ?_, ?_⟩, hnodup⟩
  · cases path.filter (onCircle edges) <;> simp
  intro last hlast first hfirst
  have hmem {p : Nat} : p ∈ path.filter (onCircle edges) ↔ p ∈ path ∧ onCircle edges p = true :=
    List.mem_filter
  generalize hcircle : path.filter (onCircle edges) = circle at *
  obtain ⟨hpath, hon⟩ := hmem.1 (List.mem_of_getLast? hlast)
  -- the last place leads on along the circle, to an open place and so to one of the walk
  have hround := (onCircle_iff hc).1 hon
  obtain ⟨base, hbase, hback⟩ := TransGen.head'_iff.1 hround
  have hopen := hunmet.mem_of_reflTransGen hback (h.subset hpath)
  have honBase : onCircle edges base = true := (onCircle_iff hc).2
    (onCircle_of_reflTransGen extends_functional hround (.single hbase))
  have hbaseMem := hmem.2 ⟨h.closed last hpath base hopen hbase, honBase⟩
  cases circle with
  | nil => cases hlast
  | cons entry rest =>
    obtain rfl : entry = first := by simpa using hfirst
    rcases List.mem_cons.1 hbaseMem with rfl | hrest
    · exact hbase
    · -- else its predecessor on the walk is the last place as well
      obtain ⟨front, m, back, heq, hm⟩ := exists_predecessor hchain hrest
      rw [heq] at hmem hlast hnodup
      have honM : onCircle edges m = true := (hmem.1 (by simp)).2
      obtain rfl : m = last :=
        extends_injective_of_transGen ((onCircle_iff hc).1 honM) hround hm hbase
      have hlater : m ∈ base :: back := by
        rw [List.getLast?_append_cons, List.getLast?_cons_cons] at hlast
        exact List.mem_of_getLast? hlast
      exact absurd hlater (List.nodup_cons.1 (List.nodup_append.1 hnodup).2.1).1

/-! ### All walks -/

theorem mem_removeAll : p ∈ unmet.removeAll path ↔ p ∈ unmet ∧ p ∉ path := by
  simp [List.removeAll]

theorem nodup_removeAll (h : unmet.Nodup) (path : List Nat) : (unmet.removeAll path).Nodup :=
  h.filter _

/-- Behind a walk it is still so that what leads to an open place is open. -/
theorem IsWalk.backClosed (hunmet : BackClosed edges unmet) (h : IsWalk edges unmet path) :
    BackClosed edges (unmet.removeAll path) := by
  intro p q hpq hq
  obtain ⟨hopen, hnot⟩ := mem_removeAll.1 hq
  exact mem_removeAll.2 ⟨hunmet p q hpq hopen, fun hp => hnot (h.closed p hp q hopen hpq)⟩

theorem isWalk_of_mem_walks (hunmet : unmet.Nodup) (hback : BackClosed edges unmet)
    (h : path ∈ walks edges unmet starts) :
    ∃ rest, BackClosed edges rest ∧ IsWalk edges rest path := by
  induction starts generalizing unmet with
  | nil => cases h
  | cons start starts ih =>
    have hwalk : IsWalk edges unmet (walk edges unmet start) := isWalk_walk hunmet
    rcases List.mem_cons.1 h with rfl | h
    · exact ⟨unmet, hback, hwalk⟩
    · exact ih (nodup_removeAll hunmet _) (hwalk.backClosed hback) h

theorem flatten_walks_subset (hunmet : unmet.Nodup) :
    (walks edges unmet starts).flatten ⊆ unmet := by
  induction starts generalizing unmet with
  | nil => exact List.nil_subset unmet
  | cons start starts ih =>
    refine List.append_subset.2 ⟨(isWalk_walk hunmet).subset, fun p hp => ?_⟩
    exact (mem_removeAll.1 (ih (nodup_removeAll hunmet _) hp)).1

/-- No place is met twice. -/
theorem nodup_flatten_walks (hunmet : unmet.Nodup) : (walks edges unmet starts).flatten.Nodup := by
  induction starts generalizing unmet with
  | nil => exact List.nodup_nil
  | cons start starts ih =>
    have hrest := nodup_removeAll hunmet (walk edges unmet start)
    refine List.nodup_append.2 ⟨(isWalk_walk hunmet).nodup, ih hrest, ?_⟩
    rintro p hp q hq rfl
    exact (mem_removeAll.1 (flatten_walks_subset hrest hq)).2 hp

/-- Each open place that a walk starts from is met. -/
theorem mem_flatten_walks (hp : p ∈ unmet) (hstart : p ∈ starts) :
    p ∈ (walks edges unmet starts).flatten := by
  induction starts generalizing unmet with
  | nil => cases hstart
  | cons start starts ih =>
    by_cases hmet : p ∈ walk edges unmet start
    · exact List.mem_append_left _ hmet
    · rcases List.mem_cons.1 hstart with rfl | hstart
      · exact absurd (mem_walk_self hp) hmet
      · exact List.mem_append_right _ (ih (mem_removeAll.2 ⟨hp, hmet⟩) hstart)

/-- The walks from all places. -/
def allWalks (edges : Array Edge) : List (List Nat) :=
  walks edges (List.range edges.size) (List.range edges.size)

theorem backClosed_range (edges : Array Edge) : BackClosed edges (List.range edges.size) := by
  intro p q hpq _
  rw [List.mem_range]
  by_contra hp
  rw [Extends, baseOf, Array.getElem?_eq_none (Nat.le_of_not_lt hp)] at hpq
  cases hpq

/-- Together the walks from all places meet each place once. -/
theorem allWalks_spec (edges : Array Edge) :
    (allWalks edges).flatten.Nodup ∧ (∀ p, p ∈ (allWalks edges).flatten ↔ p < edges.size) ∧
      ∀ path ∈ allWalks edges, Closed edges →
        IsCircle (Extends edges) (path.filter (onCircle edges)) := by
  refine ⟨nodup_flatten_walks List.nodup_range, fun p => ⟨fun h => ?_, fun h => ?_⟩, ?_⟩
  · exact List.mem_range.1 (flatten_walks_subset List.nodup_range h)
  · exact mem_flatten_walks (List.mem_range.2 h) (List.mem_range.2 h)
  · intro path hpath hc
    obtain ⟨rest, hback, hwalk⟩ :=
      isWalk_of_mem_walks List.nodup_range (backClosed_range edges) hpath
    exact hwalk.isCircle hc hback

end ScriptBridge.Lineage
