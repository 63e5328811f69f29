import ScriptBridge.Proofs.Lineage.Answers
import ScriptBridge.Proofs.Lineage.Walks

/-! The visits that resolve lineages, against the answers that ancestors give. Between two visits
the unvisited classes are known: what leads to one of them is one of them, and every other class
is done. The invariant is that a class that is done has the answers of its ancestors. Proved: the
path of a visit is a walk over the unvisited classes; what is cut out of it is the circle that it
runs into; the others are finished when their base class is done; and so each visit leaves the
invariant and reports the problems of its walk. -/

namespace ScriptBridge

open Relation (TransGen ReflTransGen)

namespace Lineage

/-- The problems met on one walk, each about the class that has it: those of its circle
first, from where it was entered, then those of the other classes, bases before the
classes on them. -/
def walkDiagnostics (catalog : Catalog) (kept : Array Candidate) (edges : Array Edge)
    (path : List Nat) : List Diagnostic :=
  let (circle, others) := path.partition (onCircle edges)
  let names := circle.filterMap fun p => kept[p]?.map (·.script.name)
  circle.filterMap (fun p =>
      kept[p]?.map fun c =>
        (LineageProblem.circle c.script.name names).diagnostic c.script.path) ++
    others.reverse.filterMap fun p =>
      kept[p]?.bind fun c =>
        (problemOf catalog kept edges p).map (LineageProblem.diagnostic c.script.path)

end Lineage

namespace Resolution

open Lineage

/-- The edges of the classes, by their places. -/
def edgesBy (kept : List Candidate) (edge : Candidate → Edge) : Array Edge :=
  (kept.map edge).toArray

/-- The node of the class at `p`: one that is done has the answers of its ancestors. -/
def nodeAt (kept : List Candidate) (edge : Candidate → Edge) (mark : Nat → Mark) (p : Nat)
    (c : Candidate) : LineageNode where
  candidate := c
  edge := edge c
  mark := mark p
  lineage := if mark p = .done then ofPlace kept.toArray (edgesBy kept edge) p c else planned c

def nodesAt (kept : List Candidate) (edge : Candidate → Edge) (mark : Nat → Mark) :
    List LineageNode :=
  kept.zipIdx.map fun x => nodeAt kept edge mark x.2 x.1

/-- The marks with those of some places changed. -/
def markAll (mark : Nat → Mark) (l : List Nat) (m : Mark) (p : Nat) : Mark :=
  if p ∈ l then m else mark p

/-- The marks between two visits. -/
def openMark (unmet : List Nat) (p : Nat) : Mark := if p ∈ unmet then .unvisited else .done

variable {catalog : Catalog} {kept : List Candidate} {edge : Candidate → Edge} {mark : Nat → Mark}
  {unmet path starts l : List Nat} {p q start : Nat} {c : Candidate} {m : Mark}
  {ds : List Diagnostic} {problem : Option LineageProblem}

/-! ### Marks -/

theorem markAll_nil : markAll mark [] m = mark := by
  funext q
  simp [markAll]

theorem markAll_cons : markAll (markAll mark [p] m) l m = markAll mark (p :: l) m := by
  funext q
  simp only [markAll, List.mem_cons, List.not_mem_nil, or_false]
  by_cases hl : q ∈ l <;> simp [hl]

theorem markAll_concat : markAll (markAll mark l m) [p] m = markAll mark (p :: l) m := by
  funext q
  simp only [markAll, List.mem_cons, List.not_mem_nil, or_false]
  by_cases hl : q ∈ l <;> simp [hl]

theorem getElem?_edgesBy (hp : kept[p]? = some c) : (edgesBy kept edge)[p]? = some (edge c) := by
  simp [edgesBy, hp]

theorem size_edgesBy (kept : List Candidate) (edge : Candidate → Edge) :
    (edgesBy kept edge).size = kept.length := by simp [edgesBy]

theorem getElem?_nodesAt (p : Nat) :
    (nodesAt kept edge mark)[p]? = kept[p]?.map (nodeAt kept edge mark p) := by
  simp [nodesAt, Function.comp_def]

theorem set_nodesAt (hp : kept[p]? = some c) :
    (nodesAt kept edge mark).set p (nodeAt kept edge (markAll mark [p] m) p c) =
      nodesAt kept edge (markAll mark [p] m) := by
  refine List.ext_getElem? fun q => ?_
  rw [List.getElem?_set, getElem?_nodesAt, getElem?_nodesAt]
  split
  · next h =>
    subst h
    have hlt : p < (nodesAt kept edge mark).length := by
      simpa [nodesAt] using (List.getElem?_eq_some_iff.1 hp).1
    rw [if_pos hlt, hp, Option.map_some]
  · next h =>
    refine congrArg (kept[q]?.map ·) (funext fun d => ?_)
    simp [nodeAt, markAll, Ne.symm h]

/-! ### The path of a visit -/

/-- An unvisited class is entered, and what it extends behind it. -/
theorem enterFrom_of_unvisited (hget : kept[p]? = some c) (hm : mark p = .unvisited) :
    enterFrom (nodesAt kept edge mark) p =
      match edge c with
      | .script base =>
        let r := enterFrom (nodesAt kept edge (markAll mark [p] .inProgress)) base
        (r.1, p :: r.2)
      | _ => (nodesAt kept edge (markAll mark [p] .inProgress), [p]) := by
  have hnode : ({ nodeAt kept edge mark p c with mark := .inProgress } : LineageNode) =
      nodeAt kept edge (markAll mark [p] .inProgress) p c := by
    simp [nodeAt, markAll, hm]
  rw [enterFrom, getElem?_nodesAt, hget]
  simp only [Option.map_some, hnode, set_nodesAt hget]
  exact dif_pos hm

/-- What is no class, or has been met before, is not entered. -/
theorem enterFrom_of_met (h : p < kept.length → mark p ≠ .unvisited) :
    enterFrom (nodesAt kept edge mark) p = (nodesAt kept edge mark, []) := by
  rw [enterFrom, getElem?_nodesAt]
  cases hget : kept[p]? with
  | none => rfl
  | some c => exact dif_neg (h (List.getElem?_eq_some_iff.1 hget).1)

/-- The unvisited classes but for the one that is entered. -/
theorem mem_erase_iff_unvisited
    (hunmet : ∀ q, q ∈ unmet ↔ q < kept.length ∧ mark q = .unvisited) (hnodup : unmet.Nodup)
    (q : Nat) :
    q ∈ unmet.erase p ↔ q < kept.length ∧ markAll mark [p] .inProgress q = .unvisited := by
  rw [hnodup.mem_erase_iff, hunmet, markAll]
  by_cases hq : q = p <;> simp [hq]

/-- A visit meets what a walk over the unvisited classes meets. -/
theorem enterFrom_nodesAt (hunmet : ∀ q, q ∈ unmet ↔ q < kept.length ∧ mark q = .unvisited)
    (hnodup : unmet.Nodup) :
    enterFrom (nodesAt kept edge mark) p =
      (nodesAt kept edge (markAll mark (walk (edgesBy kept edge) unmet p) .inProgress),
        walk (edgesBy kept edge) unmet p) := by
  fun_induction walk (edgesBy kept edge) unmet p generalizing mark with
  | case1 unmet p hp base hbase ih =>
    obtain ⟨hlt, hm⟩ := (hunmet p).1 hp
    have hget := List.getElem?_eq_getElem hlt
    have hedge : edge kept[p] = .script base :=
      Option.some.inj ((getElem?_edgesBy hget).symm.trans (extends_iff.1 hbase))
    rw [enterFrom_of_unvisited hget hm, hedge]
    dsimp only
    rw [ih (mem_erase_iff_unvisited hunmet hnodup) (hnodup.erase p), markAll_cons]
  | case2 unmet p hp hbase =>
    obtain ⟨hlt, hm⟩ := (hunmet p).1 hp
    have hget := List.getElem?_eq_getElem hlt
    rw [enterFrom_of_unvisited hget hm]
    split
    · next base hedge =>
      have hext : Extends (edgesBy kept edge) p base :=
        extends_iff.2 ((getElem?_edgesBy hget).trans (congrArg some hedge))
      rw [Extends, hbase] at hext
      cases hext
    · rfl
  | case3 unmet p hp =>
    rw [markAll_nil]
    exact enterFrom_of_met fun hlt hm => hp ((hunmet p).2 ⟨hlt, hm⟩)

/-! ### Cutting the circle out -/

theorem pairwise_of_isChain {edges : Array Edge} (h : path.IsChain (Extends edges)) :
    path.Pairwise (TransGen (Extends edges)) :=
  List.isChain_iff_pairwise.1 (h.imp fun _ _ => .single)

/-- What a path leads back to is on a circle with the last class of the path. -/
theorem onCircle_getLast {edges : Array Edge} (hc : Closed edges)
    (hchain : path.IsChain (Extends edges)) {last target : Nat} (hlast : path.getLast? = some last)
    (htarget : target ∈ path) (h : Extends edges last target) : onCircle edges last = true := by
  obtain ⟨front, rfl⟩ := List.getLast?_eq_some_iff.1 hlast
  rw [onCircle_iff hc]
  rcases List.mem_append.1 htarget with hfront | hback
  · have hpairs := pairwise_of_isChain hchain
    exact .head h ((List.pairwise_append.1 hpairs).2.2 target hfront last List.mem_cons_self)
  · rw [List.mem_singleton.1 hback] at h
    exact .single h

/-- The places of a walk off circles are its first ones, and those on its circle are the last. -/
theorem filter_append_filter {edges : Array Edge} (hc : Closed edges)
    (hchain : path.IsChain (Extends edges)) :
    path = path.filter (!onCircle edges ·) ++ path.filter (onCircle edges) := by
  have hfront : path.filter (!onCircle edges ·) = path.takeWhile (!onCircle edges ·) := by
    conv_lhs => rw [← List.takeWhile_append_dropWhile (p := (!onCircle edges ·)) (l := path)]
    rw [List.filter_append, List.filter_eq_self.2 (List.all_eq_true.1 List.all_takeWhile),
      ← filter_onCircle_eq_dropWhile hc hchain, List.filter_filter, List.filter_eq_nil_iff.2,
      List.append_nil]
    simp
  rw [hfront, filter_onCircle_eq_dropWhile hc hchain, List.takeWhile_append_dropWhile]

/-- A path is cut where the edge of its last class leads back to. -/
theorem cutCircle_of_getLast {last : Nat} (hlast : path.getLast? = some last)
    (hget : kept[last]? = some c) (hlt : ∀ p ∈ path, p < kept.length)
    (hmark : ∀ q, mark q = .inProgress ↔ q ∈ path) :
    cutCircle (nodesAt kept edge mark) path =
      match edge c with
      | .script target =>
        if target ∈ path then (path.takeWhile (· != target), path.dropWhile (· != target))
        else (path, [])
      | _ => (path, []) := by
  have hnode : ((path.getLast?.bind ((nodesAt kept edge mark)[·]?)).map LineageNode.edge) =
      some (edge c) := by
    rw [hlast, Option.bind_some, getElem?_nodesAt, hget]
    rfl
  have hprogress (target : Nat) :
      (nodesAt kept edge mark)[target]?.map LineageNode.mark = some .inProgress ↔
        target ∈ path := by
    rw [getElem?_nodesAt, ← hmark]
    by_cases ht : target < kept.length
    · simp [List.getElem?_eq_getElem ht, nodeAt]
    · have hnone : mark target ≠ .inProgress := fun h => ht (hlt target ((hmark target).1 h))
      simp [List.getElem?_eq_none (Nat.le_of_not_lt ht), hnone]
  rw [cutCircle, hnode]
  cases edge c with
  | script target => simp only [hprogress]
  | engine | missing => rfl

theorem cutCircle_nodesAt (hc : Closed (edgesBy kept edge))
    (hback : BackClosed (edgesBy kept edge) unmet)
    (hwalk : IsWalk (edgesBy kept edge) unmet path) (hlt : ∀ p ∈ path, p < kept.length)
    (hmark : ∀ q, mark q = .inProgress ↔ q ∈ path) :
    cutCircle (nodesAt kept edge mark) path =
      (path.filter (!onCircle (edgesBy kept edge) ·),
        path.filter (onCircle (edgesBy kept edge))) := by
  have hsplit := filter_append_filter hc hwalk.chain
  have hcircle := hwalk.isCircle hc hback
  generalize hon : path.filter (onCircle (edgesBy kept edge)) = circle at *
  generalize hoff : path.filter (!onCircle (edgesBy kept edge) ·) = others at *
  cases hlast : path.getLast? with
  | none =>
    obtain rfl := List.getLast?_eq_none_iff.1 hlast
    obtain ⟨rfl, rfl⟩ := List.append_eq_nil_iff.1 hsplit.symm
    rfl
  | some last =>
    have hmem := List.mem_of_getLast? hlast
    obtain ⟨c, hget⟩ : ∃ c, kept[last]? = some c := ⟨_, List.getElem?_eq_getElem (hlt last hmem)⟩
    have hextends (target : Nat) :
        Extends (edgesBy kept edge) last target ↔ edge c = .script target := by
      rw [extends_iff, getElem?_edgesBy hget, Option.some_inj]
    rw [cutCircle_of_getLast hlast hget hlt hmark]
    cases circle with
    | nil =>
      rw [List.append_nil] at hsplit
      split
      · next target hedge =>
        -- the last class would be on a circle with what it leads back to
        have houtside : target ∉ path := fun htarget =>
          List.filter_eq_nil_iff.1 hon last hmem
            (onCircle_getLast hc hwalk.chain hlast htarget ((hextends target).2 hedge))
        rw [if_neg houtside, hsplit]
      · rw [hsplit]
    | cons first rest =>
      have hlastCircle : (first :: rest).getLast? = some last := by
        rw [hsplit, List.getLast?_append_cons] at hlast
        exact hlast
      have hext : Extends (edgesBy kept edge) last first :=
        (List.isChain_append.1 hcircle.chain).2.2 last hlastCircle first (by simp)
      have hfirst : first ∈ path ∧ onCircle (edgesBy kept edge) first = true :=
        List.mem_filter.1 (hon ▸ List.mem_cons_self)
      have hother : ∀ q ∈ others, (q != first) = true := by
        intro q hq
        rw [bne_iff_ne]
        rintro rfl
        have hq' := (List.mem_filter.1 (hoff ▸ hq)).2
        rw [hfirst.2] at hq'
        cases hq'
      rw [(hextends first).1 hext]
      dsimp only
      rw [if_pos hfirst.1, hsplit, List.takeWhile_append_of_pos hother,
        List.dropWhile_append_of_pos hother]
      simp

/-! ### Closing classes -/

theorem close_nodesAt (hp : kept[p]? = some c)
    {answer : LineageNode → Lineage × Option LineageProblem}
    (h : answer (nodeAt kept edge mark p c) =
      (ofPlace kept.toArray (edgesBy kept edge) p c, problem)) :
    close ⟨nodesAt kept edge mark, ds⟩ p answer =
      ⟨nodesAt kept edge (markAll mark [p] .done),
        ds ++ (problem.map (·.diagnostic c.script.path)).toList⟩ := by
  have hnode : ({ nodeAt kept edge mark p c with
        mark := .done, lineage := ofPlace kept.toArray (edgesBy kept edge) p c } : LineageNode) =
      nodeAt kept edge (markAll mark [p] .done) p c := by
    simp [nodeAt, markAll]
  simp only [close, getElem?_nodesAt, hp, Option.map_some, h, hnode, set_nodesAt hp]
  rfl

/-- Whether it is done or not, a node has the names of the plan of its class. -/
theorem cyclic_nodeAt (hc : Closed (edgesBy kept edge))
    (hon : onCircle (edgesBy kept edge) p = true) :
    (nodeAt kept edge mark p c).lineage.cyclic =
      ofPlace kept.toArray (edgesBy kept edge) p c := by
  have hroot := rootOf_of_onCircle hc hon
  simp only [nodeAt]
  split <;> simp [cyclic, planned, ofPlace, baseNaming, statusOf, hon, hroot]

theorem markCyclic_nodesAt (hc : Closed (edgesBy kept edge))
    (hl : ∀ p ∈ l, p < kept.length ∧ onCircle (edgesBy kept edge) p = true) :
    markCyclic ⟨nodesAt kept edge mark, ds⟩ l =
      ⟨nodesAt kept edge (markAll mark l .done),
        ds ++ l.filterMap fun p => kept.toArray[p]?.map fun c =>
          (LineageProblem.circle c.script.name
            (l.filterMap fun p => kept.toArray[p]?.map (·.script.name))).diagnostic
              c.script.path⟩ := by
  have hnames : (l.filterMap fun place => (nodesAt kept edge mark)[place]?.map LineageNode.name) =
      l.filterMap fun p => kept.toArray[p]?.map (·.script.name) := by
    refine List.filterMap_congr fun p _ => ?_
    rw [getElem?_nodesAt, Option.map_map, List.getElem?_toArray]
    rfl
  simp only [markCyclic, hnames]
  clear hnames
  generalize (l.filterMap fun p => kept.toArray[p]?.map (·.script.name)) = names
  induction l generalizing mark ds with
  | nil => rw [markAll_nil, List.foldl_nil, List.filterMap_nil, List.append_nil]
  | cons p l ih =>
    obtain ⟨hp, hrest⟩ := List.forall_mem_cons.1 hl
    obtain ⟨c, hget⟩ : ∃ c, kept[p]? = some c := ⟨_, List.getElem?_eq_getElem hp.1⟩
    have hhead :
        (kept.toArray[p]?.map fun c =>
          (LineageProblem.circle c.script.name names).diagnostic c.script.path) =
        some ((LineageProblem.circle c.script.name names).diagnostic c.script.path) := by
      rw [List.getElem?_toArray, hget, Option.map_some]
    rw [List.foldl_cons, close_nodesAt hget (congrArg (·, _) (cyclic_nodeAt hc hp.2)), ih hrest,
      markAll_cons, List.filterMap_cons, hhead, List.append_assoc]
    rfl

/-- Whether it is done or not, a node off circles has the plan of its class. -/
theorem planned_nodeAt (mark : Nat → Mark) (c : Candidate)
    (hoff : onCircle (edgesBy kept edge) p = false) :
    (nodeAt kept edge mark p c).lineage.index = c.index ∧
      (nodeAt kept edge mark p c).lineage.typeName = c.plan.typeName ∧
      (nodeAt kept edge mark p c).lineage.namespaceName = c.plan.namespaceName ∧
      (nodeAt kept edge mark p c).lineage.emitted = c.plan.emitted := by
  simp only [nodeAt]
  split <;> simp [planned, ofPlace, hoff]

/-- The answers about a class off circles follow from its edge and, if it extends a class, from
the answers about that one, which is done. -/
theorem finish_nodeAt (hc : Closed (edgesBy kept edge)) (hget : kept[p]? = some c)
    (hoff : onCircle (edgesBy kept edge) p = false)
    (hbase : ∀ q, Extends (edgesBy kept edge) p q → mark q = .done) :
    LineageNode.finish catalog (nodesAt kept edge mark) (nodeAt kept edge mark p c) =
      (ofPlace kept.toArray (edgesBy kept edge) p c,
        problemOf catalog kept.toArray (edgesBy kept edge) p) := by
  have hedge : (edgesBy kept edge)[p]? = some (edge c) := getElem?_edgesBy hget
  have hname : (nodeAt kept edge mark p c).name = nameOf kept.toArray p := by
    simp [nameOf, hget, LineageNode.name, nodeAt]
  obtain ⟨hindex, htype, hnamespace, hemitted⟩ := planned_nodeAt mark c hoff
  have hnodeEdge : (nodeAt kept edge mark p c).edge = edge c := rfl
  rw [LineageNode.finish, problemOf, hedge, hnodeEdge, hname]
  cases hkind : edge c with
  | engine name =>
    rw [hkind] at hedge
    have hroot := rootOf_of_engine hc hedge
    have hnone := nearestBridge_of_not_extends kept.toArray hc fun q =>
      not_extends_of_engine (q := q) hedge
    simp [onEngine, ofPlace, baseNaming, statusOf, *]
  | missing name =>
    rw [hkind] at hedge
    have hroot := rootOf_of_missing hc hedge
    have hnone := nearestBridge_of_not_extends kept.toArray hc fun q =>
      not_extends_of_missing (q := q) hedge
    simp [unresolved, ofPlace, baseNaming, statusOf, *]
  | script q =>
    rw [hkind] at hedge
    have hext : Extends (edgesBy kept edge) p q := extends_iff.2 hedge
    obtain ⟨d, hd⟩ : ∃ d, kept[q]? = some d :=
      ⟨_, List.getElem?_eq_getElem (size_edgesBy kept edge ▸ hc p q hext)⟩
    have hdone : nodeAt kept edge mark q d =
        ⟨d, edge d, .done, ofPlace kept.toArray (edgesBy kept edge) q d⟩ := by
      simp [nodeAt, hbase q hext]
    have hbaseName : nameOf kept.toArray q = d.script.name := by simp [nameOf, hd]
    have hroot := rootOf_of_extends hc hext
    have hnear := nearestBridge_of_extends kept.toArray hc hext
    have hplanned : isPlanned kept.toArray q = d.plan.emitted := by simp [isPlanned, hd]
    rw [isBridged, hplanned, List.getElem?_toArray, hd, Option.map_some] at hnear
    simp only [getElem?_nodesAt, hd, Option.map_some, hdone]
    cases hon : onCircle (edgesBy kept edge) q with
    | true =>
      have hnone := nearestBridge_of_onCircle kept.toArray hc hon
      have hrootBase := rootOf_of_onCircle hc hon
      simp_all [unresolved, ofPlace, baseNaming, statusOf, LineageNode.name]
    | false =>
      cases hrootBase : rootOf (edgesBy kept edge) q <;> cases hbridge : d.plan.emitted <;>
        simp_all [onClass, ofPlace, baseNaming, statusOf, LineageNode.name]

/-- The problem reported when the class at `p` is finished. -/
def problemAt (catalog : Catalog) (kept : List Candidate) (edges : Array Edge) (p : Nat) :
    Option Diagnostic :=
  kept.toArray[p]?.bind fun c =>
    (problemOf catalog kept.toArray edges p).map (LineageProblem.diagnostic c.script.path)

/-- Classes are finished from the last one back, so that each base class is done before. -/
theorem foldl_finishNode (hc : Closed (edgesBy kept edge))
    (hl : ∀ p ∈ l, p < kept.length ∧ onCircle (edgesBy kept edge) p = false)
    (hbase : ∀ front p back, l = front ++ p :: back → ∀ q, Extends (edgesBy kept edge) p q →
      mark q = .done ∨ q ∈ back) :
    l.reverse.foldl (finishNode catalog) ⟨nodesAt kept edge mark, ds⟩ =
      ⟨nodesAt kept edge (markAll mark l .done),
        ds ++ l.reverse.filterMap (problemAt catalog kept (edgesBy kept edge))⟩ := by
  induction l with
  | nil => rw [markAll_nil, List.reverse_nil, List.foldl_nil, List.filterMap_nil, List.append_nil]
  | cons p l ih =>
    obtain ⟨⟨hp, hoff⟩, hrest⟩ := List.forall_mem_cons.1 hl
    obtain ⟨c, hget⟩ : ∃ c, kept[p]? = some c := ⟨_, List.getElem?_eq_getElem hp⟩
    have ih := ih hrest fun front q back h => hbase (p :: front) q back (congrArg (p :: ·) h)
    have hdone : ∀ q, Extends (edgesBy kept edge) p q → markAll mark l .done q = .done := by
      intro q hext
      rw [markAll]
      split
      · rfl
      · next hq => exact (hbase [] p l rfl q hext).resolve_right hq
    rw [List.reverse_cons, List.foldl_append, ih, List.foldl_cons, List.foldl_nil, finishNode,
      close_nodesAt hget (finish_nodeAt hc hget hoff hdone), markAll_concat, List.filterMap_append,
      List.append_assoc]
    have hproblem : problemAt catalog kept (edgesBy kept edge) p =
        (problemOf catalog kept.toArray (edgesBy kept edge) p).map
          (·.diagnostic c.script.path) := by
      rw [problemAt, List.getElem?_toArray, hget, Option.bind_some]
    rw [List.filterMap_cons, hproblem]
    cases problemOf catalog kept.toArray (edgesBy kept edge) p <;> rfl

/-! ### Visits -/

/-- What the class at `p` on a walk extends is done, or on the circle of the walk, or behind `p`. -/
theorem base_cases {edges : Array Edge} (hc : Closed edges) (hwalk : IsWalk edges unmet path)
    {front back : List Nat} (hsplit : path.filter (!onCircle edges ·) = front ++ p :: back)
    (hext : Extends edges p q) : q ∉ unmet ∨ q ∈ path.filter (onCircle edges) ∨ q ∈ back := by
  have hp : p ∈ path ∧ (!onCircle edges p) = true :=
    List.mem_filter.1 (hsplit ▸ List.mem_append_right front List.mem_cons_self)
  by_cases hq : q ∈ unmet
  · have hpath := hwalk.closed p hp.1 q hq hext
    cases hon : onCircle edges q with
    | true => exact .inr (.inl (List.mem_filter.2 ⟨hpath, hon⟩))
    | false =>
      have hmem : q ∈ front ++ p :: back := hsplit ▸ List.mem_filter.2 ⟨hpath, by simp [hon]⟩
      have hpairs := (pairwise_of_isChain hwalk.chain).filter (!onCircle edges ·)
      rw [hsplit] at hpairs
      -- nothing before `p` or at it, for then `p` would be on a circle
      have hround (h : ReflTransGen (Extends edges) q p) : onCircle edges p = true :=
        (onCircle_iff hc).2 (.head' hext h)
      rcases List.mem_append.1 hmem with hfront | hback
      · have hqp := (List.pairwise_append.1 hpairs).2.2 q hfront p List.mem_cons_self
        simp [hround hqp.to_reflTransGen] at hp
      · rcases List.mem_cons.1 hback with rfl | hback
        · simp [hround .refl] at hp
        · exact .inr (.inr hback)
  · exact .inl hq

/-- A visit takes the classes that it meets out of the unvisited ones, gives them their answers,
and reports the problems of its walk. -/
theorem resolveFrom_nodesAt (hc : Closed (edgesBy kept edge)) (hnodup : unmet.Nodup)
    (hlt : ∀ p ∈ unmet, p < kept.length) (hback : BackClosed (edgesBy kept edge) unmet) :
    resolveFrom catalog ⟨nodesAt kept edge (openMark unmet), ds⟩ start =
      ⟨nodesAt kept edge (openMark (unmet.removeAll (walk (edgesBy kept edge) unmet start))),
        ds ++ walkDiagnostics catalog kept.toArray (edgesBy kept edge)
          (walk (edgesBy kept edge) unmet start)⟩ := by
  have hwalk : IsWalk (edgesBy kept edge) unmet (walk (edgesBy kept edge) unmet start) :=
    isWalk_walk hnodup
  generalize hpath : walk (edgesBy kept edge) unmet start = path at *
  have hpathLt : ∀ p ∈ path, p < kept.length := fun p hp => hlt p (hwalk.subset hp)
  have hopen : ∀ q, q ∈ unmet ↔ q < kept.length ∧ openMark unmet q = .unvisited := by
    intro q
    rw [openMark]
    by_cases hq : q ∈ unmet <;> simp [hq, hlt]
  have hprogress : ∀ q, markAll (openMark unmet) path .inProgress q = .inProgress ↔ q ∈ path := by
    intro q
    rw [markAll, openMark]
    by_cases hq : q ∈ path <;> by_cases hu : q ∈ unmet <;> simp [hq, hu]
  rw [resolveFrom]
  simp only [enterFrom_nodesAt hopen hnodup, hpath,
    cutCircle_nodesAt hc hback hwalk hpathLt hprogress]
  rw [markCyclic_nodesAt hc
      fun p hp => ⟨hpathLt p (List.mem_filter.1 hp).1, (List.mem_filter.1 hp).2⟩,
    foldl_finishNode hc]
  · rw [walkDiagnostics, List.partition_eq_filter_filter, List.append_assoc]
    have hmarks : markAll (markAll (markAll (openMark unmet) path .inProgress)
          (path.filter (onCircle (edgesBy kept edge))) .done)
          (path.filter (!onCircle (edgesBy kept edge) ·)) .done =
        openMark (unmet.removeAll path) := by
      funext q
      simp only [markAll, openMark, mem_removeAll, List.mem_filter]
      by_cases hq : q ∈ path
      · cases hon : onCircle (edgesBy kept edge) q <;> simp [hq]
      · simp [hq]
    rw [hmarks]
    rfl
  · intro p hp
    obtain ⟨hp, hoff⟩ := List.mem_filter.1 hp
    exact ⟨hpathLt p hp, by simpa using hoff⟩
  · intro front p others hsplit q hext
    refine (base_cases hc hwalk hsplit hext).elim (fun hq => .inl ?_) (Or.imp_left fun hq => ?_)
    · have hqPath : q ∉ path := fun h => hq (hwalk.subset h)
      simp [markAll, openMark, hq, hqPath]
    · simp [markAll, List.mem_filter.1 hq]

/-- Visits from several classes take what the walks from them meet. -/
theorem foldl_resolveFrom (catalog : Catalog) (hc : Closed (edgesBy kept edge))
    (hnodup : unmet.Nodup)
    (hlt : ∀ p ∈ unmet, p < kept.length) (hback : BackClosed (edgesBy kept edge) unmet)
    (starts : List Nat) (ds : List Diagnostic) :
    ∃ rest, (∀ p ∈ rest, p ∈ unmet ∧ p ∉ (walks (edgesBy kept edge) unmet starts).flatten) ∧
      starts.foldl (resolveFrom catalog) ⟨nodesAt kept edge (openMark unmet), ds⟩ =
        ⟨nodesAt kept edge (openMark rest),
          ds ++ (walks (edgesBy kept edge) unmet starts).flatMap
            (walkDiagnostics catalog kept.toArray (edgesBy kept edge))⟩ := by
  induction starts generalizing unmet ds with
  | nil => exact ⟨unmet, by simp [walks], by simp [walks]⟩
  | cons start starts ih =>
    have hwalk : IsWalk (edgesBy kept edge) unmet (walk (edgesBy kept edge) unmet start) :=
      isWalk_walk hnodup
    obtain ⟨rest, hrest, hrun⟩ := ih (nodup_removeAll hnodup _)
      (fun p hp => hlt p (mem_removeAll.1 hp).1) (hwalk.backClosed hback)
      (ds ++ walkDiagnostics catalog kept.toArray (edgesBy kept edge)
        (walk (edgesBy kept edge) unmet start))
    refine ⟨rest, fun p hp => ?_, ?_⟩
    · obtain ⟨hopen, hnot⟩ := hrest p hp
      obtain ⟨hopen, hnotWalk⟩ := mem_removeAll.1 hopen
      simp only [walks, List.flatten_cons, List.mem_append, not_or]
      exact ⟨hopen, hnotWalk, hnot⟩
    · rw [List.foldl_cons, resolveFrom_nodesAt hc hnodup hlt hback, hrun, walks, List.flatMap_cons,
        List.append_assoc]

/-- Visits from all classes give each class the answers of its ancestors, and report the problems
of all walks. -/
theorem foldl_resolveFrom_range (catalog : Catalog) (kept : List Candidate)
    (edge : Candidate → Edge) (hc : Closed (edgesBy kept edge)) (ds : List Diagnostic) :
    let r := (List.range kept.length).foldl (resolveFrom catalog)
      ⟨kept.map fun c => { candidate := c, edge := edge c }, ds⟩
    r.nodes.map LineageNode.lineage =
        kept.zipIdx.map (fun x => ofPlace kept.toArray (edgesBy kept edge) x.2 x.1) ∧
      r.diagnostics = ds ++ (allWalks (edgesBy kept edge)).flatMap
        (walkDiagnostics catalog kept.toArray (edgesBy kept edge)) := by
  have hstart : (kept.map fun c => ({ candidate := c, edge := edge c } : LineageNode)) =
      nodesAt kept edge (openMark (List.range kept.length)) := by
    refine List.ext_getElem? fun p => ?_
    rw [getElem?_nodesAt, List.getElem?_map]
    refine Option.map_congr fun c hc => ?_
    have hp : p < kept.length := (List.getElem?_eq_some_iff.1 hc).1
    simp [nodeAt, openMark, hp]
  have hback := backClosed_range (edgesBy kept edge)
  rw [size_edgesBy] at hback
  obtain ⟨rest, hrest, hrun⟩ := foldl_resolveFrom catalog hc List.nodup_range
    (fun p hp => List.mem_range.1 hp) hback (List.range kept.length) ds
  -- no class is left
  obtain rfl : rest = [] := List.eq_nil_iff_forall_not_mem.2 fun p hp =>
    (hrest p hp).2 (mem_flatten_walks (hrest p hp).1 (hrest p hp).1)
  intro r
  have hr : r = _ := (congrArg (fun nodes => (List.range kept.length).foldl (resolveFrom catalog)
    ⟨nodes, ds⟩) hstart).trans hrun
  rw [hr]
  refine ⟨?_, ?_⟩
  · simp [nodesAt, nodeAt, openMark, Function.comp_def]
  · rw [allWalks, size_edgesBy]

end Resolution

end ScriptBridge
