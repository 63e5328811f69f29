import ScriptBridge.Proofs.Lineage.Ancestors

/-! Inheritance between the scripts of one run, stated without any computation. The
first script of each class counts, if it has a plan. Such a script extends another
one, or an engine type, or nothing known. Proved: the candidates that are kept are
these scripts in their order, and the edges between them are these relations. -/

namespace ScriptBridge

open Relation (TransGen ReflTransGen)

namespace Inheritance

/-- The script at `i` has a plan, and no script before it declares the same class. -/
structure Kept (scripts : List ScriptClass) (plans : List Plan) (i : Nat) (s : ScriptClass)
    (p : Plan) : Prop where
  script : scripts[i]? = some s
  plan : plans[i]? = some p
  first : ∀ j < i, ∀ t, scripts[j]? = some t → t.name ≠ s.name

/-- The script at `i` extends the script at `j`, by the name of its class or by its path. -/
inductive Extends (scripts : List ScriptClass) (plans : List Plan) : Nat → Nat → Prop where
  | named {i j : Nat} {s t : ScriptClass} {p q : Plan} (hi : Kept scripts plans i s p)
      (hj : Kept scripts plans j t q) (h : s.base.map Prod.fst = some (.named t.name)) :
      Extends scripts plans i j
  | path {i j : Nat} {s t : ScriptClass} {p q : Plan} {path : String}
      (hi : Kept scripts plans i s p) (hj : Kept scripts plans j t q)
      (h : s.base.map Prod.fst = some (.script path))
      (hp : Lineage.slashed t.path = Lineage.slashed path)
      (first : ∀ k < j, ∀ u r, Kept scripts plans k u r →
        Lineage.slashed u.path ≠ Lineage.slashed path) :
      Extends scripts plans i j

/-- The script at `i` extends an engine type: the root type if it names no base. -/
inductive ExtendsEngine (catalog : Catalog) (scripts : List ScriptClass) (plans : List Plan) :
    Nat → String → Prop where
  | root {i : Nat} {s : ScriptClass} {p : Plan} (hi : Kept scripts plans i s p)
      (h : s.base.map Prod.fst = none) : ExtendsEngine catalog scripts plans i catalog.rootType
  | kind {i : Nat} {s : ScriptClass} {p : Plan} {kind : EngineKind} (hi : Kept scripts plans i s p)
      (h : s.base.map Prod.fst = some (.engine kind)) :
      ExtendsEngine catalog scripts plans i kind.typeName
  | named {i : Nat} {s : ScriptClass} {p : Plan} {name : String} (hi : Kept scripts plans i s p)
      (h : s.base.map Prod.fst = some (.named name))
      (other : ∀ j t q, Kept scripts plans j t q → t.name ≠ name)
      (known : catalog.isEngineType name = true) : ExtendsEngine catalog scripts plans i name

/-- Extending leads from `i` back to `i`. -/
def OnCycle (scripts : List ScriptClass) (plans : List Plan) (i : Nat) : Prop :=
  TransGen (Extends scripts plans) i i

/-- Extending leads from `i` to the engine type. -/
def EndsIn (catalog : Catalog) (scripts : List ScriptClass) (plans : List Plan) (i : Nat)
    (name : String) : Prop :=
  ∃ j, ReflTransGen (Extends scripts plans) i j ∧ ExtendsEngine catalog scripts plans j name

/-- A bridge is written for the script at `i`. -/
def HasBridge (scripts : List ScriptClass) (plans : List Plan) (i : Nat) : Prop :=
  ¬OnCycle scripts plans i ∧ ∃ p, plans[i]? = some p ∧ p.emitted = true

end Inheritance

namespace Lineage

/-! ### Kept scripts -/

/-- No candidate of the list declares the class of `c`. -/
def Fresh (cs : List Candidate) (c : Candidate) : Prop := ∀ d ∈ cs, d.script.name ≠ c.script.name

theorem exists_fresh_cons {kept cs : List Candidate} {e c : Candidate} :
    (∃ x, (e :: cs)[x]? = some c ∧ Fresh (kept ++ (e :: cs).take x) c) ↔
      (e = c ∧ Fresh kept c) ∨ ∃ x, cs[x]? = some c ∧ Fresh (kept ++ e :: cs.take x) c := by
  constructor
  · rintro ⟨x, hx, hf⟩
    cases x with
    | zero => exact .inl ⟨by simpa using hx, by simpa using hf⟩
    | succ x => exact .inr ⟨x, by simpa using hx, by simpa using hf⟩
  · rintro (⟨rfl, hf⟩ | ⟨x, hx, hf⟩)
    · exact ⟨0, by simp, by simpa using hf⟩
    · exact ⟨x + 1, by simpa using hx, by simpa using hf⟩

theorem mem_keepFirst_iff {kept cs : List Candidate} {c : Candidate} :
    c ∈ (keepFirst kept cs).1 ↔
      c ∈ kept ∨ ∃ x, cs[x]? = some c ∧ Fresh (kept ++ cs.take x) c := by
  induction cs generalizing kept with
  | nil => simp [keepFirst]
  | cons e cs ih =>
    rw [exists_fresh_cons]
    unfold keepFirst
    split
    · next first hf =>
      -- the class of `e` is taken, so `e` neither counts nor stands in the way of another
      have hmem : first ∈ kept := List.mem_of_find?_eq_some hf
      have hname : first.script.name = e.script.name := by simpa using List.find?_some hf
      have hdrop (l : List Candidate) : Fresh (kept ++ e :: l) c ↔ Fresh (kept ++ l) c := by
        simp only [Fresh, List.mem_append, List.mem_cons]
        exact ⟨fun h d hd => h d (hd.imp_right .inr), fun h d hd => by
          rcases hd with hd | rfl | hd
          · exact h d (.inl hd)
          · exact hname ▸ h first (.inl hmem)
          · exact h d (.inr hd)⟩
      have he : ¬(e = c ∧ Fresh kept c) := by
        rintro ⟨rfl, h⟩
        exact h first hmem hname
      simp only [ih, hdrop, he, false_or]
    · next hf =>
      have hfresh : Fresh kept e := by simpa [Fresh] using hf
      have he : e = c ∧ Fresh kept c ↔ c = e :=
        ⟨fun h => h.1.symm, fun h => ⟨h.symm, h.symm ▸ hfresh⟩⟩
      simp only [ih, List.mem_append, List.mem_singleton, List.append_assoc, List.singleton_append, he,
        or_assoc]

theorem keepFirst_sublist (kept cs : List Candidate) :
    ((keepFirst kept cs).1).Sublist (kept ++ cs) := by
  induction cs generalizing kept with
  | nil => simp [keepFirst]
  | cons e cs ih =>
    unfold keepFirst
    split
    · exact (ih kept).trans ((List.sublist_cons_self e cs).append_left kept)
    · simpa using ih (kept ++ [e])

/-- The scripts that have a plan, with their places. -/
def candidates (scripts : List ScriptClass) (plans : List Plan) : List Candidate :=
  (scripts.zip plans).zipIdx.map fun x => ⟨x.2, x.1.1, x.1.2⟩

/-- The candidates that count, in the order of their scripts. -/
def keptOf (scripts : List ScriptClass) (plans : List Plan) : List Candidate :=
  (keepFirst [] (candidates scripts plans)).1

/-- The complaints about the candidates that do not count. -/
def duplicatesOf (scripts : List ScriptClass) (plans : List Plan) : List Diagnostic :=
  (keepFirst [] (candidates scripts plans)).2

/-- The edges of the candidates that count. -/
def edgesOf (catalog : Catalog) (scripts : List ScriptClass) (plans : List Plan) : Array Edge :=
  let kept := keptOf scripts plans
  (kept.map fun c =>
    edgeOf catalog (kept.map (·.script.name)) (kept.map fun c => slashed c.script.path) c.script).toArray

/-- The candidates of a run, where each script has the plan that is made for it. -/
theorem candidates_map (plan : ScriptClass → Plan) (scripts : List ScriptClass) :
    candidates scripts (scripts.map plan) = scripts.zipIdx.map fun x => ⟨x.2, x.1, plan x.1⟩ := by
  have hzip : scripts.zip (scripts.map plan) = scripts.map fun s => (s, plan s) := by
    simpa using List.zip_map' (f := id) (g := plan) (l := scripts)
  rw [candidates, hzip, List.zipIdx_map, List.map_map]
  rfl

variable {catalog : Catalog} {scripts : List ScriptClass} {plans : List Plan}
  {x y i : Nat} {c d : Candidate} {s : ScriptClass} {p : Plan}

theorem getElem?_candidates :
    (candidates scripts plans)[x]? = some c ↔
      c.index = x ∧ scripts[x]? = some c.script ∧ plans[x]? = some c.plan := by
  simp only [candidates, List.getElem?_map, List.getElem?_zipIdx, Option.map_map,
    Option.map_eq_some_iff, List.getElem?_zip_eq_some, Function.comp_apply]
  constructor
  · rintro ⟨z, ⟨hs, hp⟩, rfl⟩
    exact ⟨by simp, hs, hp⟩
  · rintro ⟨rfl, hs, hp⟩
    exact ⟨(c.script, c.plan), ⟨hs, hp⟩, by simp⟩

theorem mem_keptOf_iff :
    c ∈ keptOf scripts plans ↔ Inheritance.Kept scripts plans c.index c.script c.plan := by
  rw [keptOf, mem_keepFirst_iff]
  constructor
  · rintro (h | ⟨x, hx, hf⟩)
    · cases h
    · obtain ⟨rfl, hs, hp⟩ := getElem?_candidates.1 hx
      refine ⟨hs, hp, fun j hj t ht => ?_⟩
      have hjp : j < plans.length := hj.trans (List.getElem?_eq_some_iff.1 hp).1
      have hc : (candidates scripts plans)[j]? = some ⟨j, t, plans[j]⟩ :=
        getElem?_candidates.2 ⟨rfl, ht, List.getElem?_eq_getElem hjp⟩
      refine hf ⟨j, t, plans[j]⟩ (List.mem_of_getElem? (i := j) ?_)
      rw [List.nil_append, List.getElem?_take_of_lt hj, hc]
  · intro h
    refine .inr ⟨c.index, getElem?_candidates.2 ⟨rfl, h.script, h.plan⟩, fun d hd => ?_⟩
    obtain ⟨y, hd⟩ := List.mem_iff_getElem?.1 hd
    rw [List.nil_append, List.getElem?_take, Option.ite_none_right_eq_some] at hd
    obtain ⟨hy, hd⟩ := hd
    obtain ⟨-, hs, -⟩ := getElem?_candidates.1 hd
    exact h.first y hy d.script hs

theorem kept_of_getElem? (h : (keptOf scripts plans)[x]? = some c) :
    Inheritance.Kept scripts plans c.index c.script c.plan :=
  mem_keptOf_iff.1 (List.mem_of_getElem? h)

theorem exists_getElem?_of_kept (h : Inheritance.Kept scripts plans i s p) :
    ∃ x : Nat, (keptOf scripts plans)[x]? = some ⟨i, s, p⟩ :=
  List.mem_iff_getElem?.1 (mem_keptOf_iff.2 h)

theorem keptOf_index_increasing (scripts : List ScriptClass) (plans : List Plan) :
    ((keptOf scripts plans).map Candidate.index).Pairwise (· < ·) := by
  have h : (candidates scripts plans).map Candidate.index = List.range (scripts.zip plans).length := by
    simp [candidates, Function.comp_def, List.zipIdx_map_snd, List.range_eq_range']
  have hs := (keepFirst_sublist [] (candidates scripts plans)).map Candidate.index
  rw [List.nil_append, h] at hs
  exact List.Pairwise.sublist hs List.pairwise_lt_range

theorem index_lt (hx : (keptOf scripts plans)[x]? = some c) (hy : (keptOf scripts plans)[y]? = some d)
    (h : x < y) : c.index < d.index := by
  have hp := List.pairwise_map.1 (keptOf_index_increasing scripts plans)
  obtain ⟨hx', rfl⟩ := List.getElem?_eq_some_iff.1 hx
  obtain ⟨hy', rfl⟩ := List.getElem?_eq_some_iff.1 hy
  exact List.pairwise_iff_getElem.1 hp x y hx' hy' h

theorem place_eq_of_index_eq (hx : (keptOf scripts plans)[x]? = some c)
    (hy : (keptOf scripts plans)[y]? = some d) (h : c.index = d.index) : x = y := by
  rcases Nat.lt_trichotomy x y with hlt | heq | hlt
  · exact absurd h (Nat.ne_of_lt (index_lt hx hy hlt))
  · exact heq
  · exact absurd h.symm (Nat.ne_of_lt (index_lt hy hx hlt))

theorem place_eq_of_name_eq (hx : (keptOf scripts plans)[x]? = some c)
    (hy : (keptOf scripts plans)[y]? = some d) (h : c.script.name = d.script.name) : x = y := by
  rcases Nat.lt_trichotomy x y with hlt | heq | hlt
  · exact absurd h ((kept_of_getElem? hy).first _ (index_lt hx hy hlt) _ (kept_of_getElem? hx).script)
  · exact heq
  · exact absurd h.symm
      ((kept_of_getElem? hx).first _ (index_lt hy hx hlt) _ (kept_of_getElem? hy).script)

/-! ### Edges -/

theorem idxOf?_eq_some_iff {α : Type*} [DecidableEq α] {l : List α} {a : α} {n : Nat} :
    l.idxOf? a = some n ↔ l[n]? = some a ∧ ∀ k < n, l[k]? ≠ some a := by
  rw [List.idxOf?_eq_some_iff]
  constructor
  · rintro ⟨h, hn, hk⟩
    refine ⟨by rw [List.getElem?_eq_getElem h, hn], fun k hkn hka => hk k hkn ?_⟩
    simpa [List.getElem?_eq_getElem (hkn.trans h)] using hka
  · rintro ⟨hn, hk⟩
    obtain ⟨h, hn⟩ := List.getElem?_eq_some_iff.1 hn
    refine ⟨h, hn, fun k hkn hka => hk k hkn ?_⟩
    rw [List.getElem?_eq_getElem (hkn.trans h), hka]

theorem idxOf?_name_eq_some_iff {name : String} :
    ((keptOf scripts plans).map (·.script.name)).idxOf? name = some x ↔
      ∃ c, (keptOf scripts plans)[x]? = some c ∧ c.script.name = name := by
  rw [idxOf?_eq_some_iff]
  simp only [List.getElem?_map, Option.map_eq_some_iff, ne_eq, not_exists, not_and]
  refine ⟨And.left, fun h => ⟨h, ?_⟩⟩
  obtain ⟨c, hc, rfl⟩ := h
  intro y hy d hd hname
  exact absurd (place_eq_of_name_eq hd hc hname) (Nat.ne_of_lt hy)

/-- No script that counts has the key. -/
theorem idxOf?_key_eq_none_iff (key : ScriptClass → String) {k : String} :
    ((keptOf scripts plans).map fun c => key c.script).idxOf? k = none ↔
      ∀ j t q, Inheritance.Kept scripts plans j t q → key t ≠ k := by
  rw [List.idxOf?_eq_none_iff, List.mem_map]
  constructor
  · rintro h j t q hj rfl
    exact h ⟨⟨j, t, q⟩, mem_keptOf_iff.2 hj, rfl⟩
  · rintro h ⟨c, hc, rfl⟩
    exact h _ _ _ (mem_keptOf_iff.1 hc) rfl

theorem idxOf?_name_eq_none_iff {name : String} :
    ((keptOf scripts plans).map (·.script.name)).idxOf? name = none ↔
      ∀ j t q, Inheritance.Kept scripts plans j t q → t.name ≠ name :=
  idxOf?_key_eq_none_iff ScriptClass.name

theorem idxOf?_path_eq_none_iff {path : String} :
    ((keptOf scripts plans).map fun c => slashed c.script.path).idxOf? path = none ↔
      ∀ j t q, Inheritance.Kept scripts plans j t q → slashed t.path ≠ path :=
  idxOf?_key_eq_none_iff fun s => slashed s.path

theorem idxOf?_path_eq_some_iff {path : String} :
    ((keptOf scripts plans).map fun c => slashed c.script.path).idxOf? path = some x ↔
      ∃ c, (keptOf scripts plans)[x]? = some c ∧ slashed c.script.path = path ∧
        ∀ k < c.index, ∀ u r, Inheritance.Kept scripts plans k u r → slashed u.path ≠ path := by
  rw [idxOf?_eq_some_iff]
  simp only [List.getElem?_map, Option.map_eq_some_iff, ne_eq, not_exists, not_and]
  constructor
  · rintro ⟨⟨c, hc, rfl⟩, hy⟩
    refine ⟨c, hc, rfl, fun k hk u r hu => ?_⟩
    obtain ⟨y, hd⟩ := exists_getElem?_of_kept hu
    have hyx : y < x := by
      rcases Nat.lt_trichotomy y x with h | rfl | h
      · exact h
      · cases hc.symm.trans hd
        exact absurd hk (Nat.lt_irrefl _)
      · exact absurd (index_lt hc hd h) (Nat.not_lt_of_le hk.le)
    exact hy y hyx ⟨k, u, r⟩ hd
  · rintro ⟨c, hc, hp, hk⟩
    exact ⟨⟨c, hc, hp⟩, fun y hy d hd => hk _ (index_lt hd hc hy) _ _ (kept_of_getElem? hd)⟩

/-- The edge computed for a script among those that count. -/
def edgeAmong (catalog : Catalog) (scripts : List ScriptClass) (plans : List Plan)
    (s : ScriptClass) : Edge :=
  edgeOf catalog ((keptOf scripts plans).map (·.script.name))
    ((keptOf scripts plans).map fun c => slashed c.script.path) s

theorem getElem?_edgesOf :
    (edgesOf catalog scripts plans)[x]? =
      (keptOf scripts plans)[x]?.map fun c => edgeAmong catalog scripts plans c.script := by
  simp [edgesOf, edgeAmong]

theorem edgeAmong_eq_script_iff (hc : Inheritance.Kept scripts plans c.index c.script c.plan) :
    edgeAmong catalog scripts plans c.script = .script y ↔
      ∃ d, (keptOf scripts plans)[y]? = some d ∧
        Inheritance.Extends scripts plans c.index d.index := by
  constructor
  · intro h
    unfold edgeAmong edgeOf at h
    split at h
    · cases h
    · cases h
    · next name hb =>
      split at h
      · next hidx =>
        cases h
        obtain ⟨d, hd, rfl⟩ := idxOf?_name_eq_some_iff.1 hidx
        exact ⟨d, hd, .named hc (kept_of_getElem? hd) hb⟩
      · split at h <;> cases h
    · next path hb =>
      split at h
      · next hidx =>
        cases h
        obtain ⟨d, hd, hp, hfirst⟩ := idxOf?_path_eq_some_iff.1 hidx
        exact ⟨d, hd, .path hc (kept_of_getElem? hd) hb hp hfirst⟩
      · cases h
  · rintro ⟨d, hd, hext⟩
    have hd' := kept_of_getElem? hd
    cases hext with
    | named hi hj hb =>
      cases hi.script.symm.trans hc.script
      cases hj.script.symm.trans hd'.script
      simp [edgeAmong, edgeOf, hb, idxOf?_name_eq_some_iff.2 ⟨d, hd, rfl⟩]
    | path hi hj hb hp hfirst =>
      cases hi.script.symm.trans hc.script
      cases hj.script.symm.trans hd'.script
      simp [edgeAmong, edgeOf, hb, idxOf?_path_eq_some_iff.2 ⟨d, hd, hp, hfirst⟩]

theorem edgeAmong_eq_engine_iff (hc : Inheritance.Kept scripts plans c.index c.script c.plan)
    {name : String} :
    edgeAmong catalog scripts plans c.script = .engine name ↔
      Inheritance.ExtendsEngine catalog scripts plans c.index name := by
  constructor
  · intro h
    unfold edgeAmong edgeOf at h
    split at h
    · next hb =>
      cases h
      exact .root hc hb
    · next kind hb =>
      cases h
      exact .kind hc hb
    · next base hb =>
      split at h
      · cases h
      · next hidx =>
        split at h
        · next hk =>
          cases h
          exact .named hc hb (idxOf?_name_eq_none_iff.1 hidx) hk
        · cases h
    · split at h <;> cases h
  · intro hext
    cases hext with
    | root hi hb =>
      cases hi.script.symm.trans hc.script
      simp [edgeAmong, edgeOf, hb]
    | kind hi hb =>
      cases hi.script.symm.trans hc.script
      simp [edgeAmong, edgeOf, hb]
    | named hi hb hn hk =>
      cases hi.script.symm.trans hc.script
      simp [edgeAmong, edgeOf, hb, idxOf?_name_eq_none_iff.2 hn, hk]

/-- Edges between places are those between the scripts at these places. -/
theorem extends_edgesOf_iff :
    Extends (edgesOf catalog scripts plans) x y ↔
      ∃ c d, (keptOf scripts plans)[x]? = some c ∧ (keptOf scripts plans)[y]? = some d ∧
        Inheritance.Extends scripts plans c.index d.index := by
  have hbase : Extends (edgesOf catalog scripts plans) x y ↔
      (edgesOf catalog scripts plans)[x]? = some (.script y) := by
    unfold Extends baseOf
    split <;> simp_all
  rw [hbase, getElem?_edgesOf, Option.map_eq_some_iff]
  constructor
  · rintro ⟨c, hc, h⟩
    obtain ⟨d, hd, hext⟩ := (edgeAmong_eq_script_iff (kept_of_getElem? hc)).1 h
    exact ⟨c, d, hc, hd, hext⟩
  · rintro ⟨c, d, hc, hd, hext⟩
    exact ⟨c, hc, (edgeAmong_eq_script_iff (kept_of_getElem? hc)).2 ⟨d, hd, hext⟩⟩

/-- An edge to an engine type is that of the script at this place. -/
theorem edgesOf_eq_engine_iff {name : String} :
    (edgesOf catalog scripts plans)[x]? = some (.engine name) ↔
      ∃ c, (keptOf scripts plans)[x]? = some c ∧
        Inheritance.ExtendsEngine catalog scripts plans c.index name := by
  rw [getElem?_edgesOf, Option.map_eq_some_iff]
  constructor
  · rintro ⟨c, hc, h⟩
    exact ⟨c, hc, (edgeAmong_eq_engine_iff (kept_of_getElem? hc)).1 h⟩
  · rintro ⟨c, hc, h⟩
    exact ⟨c, hc, (edgeAmong_eq_engine_iff (kept_of_getElem? hc)).2 h⟩

theorem closed_edgesOf (catalog : Catalog) (scripts : List ScriptClass) (plans : List Plan) :
    Closed (edgesOf catalog scripts plans) := by
  intro x y h
  obtain ⟨-, d, -, hd, -⟩ := extends_edgesOf_iff.1 h
  simpa [edgesOf] using (List.getElem?_eq_some_iff.1 hd).1

/-! ### Walks between scripts -/

theorem exists_of_extends (catalog : Catalog) {j : Nat} (hc : (keptOf scripts plans)[x]? = some c)
    (h : Inheritance.Extends scripts plans c.index j) :
    ∃ y d, (keptOf scripts plans)[y]? = some d ∧ d.index = j ∧
      Extends (edgesOf catalog scripts plans) x y := by
  have hj : ∃ t q, Inheritance.Kept scripts plans j t q := by
    cases h with
    | named _ hj _ => exact ⟨_, _, hj⟩
    | path _ hj _ _ _ => exact ⟨_, _, hj⟩
  obtain ⟨t, q, hj⟩ := hj
  obtain ⟨y, hd⟩ := exists_getElem?_of_kept hj
  exact ⟨y, _, hd, rfl, extends_edgesOf_iff.2 ⟨c, _, hc, hd, h⟩⟩

theorem exists_of_transGen {j : Nat} (hc : (keptOf scripts plans)[x]? = some c)
    (h : TransGen (Inheritance.Extends scripts plans) c.index j) :
    ∃ y d, (keptOf scripts plans)[y]? = some d ∧ d.index = j ∧
      TransGen (Extends (edgesOf catalog scripts plans)) x y := by
  induction h with
  | single h =>
    obtain ⟨y, d, hd, hj, h⟩ := exists_of_extends catalog hc h
    exact ⟨y, d, hd, hj, .single h⟩
  | tail _ h ih =>
    obtain ⟨m, e, he, rfl, hm⟩ := ih
    obtain ⟨y, d, hd, hj, h⟩ := exists_of_extends catalog he h
    exact ⟨y, d, hd, hj, hm.tail h⟩

theorem transGen_index (hc : (keptOf scripts plans)[x]? = some c)
    (hd : (keptOf scripts plans)[y]? = some d)
    (h : TransGen (Extends (edgesOf catalog scripts plans)) x y) :
    TransGen (Inheritance.Extends scripts plans) c.index d.index := by
  induction h generalizing d with
  | single h =>
    obtain ⟨c', d', hc', hd', hext⟩ := extends_edgesOf_iff.1 h
    cases hc.symm.trans hc'
    cases hd.symm.trans hd'
    exact .single hext
  | tail _ h ih =>
    obtain ⟨e, d', he, hd', hext⟩ := extends_edgesOf_iff.1 h
    cases hd.symm.trans hd'
    exact (ih he).tail hext

theorem transGen_edgesOf_iff (hc : (keptOf scripts plans)[x]? = some c)
    (hd : (keptOf scripts plans)[y]? = some d) :
    TransGen (Extends (edgesOf catalog scripts plans)) x y ↔
      TransGen (Inheritance.Extends scripts plans) c.index d.index := by
  refine ⟨transGen_index hc hd, fun h => ?_⟩
  obtain ⟨y', d', hd', hidx, h⟩ := exists_of_transGen hc h
  exact place_eq_of_index_eq hd' hd hidx ▸ h

end Lineage

end ScriptBridge
