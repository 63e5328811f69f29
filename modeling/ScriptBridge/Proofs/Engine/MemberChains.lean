import Mathlib.Data.List.Chain
import Mathlib.Data.List.Nodup
import ScriptBridge.Proofs.Engine.CatalogCalls

/-! Members of an engine type along its chain. A chain is described by what stands in it: the
type of a name first, behind each type its base, no type twice, and an end only where there is
nothing new to go on to. Members are told apart by their signatures. Proved: a name has one
chain, also where descriptions refer to each other in a circle; and its members are the eligible
ones of the chain in order, without those whose signature occurred before. -/

namespace ScriptBridge

/-! ### Chains of engine types -/

namespace EngineType

/-- The described type that a type names as its base. -/
def baseType (find : String → Option EngineType) (t : EngineType) : Option EngineType :=
  t.base.bind find

/-- The types are the chain of a name: the type of that name, and behind each type its base. The
chain ends with a type that has no base, or whose base is not described or stands in the chain. -/
structure IsChain (find : String → Option EngineType) (name : String) (ts : List EngineType) :
    Prop where
  first : ts.head? = find name
  next : List.IsChain (fun t u => baseType find t = some u) ts
  distinct : (ts.map EngineType.name).Nodup
  stops : ∀ t ∈ ts.getLast?, ∀ u, baseType find t = some u → u ∈ ts

variable {find : String → Option EngineType} {name : String} {ts us : List EngineType}
  {t u : EngineType}

/-- What stands behind a type in a chain is settled by the types up to it. -/
theorem IsChain.getElem?_succ (h : IsChain find name ts) {i : Nat} (hi : ts[i]? = some t) :
    ts[i + 1]? = (baseType find t).filter (· ∉ ts.take (i + 1)) := by
  obtain ⟨hlt, rfl⟩ := List.getElem?_eq_some_iff.1 hi
  by_cases hnext : i + 1 < ts.length
  · have hbase : baseType find ts[i] = some ts[i + 1] := List.isChain_iff_getElem.1 h.next i hnext
    have hnew : ts[i + 1] ∉ ts.take (i + 1) := by
      intro hmem
      obtain ⟨j, hj, heq⟩ := List.mem_take_iff_getElem.1 hmem
      have hnodup : ts.Nodup := List.Nodup.of_map _ h.distinct
      have hij := hnodup.getElem_inj_iff.1 heq
      omega
    rw [List.getElem?_eq_getElem hnext, hbase, Option.filter_some_pos (by simpa using hnew)]
  · have hlast : ts.getLast? = some ts[i] := by
      rw [List.getLast?_eq_getElem?, ← hi]
      congr 1
      omega
    have hall : ts.take (i + 1) = ts := List.take_of_length_le (by omega)
    rw [List.getElem?_eq_none (by omega), hall, eq_comm, Option.filter_eq_none_iff]
    intro u hu
    simpa using h.stops _ hlast u hu

/-- Two chains of a name that agree up to a place agree at the place. -/
theorem IsChain.getElem?_congr (h : IsChain find name ts) (k : IsChain find name us) {i : Nat}
    (hsame : ts.take i = us.take i) : ts[i]? = us[i]? := by
  cases i with
  | zero => rw [← List.head?_eq_getElem?, ← List.head?_eq_getElem?, h.first, k.first]
  | succ i =>
    have hbefore : ts[i]? = us[i]? := by
      rw [← List.getElem?_take_of_lt (Nat.lt_succ_self i), hsame,
        List.getElem?_take_of_lt (Nat.lt_succ_self i)]
    cases ht : ts[i]? with
    | some t => rw [h.getElem?_succ ht, k.getElem?_succ (hbefore ▸ ht), hsame]
    | none =>
      have hu : us[i]? = none := hbefore ▸ ht
      rw [List.getElem?_eq_none_iff] at ht hu
      rw [List.getElem?_eq_none (by omega), List.getElem?_eq_none (by omega)]

/-- A name has one chain. -/
theorem IsChain.unique (h : IsChain find name ts) (k : IsChain find name us) : ts = us := by
  have hsame : ∀ i, ts.take i = us.take i := by
    intro i
    induction i with
    | zero => rfl
    | succ i ih => rw [List.take_add_one, List.take_add_one, ih, h.getElem?_congr k ih]
  have hall := hsame (max ts.length us.length)
  rwa [List.take_of_length_le (Nat.le_max_left _ _),
    List.take_of_length_le (Nat.le_max_right _ _)] at hall

end EngineType

namespace Catalog

open EngineType (IsChain baseType)

variable {c : Catalog} {name : String} {types : List EngineType} {t u : EngineType}

/-- The first type of a name in a list. -/
def lookupIn (types : List EngineType) (name : String) : Option EngineType :=
  types.find? (·.name == name)

theorem name_of_lookupIn (h : lookupIn types name = some t) : t.name = name := by
  simpa using List.find?_some h

theorem lookupIn_without (types : List EngineType) (other name : String) :
    lookupIn (without types other) name = if name = other then none else lookupIn types name := by
  rw [lookupIn, without, List.find?_filter]
  split_ifs with h
  · rw [List.find?_eq_none]
    intro t _
    simp [h]
  · rw [lookupIn]
    congr 1
    funext t
    rw [Bool.eq_iff_iff]
    simp only [decide_eq_true_iff, bne_iff_ne, beq_iff_eq, and_iff_right_iff_imp]
    rintro rfl
    exact h

/-- What is found without a type is found with it. -/
theorem lookupIn_of_without {other : String} (h : lookupIn (without types other) name = some t) :
    lookupIn types name = some t := by
  rw [lookupIn_without] at h
  split_ifs at h
  exact h

theorem mem_chainIn (h : t ∈ chainIn types name) : t ∈ types := by
  fun_induction chainIn types name with
  | case1 => cases h
  | case2 types name s hs =>
    obtain rfl := List.mem_singleton.1 h
    exact List.mem_of_find?_eq_some hs
  | case3 types name s hs base hb ih =>
    rcases List.mem_cons.1 h with rfl | h
    · exact List.mem_of_find?_eq_some hs
    · exact (List.mem_filter.1 (ih h)).1

theorem baseType_of_without {other : String}
    (h : baseType (lookupIn (without types other)) t = some u) :
    baseType (lookupIn types) t = some u := by
  obtain ⟨base, hbase, hu⟩ := Option.bind_eq_some_iff.1 h
  exact Option.bind_eq_some_iff.2 ⟨base, hbase, lookupIn_of_without hu⟩

/-- Without the first type of a name, the base of a type is missing only if it is that type. -/
theorem baseType_without {s : EngineType} (hs : lookupIn types name = some s)
    (h : baseType (lookupIn types) t = some u) :
    u = s ∨ baseType (lookupIn (without types name)) t = some u := by
  obtain ⟨base, hbase, hu⟩ := Option.bind_eq_some_iff.1 h
  by_cases hname : base = name
  · subst hname
    exact .inl (Option.some.inj (hu.symm.trans hs))
  · refine .inr (Option.bind_eq_some_iff.2 ⟨base, hbase, ?_⟩)
    rw [lookupIn_without, if_neg hname, hu]

/-- The chain that is computed is a chain. -/
theorem isChain_chainIn (types : List EngineType) (name : String) :
    IsChain (lookupIn types) name (chainIn types name) := by
  fun_induction chainIn types name with
  | case1 types name hnone => exact ⟨hnone.symm, .nil, .nil, by simp⟩
  | case2 types name s hs hb =>
    refine ⟨hs.symm, .singleton s, List.nodup_singleton _, ?_⟩
    intro t ht u hu
    obtain rfl : s = t := by simpa using ht
    simp [baseType, hb] at hu
  | case3 types name s hs base hb ih =>
    constructor
    · exact hs.symm
    · refine (ih.next.imp fun t u => baseType_of_without).cons ?_
      intro u hu
      have hu : lookupIn (without types name) base = some u := ih.first.symm.trans hu
      exact Option.bind_eq_some_iff.2 ⟨base, hb, lookupIn_of_without hu⟩
    · rw [List.map_cons, List.nodup_cons]
      refine ⟨?_, ih.distinct⟩
      intro hmem
      obtain ⟨u, hu, heq⟩ := List.mem_map.1 hmem
      have hother := (List.mem_filter.1 (mem_chainIn hu)).2
      rw [heq, name_of_lookupIn hs, bne_self_eq_false] at hother
      cases hother
    · intro t ht u hu
      rcases baseType_without hs hu with rfl | hu
      · exact List.mem_cons_self
      · cases hrest : chainIn (without types name) base with
        | nil =>
          rw [hrest] at ht
          obtain rfl : s = t := by simpa using ht
          have hnone : lookupIn (without types name) base = none := by rw [← ih.first, hrest]; rfl
          rw [baseType, hb, Option.bind_some, hnone] at hu
          cases hu
        | cons v rest =>
          rw [hrest, List.getLast?_cons_cons, ← hrest] at ht
          rw [← hrest]
          exact List.mem_cons_of_mem _ (ih.stops t ht u hu)

/-- The types of a chain are described types. -/
theorem mem_engineTypes_of_mem_chain {c : Catalog} (h : t ∈ c.chain name) : t ∈ c.engineTypes :=
  mem_chainIn h

end Catalog

/-! ### Members without repeated ones -/

namespace Member

/-- The members of a list before which no other one has their signature. -/
def withoutRepeated (ms : List Member) : List Member :=
  (ms.zipIdx.filter fun x => (ms.take x.2).all fun m => m.signature != x.1.signature).map Prod.fst

variable {seen : List String} {ms : List Member} {m : Member} {s : String}

theorem keepFirst_cons_of_mem (h : m.signature ∈ seen) (ms : List Member) :
    keepFirst seen (m :: ms) = keepFirst seen ms := by
  rw [keepFirst, if_pos (List.contains_iff_mem.2 h)]

theorem keepFirst_cons_of_notMem (h : m.signature ∉ seen) (ms : List Member) :
    keepFirst seen (m :: ms) = m :: keepFirst (m.signature :: seen) ms := by
  rw [keepFirst, if_neg (by rwa [List.contains_iff_mem])]

/-- The loop over the members keeps those whose signature is new, by their places. -/
theorem keepFirst_eq (seen : List String) (ms : List Member) :
    keepFirst seen ms = (ms.zipIdx.filter fun x =>
      !seen.contains x.1.signature &&
        (ms.take x.2).all fun m => m.signature != x.1.signature).map Prod.fst := by
  induction ms generalizing seen with
  | nil => rfl
  | cons m ms ih =>
    have hshift : (m :: ms).zipIdx = (m, 0) :: ms.zipIdx.map fun x => (x.1, x.2 + 1) := by
      rw [List.zipIdx_cons, List.zipIdx_succ]
    rw [hshift, List.filter_cons, List.filter_map]
    by_cases h : m.signature ∈ seen
    · rw [keepFirst_cons_of_mem h, ih, if_neg (by simp [h]), List.map_map]
      congr 1
      apply List.filter_congr
      intro x _
      by_cases hx : x.1.signature ∈ seen
      · simp [hx]
      · have hne : m.signature ≠ x.1.signature := fun heq => hx (heq ▸ h)
        simp [hx, hne]
    · rw [keepFirst_cons_of_notMem h, ih, if_pos (by simp [h]), List.map_cons, List.map_map]
      congr 2
      apply List.filter_congr
      intro x _
      have hsame : (x.1.signature == m.signature) = (m.signature == x.1.signature) := BEq.comm
      simp only [List.contains_cons, hsame, Function.comp_apply, List.take_succ_cons, List.all_cons,
        bne, Bool.not_or]
      ac_rfl

theorem keepFirst_nil_eq (ms : List Member) : keepFirst [] ms = withoutRepeated ms := by
  rw [keepFirst_eq]
  rfl

theorem signature_notMem_of_mem (h : m ∈ keepFirst seen ms) : m.signature ∉ seen := by
  induction ms generalizing seen with
  | nil => cases h
  | cons n ms ih =>
    by_cases hn : n.signature ∈ seen
    · rw [keepFirst_cons_of_mem hn] at h
      exact ih h
    · rw [keepFirst_cons_of_notMem hn] at h
      rcases List.mem_cons.1 h with rfl | h
      · exact hn
      · exact fun hm => ih h (List.mem_cons_of_mem _ hm)

/-- No signature is kept twice. -/
theorem nodup_signature_keepFirst (seen : List String) (ms : List Member) :
    ((keepFirst seen ms).map signature).Nodup := by
  induction ms generalizing seen with
  | nil => exact .nil
  | cons m ms ih =>
    by_cases h : m.signature ∈ seen
    · rw [keepFirst_cons_of_mem h]
      exact ih seen
    · rw [keepFirst_cons_of_notMem h, List.map_cons, List.nodup_cons]
      refine ⟨?_, ih _⟩
      intro hm
      obtain ⟨n, hn, heq⟩ := List.mem_map.1 hm
      exact signature_notMem_of_mem hn (heq ▸ List.mem_cons_self)

/-- A new signature stands for the first member that has it. -/
theorem find?_keepFirst (h : s ∉ seen) (ms : List Member) :
    (keepFirst seen ms).find? (·.signature == s) = ms.find? (·.signature == s) := by
  induction ms generalizing seen with
  | nil => rfl
  | cons m ms ih =>
    by_cases hm : m.signature ∈ seen
    · have hne : (m.signature == s) = false := beq_eq_false_iff_ne.2 fun heq => h (heq ▸ hm)
      rw [keepFirst_cons_of_mem hm, ih h, List.find?_cons, hne]
    · rw [keepFirst_cons_of_notMem hm, List.find?_cons, List.find?_cons]
      split
      · rfl
      · next hne =>
        apply ih
        rw [List.mem_cons, not_or]
        exact ⟨fun heq => by simp [heq] at hne, h⟩

/-- Where signatures are distinct, a member is found by its own. -/
theorem find?_signature (hnodup : (ms.map signature).Nodup) (h : m ∈ ms) :
    ms.find? (·.signature == m.signature) = some m := by
  cases hfind : ms.find? (·.signature == m.signature) with
  | none =>
    have := List.find?_eq_none.1 hfind m h
    simp at this
  | some n =>
    have hsignature : n.signature = m.signature := by simpa using List.find?_some hfind
    rw [List.inj_on_of_nodup_map hnodup (List.mem_of_find?_eq_some hfind) h hsignature]

end Member

namespace Catalog

variable {c : Catalog} {name : String} {m : Member}

/-- A signature stands for the nearest member of the chain that has it. -/
theorem find?_membersOf (c : Catalog) (name s : String) :
    (c.membersOf name).find? (·.signature == s) =
      (c.chain name).findSome? fun t =>
        t.members.find? fun m => m.isEligible && m.signature == s := by
  rw [membersOf, Member.find?_keepFirst List.not_mem_nil, List.find?_flatMap]
  congr 1
  funext t
  rw [List.find?_filter]
  simp only [Bool.decide_and, Bool.decide_eq_true]

/-- A member that is kept stands in a type of the chain, and no nearer type has its signature. -/
theorem exists_nearest (h : m ∈ c.membersOf name) :
    ∃ nearer t further, c.chain name = nearer ++ t :: further ∧ m ∈ t.members ∧
      m.isEligible = true ∧ ∀ u ∈ nearer, ∀ n ∈ u.members, n.isEligible = true →
        n.signature ≠ m.signature := by
  have hfind := Member.find?_signature (Member.nodup_signature_keepFirst [] _) h
  have hnearest := (find?_membersOf c name m.signature).symm.trans hfind
  obtain ⟨nearer, t, further, hchain, ht, hnearer⟩ := List.findSome?_eq_some_iff.1 hnearest
  have heligible := List.find?_some ht
  rw [Bool.and_eq_true] at heligible
  refine ⟨nearer, t, further, hchain, List.mem_of_find?_eq_some ht, heligible.1, ?_⟩
  intro u hu n hn hk heq
  have hnone := List.find?_eq_none.1 (hnearer u hu) n hn
  simp [hk, heq] at hnone

/-- The members of a name along its chain. -/
theorem exists_of_eligible {t : EngineType} (ht : t ∈ c.chain name) (hm : m ∈ t.members)
    (h : m.isEligible = true) :
    ∃ n ∈ c.membersOf name, n.signature = m.signature ∧
      (c.chain name).findSome? (fun u =>
        u.members.find? fun x => x.isEligible && x.signature == m.signature) = some n := by
  rw [← find?_membersOf]
  cases hfind : (c.membersOf name).find? (·.signature == m.signature) with
  | some n => exact ⟨n, List.mem_of_find?_eq_some hfind, by simpa using List.find?_some hfind, rfl⟩
  | none =>
    rw [find?_membersOf, List.findSome?_eq_none_iff] at hfind
    have hnone := List.find?_eq_none.1 (hfind t ht) m hm
    simp [h] at hnone

end Catalog

namespace CatalogCall

/-- The members of an engine type of a catalog are declarations of it. -/
theorem declared_of_mem {calls : List CatalogCall} {t : EngineType}
    (h : t ∈ (applyAll {} calls).engineTypes) : ∀ m ∈ t.members, m.declaringType = t.name := by
  rw [(types_accepted {} calls).1, List.nil_append] at h
  obtain ⟨x, -, hx⟩ := List.mem_filterMap.1 h
  cases x with
  | addEngineType u =>
    obtain rfl : u.declared = t := Option.some.inj hx
    intro m hm
    obtain ⟨n, -, rfl⟩ := List.mem_map.1 hm
    rfl
  | _ => cases hx

end CatalogCall

/-- A name has one chain of described types, and its members are the eligible ones along the chain,
without those whose signature occurred before: one for each signature, the nearest, declared by
the type that it stands in. -/
theorem Catalog.membersOf_chain (calls : List CatalogCall) (name : String) :
    let c := CatalogCall.applyAll {} calls
    let members := c.membersOf name
    ∃ ts, (∀ us, EngineType.IsChain c.findEngineType name us ↔ us = ts) ∧
      members = Member.withoutRepeated (ts.flatMap fun t => t.members.filter Member.isEligible) ∧
      (members.map Member.signature).Nodup ∧
      (∀ t ∈ ts, ∀ m ∈ t.members, m.isEligible = true →
        ∃ n ∈ members, n.signature = m.signature ∧
          ts.findSome? (fun u =>
            u.members.find? fun x => x.isEligible && x.signature == m.signature) = some n) ∧
      ∀ m ∈ members, ∃ nearer t further, ts = nearer ++ t :: further ∧ m ∈ t.members ∧
        m.isEligible = true ∧ m.declaringType = t.name ∧
        ∀ u ∈ nearer, ∀ n ∈ u.members, n.isEligible = true → n.signature ≠ m.signature := by
  intro c members
  have hchain : EngineType.IsChain c.findEngineType name (c.chain name) :=
    isChain_chainIn c.engineTypes name
  refine ⟨c.chain name, fun us => ⟨fun h => h.unique hchain, fun h => h ▸ hchain⟩,
    Member.keepFirst_nil_eq _, Member.nodup_signature_keepFirst [] _,
    fun t ht m hm => exists_of_eligible ht hm, fun m hm => ?_⟩
  obtain ⟨nearer, t, further, hts, hmem, heligible, hnearer⟩ := exists_nearest hm
  have ht : t ∈ c.chain name := by simp [hts]
  have hdeclared := CatalogCall.declared_of_mem (mem_engineTypes_of_mem_chain ht) m hmem
  exact ⟨nearer, t, further, hts, hmem, heligible, hdeclared, hnearer⟩

end ScriptBridge
