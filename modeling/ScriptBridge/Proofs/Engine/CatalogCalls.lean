import Mathlib.Tactic.SplitIfs
import ScriptBridge.Engine.Catalog

/-! Catalogs built by calls. A call sets the engine's namespace, sets the root type, or offers a
type of either sort, which is accepted or refused. Proved: the catalog holds what was accepted
in the order of the calls, a name stands for the first type offered under it, and a refused call
leaves the catalog as it is. -/

namespace ScriptBridge

/-! ### Lists of named things -/

section Named
variable {α : Type} (name : α → String)

/-- A list accepts another thing unless its name is empty or stands in the list. -/
def accepts (l : List α) (x : α) : Bool := name x != "" && (l.find? (name · == name x)).isNone

/-- The list behind an offer. -/
def offer (l : List α) (x : α) : List α := if accepts name l x then l ++ [x] else l

/-- The list behind offers. -/
def offerAll (l xs : List α) : List α := xs.foldl (offer name) l

variable {name} {l : List α} {x : α}

theorem accepts_eq_false_iff :
    accepts name l x = false ↔ name x = "" ∨ ∃ y ∈ l, name y = name x := by
  simp only [accepts, Bool.and_eq_false_iff, bne_eq_false_iff_eq, Option.isNone_eq_false_iff,
    List.find?_isSome, beq_iff_eq]

variable (name) in
theorem refused_eq (l : List α) (x : α) :
    (name x == "" || (l.find? (name · == name x)).isSome) = !accepts name l x := by
  rw [accepts, Bool.not_and, bne, Bool.not_not, Option.not_isNone]

/-- The thing of a name behind an offer. -/
theorem find?_offer (l : List α) (x : α) (n : String) :
    (offer name l x).find? (name · == n) =
      (l.find? (name · == n)).or (if n = "" then none else [x].find? (name · == n)) := by
  by_cases hx : name x = n
  · subst hx
    rw [offer]
    split_ifs with ht hn hn
    · rw [accepts, hn, bne_self_eq_false, Bool.false_and] at ht
      cases ht
    · exact List.find?_append
    · exact (Option.or_none).symm
    · obtain h | ⟨y, hy, hname⟩ := accepts_eq_false_iff.1 (Bool.not_eq_true _ ▸ ht)
      · exact absurd h hn
      · have hsome : (l.find? (name · == name x)).isSome :=
          List.find?_isSome.2 ⟨y, hy, beq_iff_eq.2 hname⟩
        exact (Option.or_of_isSome hsome).symm
  · have hother : [x].find? (name · == n) = none := by simp [hx]
    rw [offer, hother, ite_self, Option.or_none]
    split_ifs
    · rw [List.find?_append, hother, Option.or_none]
    · rfl

variable (name) in
theorem offerAll_append (l xs ys : List α) :
    offerAll name l (xs ++ ys) = offerAll name (offerAll name l xs) ys := List.foldl_append

/-- An offer that is accepted comes last. -/
theorem offerAll_of_accepts {o : Option α} (h : o.all (accepts name l)) :
    offerAll name l o.toList = l ++ o.toList := by
  cases o with
  | none => exact (List.append_nil l).symm
  | some x => exact if_pos h

/-- A name stands for the first thing of it; the empty name stands for nothing new. -/
theorem find?_offerAll (l xs : List α) (n : String) :
    (offerAll name l xs).find? (name · == n) =
      (l.find? (name · == n)).or (if n = "" then none else xs.find? (name · == n)) := by
  induction xs generalizing l with
  | nil => simp [offerAll]
  | cons x xs ih =>
    have hcons : offerAll name l (x :: xs) = offerAll name (offer name l x) xs := rfl
    rw [hcons, ih, find?_offer, Option.or_assoc]
    split_ifs
    · rfl
    · rw [← List.find?_append, List.singleton_append]

end Named

/-! ### Calls -/

/-- The type as a catalog holds it: its members are declarations of it. -/
def EngineType.declared (t : EngineType) : EngineType :=
  { t with members := t.members.map fun m => { m with declaringType := t.name } }

/-- A type of the project. An empty namespace is none. -/
def ProjectType.ofNames (name namespaceName : String) : ProjectType where
  name
  namespaceName := if namespaceName == "" then none else some namespaceName

/-- A call that builds a catalog. -/
inductive CatalogCall where
  | setNamespace (name : String)
  | setRoot (name : String)
  | addEngineType (type : EngineType)
  | addProjectType (name namespaceName : String)

namespace CatalogCall

/-- The engine type that a call offers. -/
def engineType? : CatalogCall → Option EngineType
  | addEngineType t => some t.declared
  | _ => none

/-- The project type that a call offers. -/
def projectType? : CatalogCall → Option ProjectType
  | addProjectType name namespaceName => some (.ofNames name namespaceName)
  | _ => none

/-- The namespace that a call sets. -/
def namespace? : CatalogCall → Option String
  | setNamespace name => some name
  | _ => none

/-- The catalog behind a call. -/
def apply (c : Catalog) : CatalogCall → Catalog
  | setNamespace name => { c with engineNamespace := name }
  | setRoot name => { c with rootType := name }
  | addEngineType t => (c.addEngineType t).getD c
  | addProjectType name namespaceName => (c.addProjectType name namespaceName).getD c

/-- Whether a call is accepted. -/
def isAccepted (c : Catalog) : CatalogCall → Bool
  | addEngineType t => (c.addEngineType t).isSome
  | addProjectType name namespaceName => (c.addProjectType name namespaceName).isSome
  | _ => true

/-- The catalog behind calls. -/
def applyAll (c : Catalog) (calls : List CatalogCall) : Catalog := calls.foldl apply c

/-- The calls that are accepted when all are made one after another. -/
def accepted (c : Catalog) : List CatalogCall → List CatalogCall
  | [] => []
  | x :: calls =>
    if x.isAccepted c then x :: accepted (x.apply c) calls else accepted (x.apply c) calls

/-- The namespace that the last of the calls for one sets, or the one there was. -/
def lastNamespace (c : Catalog) (calls : List CatalogCall) : String :=
  (calls.filterMap namespace?).getLast?.getD c.engineNamespace

variable {c : Catalog} {x : CatalogCall} {calls : List CatalogCall}

/-! ### One call -/

theorem addEngineType_eq (c : Catalog) (t : EngineType) :
    c.addEngineType t =
      if accepts EngineType.name c.engineTypes t.declared then
        some { c with engineTypes := c.engineTypes ++ [t.declared] }
      else none := by
  have h : (t.name == "" || c.isEngineType t.name) =
      !accepts EngineType.name c.engineTypes t.declared := refused_eq EngineType.name _ t.declared
  simp only [Catalog.addEngineType, h, Bool.not_eq_true', ← Bool.not_eq_true, ite_not]
  rfl

theorem addProjectType_eq (c : Catalog) (name namespaceName : String) :
    c.addProjectType name namespaceName =
      if accepts ProjectType.name c.projectTypes (.ofNames name namespaceName) then
        some { c with projectTypes := c.projectTypes ++ [.ofNames name namespaceName] }
      else none := by
  have h : (name == "" || (c.findProjectType name).isSome) =
      !accepts ProjectType.name c.projectTypes (.ofNames name namespaceName) :=
    refused_eq ProjectType.name _ (.ofNames name namespaceName)
  simp only [Catalog.addProjectType, h, Bool.not_eq_true', ← Bool.not_eq_true, ite_not]
  rfl

/-- A call is accepted exactly if the list of its sort accepts what it offers. -/
theorem isAccepted_eq (c : Catalog) (x : CatalogCall) :
    x.isAccepted c =
      (x.engineType?.all (accepts EngineType.name c.engineTypes) &&
        x.projectType?.all (accepts ProjectType.name c.projectTypes)) := by
  cases x with
  | setNamespace | setRoot => rfl
  | addEngineType t =>
    rw [isAccepted, addEngineType_eq]
    cases ht : accepts EngineType.name c.engineTypes t.declared <;>
      simp [engineType?, projectType?, ht]
  | addProjectType name namespaceName =>
    rw [isAccepted, addProjectType_eq]
    cases ht : accepts ProjectType.name c.projectTypes (.ofNames name namespaceName) <;>
      simp [engineType?, projectType?, ht]

/-- The types behind a call are those before it and the one that it offers, if that is accepted. -/
theorem types_apply (c : Catalog) (x : CatalogCall) :
    (x.apply c).engineTypes = offerAll EngineType.name c.engineTypes x.engineType?.toList ∧
      (x.apply c).projectTypes =
        offerAll ProjectType.name c.projectTypes x.projectType?.toList := by
  cases x with
  | setNamespace | setRoot => exact ⟨rfl, rfl⟩
  | addEngineType t =>
    rw [apply, addEngineType_eq]
    split_ifs with ht
    · exact ⟨(if_pos ht).symm, rfl⟩
    · exact ⟨(if_neg ht).symm, rfl⟩
  | addProjectType name namespaceName =>
    rw [apply, addProjectType_eq]
    split_ifs with ht
    · exact ⟨rfl, (if_pos ht).symm⟩
    · exact ⟨rfl, (if_neg ht).symm⟩

theorem engineNamespace_apply (c : Catalog) (x : CatalogCall) :
    (x.apply c).engineNamespace = x.namespace?.getD c.engineNamespace := by
  cases x with
  | setNamespace | setRoot => rfl
  | addEngineType t =>
    rw [apply, addEngineType_eq]
    split_ifs <;> rfl
  | addProjectType name namespaceName =>
    rw [apply, addProjectType_eq]
    split_ifs <;> rfl

/-- A refused call changes nothing. -/
theorem apply_of_refused (h : x.isAccepted c = false) : x.apply c = c := by
  cases x with
  | setNamespace | setRoot => cases h
  | addEngineType | addProjectType =>
    rw [isAccepted, Option.isSome_eq_false_iff, Option.isNone_iff_eq_none] at h
    rw [apply, h, Option.getD_none]

/-! ### All calls -/

@[simp] theorem applyAll_nil (c : Catalog) : applyAll c [] = c := rfl

@[simp] theorem applyAll_cons (c : Catalog) (x : CatalogCall) (calls : List CatalogCall) :
    applyAll c (x :: calls) = applyAll (x.apply c) calls := rfl

theorem types_applyAll (c : Catalog) (calls : List CatalogCall) :
    (applyAll c calls).engineTypes =
        offerAll EngineType.name c.engineTypes (calls.filterMap engineType?) ∧
      (applyAll c calls).projectTypes =
        offerAll ProjectType.name c.projectTypes (calls.filterMap projectType?) := by
  induction calls generalizing c with
  | nil => exact ⟨rfl, rfl⟩
  | cons x calls ih =>
    obtain ⟨hengine, hproject⟩ := types_apply c x
    obtain ⟨ihe, ihp⟩ := ih (x.apply c)
    rw [applyAll_cons, ihe, ihp, hengine, hproject, ← offerAll_append, ← offerAll_append,
      List.filterMap_cons, List.filterMap_cons]
    cases x.engineType? <;> cases x.projectType? <;> exact ⟨rfl, rfl⟩

theorem engineNamespace_applyAll (c : Catalog) (calls : List CatalogCall) :
    (applyAll c calls).engineNamespace = lastNamespace c calls := by
  induction calls generalizing c with
  | nil => rfl
  | cons x calls ih =>
    rw [applyAll_cons, ih, lastNamespace, lastNamespace, engineNamespace_apply, List.filterMap_cons]
    cases x.namespace? <;> simp [List.getLast?_cons]

/-- The types behind calls are those before them and the accepted ones. -/
theorem types_accepted (c : Catalog) (calls : List CatalogCall) :
    (applyAll c calls).engineTypes = c.engineTypes ++ (accepted c calls).filterMap engineType? ∧
      (applyAll c calls).projectTypes =
        c.projectTypes ++ (accepted c calls).filterMap projectType? := by
  induction calls generalizing c with
  | nil => exact ⟨(List.append_nil _).symm, (List.append_nil _).symm⟩
  | cons x calls ih =>
    obtain ⟨ihe, ihp⟩ := ih (x.apply c)
    rw [applyAll_cons, accepted]
    split_ifs with h
    · obtain ⟨hengine, hproject⟩ := types_apply c x
      have htaken := h
      rw [isAccepted_eq, Bool.and_eq_true] at htaken
      rw [offerAll_of_accepts htaken.1] at hengine
      rw [offerAll_of_accepts htaken.2] at hproject
      rw [ihe, ihp, hengine, hproject, List.filterMap_cons, List.filterMap_cons, List.append_assoc,
        List.append_assoc]
      cases x.engineType? <;> cases x.projectType? <;> exact ⟨rfl, rfl⟩
    · rw [apply_of_refused (Bool.not_eq_true _ ▸ h)] at ihe ihp ⊢
      exact ⟨ihe, ihp⟩

/-- A type is refused if its name is empty, or taken by a type of its sort. -/
theorem refused_iff (c : Catalog) (x : CatalogCall) :
    x.isAccepted c = false ↔
      (∃ t, x.engineType? = some t ∧ (t.name = "" ∨ ∃ u ∈ c.engineTypes, u.name = t.name)) ∨
        ∃ p, x.projectType? = some p ∧ (p.name = "" ∨ ∃ q ∈ c.projectTypes, q.name = p.name) := by
  simp only [isAccepted_eq, Bool.and_eq_false_iff, Option.all_eq_false, accepts_eq_false_iff]

/-- A name stands for the first type that the calls offer under it. -/
theorem findEngineType_eq (calls : List CatalogCall) (n : String) :
    (applyAll {} calls).findEngineType n =
      if n = "" then none else (calls.filterMap engineType?).find? (·.name == n) := by
  rw [Catalog.findEngineType, (types_applyAll {} calls).1, find?_offerAll]
  rfl

/-- An engine type that is found has the name, and its members are declarations of it. -/
theorem declared_of_findEngineType {n : String} {t : EngineType}
    (h : (applyAll {} calls).findEngineType n = some t) :
    t.name = n ∧ ∀ m ∈ t.members, m.declaringType = n := by
  rw [findEngineType_eq, Option.ite_none_left_eq_some] at h
  have hname : t.name = n := by simpa using List.find?_some h.2
  obtain ⟨x, -, hx⟩ := List.mem_filterMap.1 (List.mem_of_find?_eq_some h.2)
  cases x with
  | addEngineType u =>
    obtain rfl : u.declared = t := Option.some.inj hx
    refine ⟨hname, fun m hm => ?_⟩
    obtain ⟨_, -, rfl⟩ := List.mem_map.1 hm
    exact hname
  | _ => cases hx

/-- No engine type is found exactly if none was offered under the name. -/
theorem findEngineType_eq_none_iff (calls : List CatalogCall) (n : String) :
    (applyAll {} calls).findEngineType n = none ↔
      ¬∃ t, addEngineType t ∈ calls ∧ t.name = n ∧ n ≠ "" := by
  rw [findEngineType_eq, ite_eq_left_iff, List.find?_eq_none]
  constructor
  · rintro h ⟨t, ht, rfl, hn⟩
    exact h hn t.declared (List.mem_filterMap.2 ⟨_, ht, rfl⟩) (beq_self_eq_true _)
  · intro h hn t ht hname
    obtain ⟨x, hx, hoffer⟩ := List.mem_filterMap.1 ht
    cases x with
    | addEngineType u =>
      obtain rfl : u.declared = t := Option.some.inj hoffer
      exact h ⟨u, hx, beq_iff_eq.1 hname, hn⟩
    | _ => cases hoffer

end CatalogCall

end ScriptBridge
