import Mathlib.Tactic.SplitIfs
import ScriptBridge.Proofs.File.Paths

/-! Normal forms of paths from the root. Proved: the normal form of such a path has its reduced
names as its components, unless it denotes a directory as such, and the path of an entry below a
path is normal where the names of the entry are put behind the normal form of that path. -/

namespace ScriptBridge

namespace Path

/-- A name that a directory can give to an entry. -/
structure IsEntryName (name : String) : Prop extends IsComponent name where
  noDots : name ≠ "." ∧ name ≠ ".."

instance (name : String) : Decidable (IsEntryName name) :=
  decidable_of_iff ((name ≠ "" ∧ '/' ∉ name.toList) ∧ name ≠ "." ∧ name ≠ "..")
    ⟨fun ⟨⟨nonempty, single⟩, noDots⟩ => ⟨⟨nonempty, single⟩, noDots⟩,
      fun h => ⟨⟨h.nonempty, h.single⟩, h.noDots⟩⟩

variable {here p : Path} {name : String} {l : List String}

/-! ### Paths of names -/

section Names

theorem toList_relative (n m : String) (l : List String) :
    (relative (n :: m :: l)).text.toList = n.toList ++ '/' :: (relative (m :: l)).text.toList := by
  simp [relative, String.intercalate_cons_cons, String.toList_append]

theorem toList_ofNames (l : List String) :
    (ofNames l).text.toList = [] ++ '/' :: (relative l).text.toList := by
  simp [ofNames, relative, String.toList_append]

theorem isAbsolute_ofNames (l : List String) : (ofNames l).isAbsolute = true := by
  rw [isAbsolute, toList_ofNames]
  rfl

variable (h : ∀ n ∈ l, IsComponent n)

include h

theorem names_relative : (relative l).names = l := by
  induction l with
  | nil => rfl
  | cons n l ih =>
    have hn := h n List.mem_cons_self
    cases l with
    | nil => simpa [relative] using hn.names
    | cons m l =>
      rw [names_eq_append (toList_relative n m l), String.ofList_toList, hn.names,
        ih fun k hk => h k (List.mem_cons_of_mem _ hk)]
      rfl

theorem names_ofNames : (ofNames l).names = l := by
  rw [names_eq_append (toList_ofNames l), names_relative h]
  rfl

theorem text_relative_ne_empty (hl : l ≠ []) : (relative l).text ≠ "" := by
  apply text_ne_empty_of_names
  rwa [names_relative h]

theorem not_endsInSlash_relative : (relative l).endsInSlash = false := by
  induction l with
  | nil => rfl
  | cons n l ih =>
    cases l with
    | nil => simpa [relative] using (h n List.mem_cons_self).not_endsInSlash
    | cons m l =>
      have hrest : ∀ k ∈ m :: l, IsComponent k := fun k hk => h k (List.mem_cons_of_mem _ hk)
      have hne := text_relative_ne_empty hrest (List.cons_ne_nil m l)
      rw [endsInSlash_eq (toList_relative n m l) hne, ih hrest]

theorem components_ofNames : (ofNames l).components = l := by
  rw [components, names_ofNames h]
  cases l with
  | nil => rfl
  | cons n l =>
    have hne := text_relative_ne_empty h (List.cons_ne_nil n l)
    rw [endsInSlash_eq (toList_ofNames (n :: l)) hne, not_endsInSlash_relative h]
    simp

/-- A slash at the end is no name. -/
theorem names_ofNames_slash : (Path.mk ((ofNames l).text ++ "/")).names = l := by
  have htext : (Path.mk ((ofNames l).text ++ "/")).text.toList =
      (ofNames l).text.toList ++ '/' :: (Path.mk "").text.toList := by
    simp [String.toList_append]
  rw [names_eq_append htext, String.ofList_toList, names_empty, List.append_nil]
  exact names_ofNames h

end Names

/-! ### Reduced names -/

theorem mem_reduceStep {isAbsolute : Bool} {names : List String} {component n : String}
    (h : n ∈ reduceStep isAbsolute names component) :
    n ∈ names ∨ n = ".." ∨ n = component ∧ component ≠ "" := by
  unfold reduceStep at h
  split at h
  · exact .inl h
  · next hstay =>
    have hne : component ≠ "" := fun he => hstay (by simp [he])
    split at h
    · split at h
      · split at h
        · cases h
        · exact .inr (.inl (List.mem_singleton.1 h))
      · split at h
        · rcases List.mem_append.1 h with h | h
          · exact .inl h
          · exact .inr (.inl (List.mem_singleton.1 h))
        · exact .inl (List.dropLast_subset _ h)
    · rcases List.mem_append.1 h with h | h
      · exact .inl h
      · exact .inr (.inr ⟨List.mem_singleton.1 h, hne⟩)

theorem isComponent_reduceStep {isAbsolute : Bool} {names : List String} {component : String}
    (h : ∀ n ∈ names, IsComponent n) (hc : component = "" ∨ IsComponent component) :
    ∀ n ∈ reduceStep isAbsolute names component, IsComponent n := by
  intro n hn
  rcases mem_reduceStep hn with hn | rfl | ⟨rfl, hne⟩
  · exact h n hn
  · exact ⟨by decide, by decide⟩
  · exact hc.resolve_left hne

theorem components_cases {component : String} (h : component ∈ p.components) :
    component = "" ∨ IsComponent component := by
  rw [components] at h
  rcases List.mem_append.1 h with h | h
  · exact .inr (isComponent_of_mem_names h)
  · split_ifs at h
    · exact .inl (List.mem_singleton.1 h)
    · cases h

theorem isComponent_of_mem_reducedNames {n : String} (h : n ∈ p.reducedNames) : IsComponent n := by
  -- two dots may stand among the names, so this is all that each step keeps
  refine List.foldlRecOn (motive := fun names => ∀ n ∈ names, IsComponent n) p.components
    (reduceStep p.isAbsolute) (by simp) ?_ n h
  exact fun names hnames c hc => isComponent_reduceStep hnames (components_cases hc)

/-- The reduced names depend on the names alone. -/
theorem reducedNames_eq (p : Path) : p.reducedNames = p.names.foldl (reduceStep p.isAbsolute) [] := by
  rw [reducedNames, components, List.foldl_append]
  split_ifs
  · rfl
  · rfl

/-- The name of an entry is one more reduced name. -/
theorem reducedNames_join (hp : p.text ≠ "") (hn : IsEntryName name) :
    (p.join ⟨name⟩).reducedNames = p.reducedNames ++ [name] := by
  have hstep (names : List String) : reduceStep p.isAbsolute names name = names ++ [name] := by
    simp [reduceStep, hn.nonempty, hn.noDots.1, hn.noDots.2]
  rw [reducedNames_eq, reducedNames_eq, names_join hp hn.toIsComponent,
    isAbsolute_join hp hn.toIsComponent, List.foldl_append, List.foldl_cons, List.foldl_nil, hstep]

/-! ### Last components -/

/-- A path that ends in the name of an entry does not denote a directory as such. -/
theorem not_endsOpen (h : p.components.getLast? = some name) (hname : IsEntryName name) :
    p.endsOpen = false := by
  rw [endsOpen, List.getLastD_eq_getLast?, h]
  simp [hname.nonempty, hname.noDots.1, hname.noDots.2]

theorem getLast?_components (h : p.fileName ≠ "") : p.components.getLast? = some p.fileName := by
  rw [fileName, List.getLastD_eq_getLast?] at h ⊢
  cases hl : p.components.getLast? with
  | none => simp [hl] at h
  | some name => rfl

theorem isComponent_fileName (h : p.fileName ≠ "") : IsComponent p.fileName :=
  (components_cases (List.mem_of_getLast? (getLast?_components h))).resolve_left h

/-! ### Normal forms -/

theorem text_ne_empty_of_isAbsolute (h : p.isAbsolute = true) : p.text ≠ "" := by
  intro he
  rw [isAbsolute, he] at h
  cases h

theorem names_normal (h : p.isAbsolute = true) : p.normal.names = p.reducedNames := by
  have hreduced : ∀ n ∈ p.reducedNames, IsComponent n :=
    fun n hn => isComponent_of_mem_reducedNames hn
  have hempty := isEmpty_eq_false (text_ne_empty_of_isAbsolute h)
  rw [normal]
  simp only [hempty, h, if_true, Bool.false_eq_true, if_false]
  split_ifs
  · exact names_ofNames_slash hreduced
  · rw [String.append_empty]
    exact names_ofNames hreduced

/-- A path that does not denote a directory as such is, in normal form, the path of its reduced
names. -/
theorem normal_eq_ofNames (h : p.isAbsolute = true) (hopen : p.endsOpen = false) :
    p.normal = ofNames p.reducedNames := by
  have hempty := isEmpty_eq_false (text_ne_empty_of_isAbsolute h)
  rw [normal]
  simp [hempty, h, hopen]

/-! ### Paths below a path -/

theorem below_concat (p : Path) (names : List String) (name : String) :
    p.below (names ++ [name]) = (p.below names).join ⟨name⟩ := by
  rw [below, List.foldl_append]
  rfl

theorem text_below_ne_empty (hp : p.text ≠ "") (hl : ∀ n ∈ l, IsComponent n) :
    (p.below l).text ≠ "" := by
  induction l generalizing p with
  | nil => exact hp
  | cons n l ih =>
    have hn := text_join_ne_empty hp (hl n List.mem_cons_self)
    exact ih hn fun m hm => hl m (List.mem_cons_of_mem _ hm)

section Here

variable (hhere : here.isAbsolute = true)

include hhere

theorem isAbsolute_join_right (p : Path) : (here.join p).isAbsolute = true := by
  cases hp : p.isAbsolute with
  | true => rw [join_of_isAbsolute hp, hp]
  | false => rw [isAbsolute_join_of_relative (text_ne_empty_of_isAbsolute hhere) hp, hhere]

theorem join_join (hp : p.text ≠ "") (hn : IsComponent name) :
    here.join (p.join ⟨name⟩) = (here.join p).join ⟨name⟩ := by
  have hne := text_ne_empty_of_isAbsolute hhere
  cases habs : p.isAbsolute with
  | true =>
    have hjoin : (p.join ⟨name⟩).isAbsolute = true := by rw [isAbsolute_join hp hn, habs]
    rw [join_of_isAbsolute hjoin, join_of_isAbsolute habs]
  | false =>
    have hjoin : (p.join ⟨name⟩).isAbsolute = false := by rw [isAbsolute_join hp hn, habs]
    have hlast : (here.join p).endsInSlash = p.endsInSlash :=
      endsInSlash_join_of_relative hne habs hp
    have hjoined := text_ne_empty_of_isAbsolute (isAbsolute_join_right hhere p)
    rw [join_eq hne hjoin, join_eq hjoined hn.not_isAbsolute, hlast, join_eq hne habs,
      join_eq hp hn.not_isAbsolute]
    simp only [String.append_assoc]

theorem normalFrom_eq (hp : p.text ≠ "") (hopen : (here.join p).endsOpen = false) :
    normalFrom here p = ofNames (here.join p).reducedNames := by
  rw [normalFrom, isEmpty_eq_false hp]
  exact normal_eq_ofNames (isAbsolute_join_right hhere p) hopen

theorem names_normalFrom (hp : p.text ≠ "") :
    (normalFrom here p).names = (here.join p).reducedNames := by
  rw [normalFrom, isEmpty_eq_false hp]
  exact names_normal (isAbsolute_join_right hhere p)

theorem reducedNames_below (hp : p.text ≠ "") (hl : ∀ n ∈ l, IsEntryName n) :
    (here.join (p.below l)).reducedNames = (here.join p).reducedNames ++ l := by
  induction l generalizing p with
  | nil => rw [List.append_nil]; rfl
  | cons n l ih =>
    have hn := hl n List.mem_cons_self
    have hjoined := text_ne_empty_of_isAbsolute (isAbsolute_join_right hhere p)
    have hbelow := ih (text_join_ne_empty hp hn.toIsComponent)
      fun m hm => hl m (List.mem_cons_of_mem _ hm)
    rw [show p.below (n :: l) = (p.join ⟨n⟩).below l from rfl, hbelow,
      join_join hhere hp hn.toIsComponent, reducedNames_join hjoined hn, List.append_assoc]
    rfl

/-- The normal form of the path of an entry: its names behind those of the path that it is
seen from. -/
theorem normalFrom_below (hp : p.text ≠ "") (hl : ∀ n ∈ l, IsEntryName n) (hne : l ≠ []) :
    normalFrom here (p.below l) = ofNames ((normalFrom here p).names ++ l) := by
  obtain ⟨front, name, rfl⟩ : ∃ front name, l = front ++ [name] :=
    ⟨_, _, (List.dropLast_concat_getLast hne).symm⟩
  have hname := hl name (by simp)
  have hfront : (p.below front).text ≠ "" :=
    text_below_ne_empty hp fun n hn => (hl n (List.mem_append_left _ hn)).toIsComponent
  have hbelow : (p.below (front ++ [name])).text ≠ "" := by
    rw [below_concat]
    exact text_join_ne_empty hfront hname.toIsComponent
  rw [names_normalFrom hhere hp, ← reducedNames_below hhere hp hl]
  refine normalFrom_eq hhere hbelow (not_endsOpen ?_ hname)
  have hjoined := text_ne_empty_of_isAbsolute (isAbsolute_join_right hhere (p.below front))
  rw [below_concat, join_join hhere hfront hname.toIsComponent,
    components_join hjoined hname.toIsComponent, List.getLast?_concat]

/-- A path that ends in the name of an entry is, in normal form, the path of its names. -/
theorem normalFrom_of_fileName (hp : p.text ≠ "") (hname : IsEntryName p.fileName) :
    normalFrom here p = ofNames (normalFrom here p).names := by
  have hlast := getLast?_components hname.nonempty
  rw [names_normalFrom hhere hp]
  refine normalFrom_eq hhere hp (not_endsOpen ?_ hname)
  cases habs : p.isAbsolute with
  | true => rwa [join_of_isAbsolute habs]
  | false =>
    have hnames : p.names ≠ [] := by
      intro he
      rw [components, he] at hlast
      simp at hlast
    rw [components_join_of_relative (text_ne_empty_of_isAbsolute hhere) habs hnames,
      List.getLast?_append, hlast]
    rfl

end Here

end Path

end ScriptBridge
