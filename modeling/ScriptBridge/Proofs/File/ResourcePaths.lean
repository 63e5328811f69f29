import Mathlib.Data.List.Infix
import Mathlib.Data.String.Basic
import ScriptBridge.Proofs.File.NormalPaths

/-! Paths of the resource system. A script goes by the way to it from the root of the project, or
by its last name alone. Proved: the way to a path below another one leads down by the names below
it, and every other way leads up first; so a script below the root goes by its names below it. They
are the names between the slashes of the resource path, none of them is empty or dots, and scripts
below one root have different resource paths unless they have one normal form. -/

namespace ScriptBridge

/-- Parts without the separator are read back from their text. -/
theorem splitOn_intercalate {separator : Char} {l : List String} (hne : l ≠ [])
    (h : ∀ s ∈ l, separator ∉ s.toList) :
    splitOn separator ((String.singleton separator).intercalate l).toList =
      l.map String.toList := by
  induction l with
  | nil => exact absurd rfl hne
  | cons s l ih =>
    obtain ⟨hs, hl⟩ := List.forall_mem_cons.1 h
    cases l with
    | nil => simp [splitOn_eq_singleton hs]
    | cons s' l =>
      have htext : ((String.singleton separator).intercalate (s :: s' :: l)).toList =
          s.toList ++ separator :: ((String.singleton separator).intercalate (s' :: l)).toList := by
        simp [String.intercalate_cons_cons, String.toList_append]
      rw [htext, splitOn_append_cons, splitOn_eq_singleton hs, ih (List.cons_ne_nil _ _) hl]
      rfl

namespace Path

variable {here script root p : Path} {l names : List String}

/-! ### Normal forms with a last name -/

/-- From the root on, dots leave no dots behind. -/
theorem isEntryName_reduceStep {component : String} (h : ∀ n ∈ names, IsEntryName n)
    (hc : component = "" ∨ IsComponent component) :
    ∀ n ∈ reduceStep true names component, IsEntryName n := by
  unfold reduceStep
  split
  · exact h
  · next hstay =>
    simp only [Bool.or_eq_true, beq_iff_eq, not_or] at hstay
    split
    · split
      · simp
      · next last hlast =>
        have hdots : ¬(last == "..") = true := by
          simpa using (h last (List.mem_of_getLast? hlast)).noDots.2
        rw [if_neg hdots]
        exact fun n hn => h n (List.dropLast_subset _ hn)
    · next hdots =>
      have hname : IsEntryName component :=
        ⟨hc.resolve_left hstay.1, hstay.2, by simpa using hdots⟩
      exact List.forall_mem_append.2 ⟨h, by simpa using hname⟩

theorem isEntryName_of_mem_reducedNames (h : p.isAbsolute = true) :
    ∀ n ∈ p.reducedNames, IsEntryName n := by
  rw [reducedNames, h]
  refine List.foldlRecOn (motive := fun names => ∀ n ∈ names, IsEntryName n) p.components
    (reduceStep true) (by simp) ?_
  exact fun names hnames c hc => isEntryName_reduceStep hnames (components_cases hc)

/-- A path that ends in a slash has no last name. -/
theorem fileName_slash (text : String) : (Path.mk (text ++ "/")).fileName = "" := by
  have hslash : (Path.mk (text ++ "/")).endsInSlash = true := by
    simp [endsInSlash, String.toList_append]
  rw [fileName, components, hslash]
  by_cases hnames : (Path.mk (text ++ "/")).names = []
  · simp [hnames]
  · simp [hnames]

/-- A normal form with a last name is the path of its names. -/
theorem normal_of_fileName (h : p.isAbsolute = true) (hname : p.normal.fileName ≠ "") :
    p.normal = ofNames p.reducedNames ∧ p.reducedNames ≠ [] := by
  have hnormal : p.normal = ofNames p.reducedNames := by
    have hempty := isEmpty_eq_false (text_ne_empty_of_isAbsolute h)
    rw [normal, hempty, h] at hname ⊢
    simp only [Bool.false_eq_true, if_false, if_true] at hname ⊢
    split_ifs at hname ⊢
    · exact absurd (fileName_slash _) hname
    · rw [String.append_empty]
  refine ⟨hnormal, fun hnil => hname ?_⟩
  rw [hnormal, hnil]
  rfl

theorem components_normal (h : p.isAbsolute = true) (hname : p.normal.fileName ≠ "") :
    p.normal.components = p.reducedNames := by
  rw [(normal_of_fileName h hname).1]
  exact components_ofNames fun n hn => isComponent_of_mem_reducedNames hn

theorem isAbsolute_normal (h : p.isAbsolute = true) : p.normal.isAbsolute = true := by
  have hhead (slash : String) :
      (Path.mk ((ofNames p.reducedNames).text ++ slash)).isAbsolute = true := by
    simp [isAbsolute, toList_ofNames]
  rw [normal, isEmpty_eq_false (text_ne_empty_of_isAbsolute h), h]
  exact hhead _

theorem normalFrom_of_isAbsolute (h : p.isAbsolute = true) : normalFrom here p = p.normal := by
  rw [normalFrom, isEmpty_eq_false (text_ne_empty_of_isAbsolute h), join_of_isAbsolute h]
  rfl

/-! ### The way between two paths -/

/-- Two lists part behind what they have in common at their front. -/
theorem mismatch_spec (as bs : List String) :
    ∃ front, as = front ++ (mismatch as bs).1 ∧ bs = front ++ (mismatch as bs).2 ∧
      ∀ a ∈ (mismatch as bs).1.head?, a ∉ (mismatch as bs).2.head? := by
  fun_induction mismatch as bs with
  | case1 as b bs ih =>
    obtain ⟨front, has, hbs, hparts⟩ := ih
    exact ⟨b :: front, congrArg (b :: ·) has, congrArg (b :: ·) hbs, hparts⟩
  | case2 a as b bs hne => exact ⟨[], rfl, rfl, by simpa using Ne.symm hne⟩
  | case3 as bs hnot =>
    refine ⟨[], rfl, rfl, fun a ha hb => ?_⟩
    obtain ⟨as', rfl⟩ := List.head?_eq_some_iff.1 ha
    obtain ⟨bs', rfl⟩ := List.head?_eq_some_iff.1 hb
    exact hnot a as' a bs' rfl rfl

theorem text_join_component (hp : p.text ≠ "") (hend : p.endsInSlash = false) (name : String)
    (hn : IsComponent name) : p.join ⟨name⟩ = ⟨p.text ++ "/" ++ name⟩ := by
  rw [join_eq hp hn.not_isAbsolute, hend]
  rfl

theorem endsInSlash_join (hp : p.text ≠ "") {name : String} (hn : IsComponent name) :
    (p.join ⟨name⟩).endsInSlash = false := by
  rw [endsInSlash_join_of_relative hp hn.not_isAbsolute hn.nonempty, hn.not_endsInSlash]

theorem text_below (hp : p.text ≠ "") (hend : p.endsInSlash = false) (hne : l ≠ [])
    (hl : ∀ n ∈ l, IsComponent n) : (p.below l).text = p.text ++ "/" ++ (relative l).text := by
  induction l generalizing p with
  | nil => exact absurd rfl hne
  | cons n l ih =>
    obtain ⟨hn, hrest⟩ := List.forall_mem_cons.1 hl
    have hjoin := text_join_component hp hend n hn
    cases l with
    | nil => exact congrArg Path.text hjoin
    | cons m l =>
      have h := ih (text_join_ne_empty hp hn) (endsInSlash_join hp hn) (List.cons_ne_nil m l) hrest
      have hstep : p.below (n :: m :: l) = (Path.mk (p.text ++ "/" ++ n)).below (m :: l) :=
        congrArg (Path.below · (m :: l)) hjoin
      rw [hjoin] at h
      rw [hstep, h]
      simp [relative, String.intercalate_cons_cons, String.append_assoc]

/-- Components appended to nothing are the path of them. -/
theorem below_empty (hl : ∀ n ∈ l, IsComponent n) : (Path.mk "").below l = relative l := by
  cases l with
  | nil => rfl
  | cons n l =>
    obtain ⟨hn, hrest⟩ := List.forall_mem_cons.1 hl
    have hfirst : (Path.mk "").join ⟨n⟩ = ⟨n⟩ := by
      rw [join, hn.not_isAbsolute]
      simp [isEmpty]
    have hbelow : (Path.mk "").below (n :: l) = (Path.mk n).below l :=
      congrArg (Path.below · l) hfirst
    rw [hbelow]
    cases l with
    | nil => rfl
    | cons m l =>
      have h := text_below (p := ⟨n⟩) hn.nonempty hn.not_endsInSlash (List.cons_ne_nil m l) hrest
      refine congrArg Path.mk (h.trans ?_)
      simp [relative, String.intercalate_cons_cons]

theorem isAbsolute_relative (hl : ∀ n ∈ l, IsComponent n) : (relative l).isAbsolute = false := by
  cases l with
  | nil => rfl
  | cons n l =>
    have hn := hl n List.mem_cons_self
    cases l with
    | nil => simpa [relative] using hn.not_isAbsolute
    | cons m l =>
      have hfirst : (relative (n :: m :: l)).text.toList.head? = n.toList.head? := by
        rw [toList_relative, List.head?_append_of_ne_nil _ hn.toList_ne_nil]
      rw [isAbsolute, hfirst]
      exact hn.not_isAbsolute

theorem elements_relative (hl : ∀ n ∈ l, IsComponent n) : (relative l).elements = l := by
  rw [elements, isAbsolute_relative hl, components, names_relative hl, not_endsInSlash_relative hl]
  simp

/-- Up to a slash at its end, a path is read as its names. -/
theorem exists_components_eq (p : Path) :
    ∃ slash, (slash = [] ∨ slash = [""]) ∧ p.components = p.names ++ slash := by
  refine ⟨_, ?_, rfl⟩
  split
  · exact .inr rfl
  · exact .inl rfl

theorem descent_append {slash : List String} (hslash : slash = [] ∨ slash = [""])
    (hl : ∀ n ∈ l, IsEntryName n) : descent (l ++ slash) = l.length := by
  have hnames : l.countP (fun e => e != "" && e != "." && e != "..") = l.length :=
    List.countP_eq_length.2 fun n hn => by
      simp [(hl n hn).nonempty, (hl n hn).noDots.1, (hl n hn).noDots.2]
  have hup : l.count ".." = 0 := List.count_eq_zero.2 fun hmem => (hl _ hmem).noDots.2 rfl
  rcases hslash with rfl | rfl <;> simp [descent, hnames, hup]

section Way

variable {base : Path} {slash : List String}

theorem mismatch_elements (hp : p.isAbsolute = true) (hbase : base.isAbsolute = true) :
    mismatch p.elements base.elements = mismatch p.components base.components := by
  rw [elements, elements, hp, hbase]
  rfl

/-- The way to a path below another one leads down by the names below it. -/
theorem lexicallyRelative_below (hp : p.isAbsolute = true) (hbase : base.isAbsolute = true)
    (hcomponents : p.components = base.names ++ names) (hne : names ≠ [])
    (hnames : ∀ n ∈ names, IsComponent n) : p.lexicallyRelative base = relative names := by
  obtain ⟨slash, hslash, hbaseComponents⟩ := exists_components_eq base
  obtain ⟨n, more, rfl⟩ := List.exists_cons_of_ne_nil hne
  have hn : n ≠ "" := (hnames n List.mem_cons_self).nonempty
  have happend (front as bs : List String) :
      mismatch (front ++ as) (front ++ bs) = mismatch as bs := by
    induction front with
    | nil => rfl
    | cons f front ih => simp [mismatch, ih]
  have hparts : mismatch p.elements base.elements = (n :: more, slash) := by
    rw [mismatch_elements hp hbase, hcomponents, hbaseComponents, happend]
    rcases hslash with rfl | rfl <;> simp [mismatch, hn]
  have hdescent : descent slash = 0 := descent_append (l := []) hslash (by simp)
  simp only [lexicallyRelative, hparts, hp, hbase, hdescent]
  simpa [hn] using below_empty hnames

/-- The way to any other path than the base itself leads up first. -/
theorem lexicallyRelative_aside (hp : p.isAbsolute = true) (hbase : base.isAbsolute = true)
    (hcomponents : ∀ n ∈ p.components, IsComponent n) (hnames : ∀ n ∈ base.names, IsEntryName n)
    (hother : ∀ names, p.components ≠ base.names ++ names) :
    ∃ more, (∀ n ∈ ".." :: more, IsComponent n) ∧
      p.lexicallyRelative base = relative (".." :: more) := by
  obtain ⟨slash, hslash, hbaseComponents⟩ := exists_components_eq base
  obtain ⟨front, hleft, hright, -⟩ := mismatch_spec p.components base.components
  generalize hparts : mismatch p.components base.components = parts at hleft hright
  obtain ⟨rest, above⟩ := parts
  dsimp only at hleft hright
  -- the paths part within the names of the base
  obtain ⟨up, hup, hbaseNames, rfl⟩ :
      ∃ up, up ≠ [] ∧ base.names = front ++ up ∧ above = up ++ slash := by
    rw [hbaseComponents] at hright
    rcases List.append_eq_append_iff.1 hright with ⟨more, rfl, -⟩ | ⟨up, hbaseNames, habove⟩
    · rw [List.append_assoc] at hleft
      exact absurd hleft (hother _)
    · refine ⟨up, ?_, hbaseNames, habove⟩
      rintro rfl
      rw [List.append_nil] at hbaseNames
      exact absurd (hbaseNames ▸ hleft) (hother rest)
  have hdescent : descent (up ++ slash) = up.length :=
    descent_append hslash fun n hn => hnames n (hbaseNames ▸ List.mem_append_right _ hn)
  obtain ⟨k, hk⟩ := Nat.exists_eq_succ_of_ne_zero (mt List.length_eq_zero_iff.1 hup)
  have hdots : IsComponent ".." := ⟨by decide, by decide⟩
  have hall : ∀ n ∈ ".." :: (List.replicate k ".." ++ rest), IsComponent n := by
    refine List.forall_mem_cons.2 ⟨hdots, List.forall_mem_append.2 ⟨fun n hn => ?_, fun n hn => ?_⟩⟩
    · exact List.eq_of_mem_replicate hn ▸ hdots
    · exact hcomponents n (hleft ▸ List.mem_append_right _ hn)
  refine ⟨List.replicate k ".." ++ rest, hall, ?_⟩
  have habove : up ++ slash ≠ [] := List.append_ne_nil_of_left_ne_nil hup _
  have hpositive : ¬(k : Int) + 1 < 0 := by omega
  have hnonzero : ¬(k : Int) + 1 = 0 := by omega
  simp only [lexicallyRelative, mismatch_elements hp hbase, hparts, hp, hbase, hdescent, hk]
  simp [habove, hpositive, hnonzero, List.replicate_succ, below_empty hall]

end Way

/-! ### Names in a project -/

/-- The script lies below the root, and these are its names there. -/
structure IsBelow (root script : Path) (names : List String) : Prop where
  hasRoot : root.isEmpty = false
  nonempty : names ≠ []
  components : script.normal.components = root.normal.names ++ names

/-- The names by which a script goes: those below the root, or the last one alone. -/
inductive ProjectNames (root script : Path) : List String → Prop where
  | below {names : List String} (h : IsBelow root script names) : ProjectNames root script names
  | alone {name : String} (h : ∀ names, ¬IsBelow root script names)
      (hlast : script.normal.components.getLast? = some name) : ProjectNames root script [name]

theorem ProjectNames.unique (h : ProjectNames root script l) (h' : ProjectNames root script names) :
    l = names := by
  cases h with
  | below h =>
    cases h' with
    | below h' => exact List.append_cancel_left (h.components.symm.trans h'.components)
    | alone h' => exact absurd h (h' _)
  | alone h hlast =>
    cases h' with
    | below h' => exact absurd h' (h _)
    | alone _ hlast' => rw [Option.some.inj (hlast.symm.trans hlast')]

section Project

variable (hscript : script.isAbsolute = true) (hname : script.normal.fileName ≠ "")
  (hroot : root.isEmpty = true ∨ root.isAbsolute = true)

include hscript hname

theorem ProjectNames.nonempty_isEntryName (h : ProjectNames root script l) :
    l ≠ [] ∧ ∀ n ∈ l, IsEntryName n := by
  have hnames : ∀ n ∈ script.normal.components, IsEntryName n := by
    rw [components_normal hscript hname]
    exact isEntryName_of_mem_reducedNames hscript
  cases h with
  | below h =>
    exact ⟨h.nonempty, fun n hn => hnames n (h.components ▸ List.mem_append_right _ hn)⟩
  | alone _ hlast => simpa using hnames _ (List.mem_of_getLast? hlast)

include hroot

/-- A script other than the root has names, and its resource path consists of them. -/
theorem exists_projectNames (here : Path)
    (hother : script.normal.components ≠ root.normal.names) :
    ∃ l, ProjectNames root script l ∧
      inProject here script root = "res://" ++ "/".intercalate l := by
  have halone (h : ∀ l, ¬IsBelow root script l) :
      ProjectNames root script [script.normal.fileName] :=
    .alone h (getLast?_components hname)
  cases hr : root.isEmpty with
  | true =>
    refine ⟨_, halone fun l h => Bool.false_ne_true (h.hasRoot.symm.trans hr), ?_⟩
    simp only [inProject, hr, normalFrom_of_isAbsolute hscript]
    rfl
  | false =>
    have habsolute := hroot.resolve_left (by simp [hr])
    have hentries : ∀ n ∈ script.normal.components, IsEntryName n := by
      rw [components_normal hscript hname]
      exact isEntryName_of_mem_reducedNames hscript
    simp only [inProject, hr, normalFrom_of_isAbsolute hscript, normalFrom_of_isAbsolute habsolute,
      Bool.false_eq_true, if_false]
    by_cases hbelow : ∃ l, IsBelow root script l
    · obtain ⟨l, hl⟩ := hbelow
      have hnames : ∀ n ∈ l, IsEntryName n := fun n hn =>
        hentries n (hl.components ▸ List.mem_append_right _ hn)
      have hcomponents : ∀ n ∈ l, IsComponent n := fun n hn => (hnames n hn).toIsComponent
      rw [lexicallyRelative_below (isAbsolute_normal hscript) (isAbsolute_normal habsolute)
        hl.components hl.nonempty hcomponents]
      refine ⟨l, .below hl, ?_⟩
      have hfirst : ¬l.head? = some ".." := fun h =>
        (hnames _ (List.mem_of_head? h)).noDots.2 rfl
      rw [isEmpty_eq_false (text_relative_ne_empty hcomponents hl.nonempty),
        elements_relative hcomponents, Bool.false_or, if_neg (by simpa using hfirst)]
      rfl
    · have hrootNames : ∀ n ∈ root.normal.names, IsEntryName n := by
        rw [names_normal habsolute]
        exact isEntryName_of_mem_reducedNames habsolute
      obtain ⟨more, hmore, hway⟩ := lexicallyRelative_aside (isAbsolute_normal hscript)
        (isAbsolute_normal habsolute) (fun n hn => (hentries n hn).toIsComponent) hrootNames
        fun l hl => by
          by_cases hnil : l = []
          · exact hother (by simpa [hnil] using hl)
          · exact hbelow ⟨l, hr, hnil, hl⟩
      refine ⟨_, halone fun l hl => hbelow ⟨l, hl⟩, ?_⟩
      rw [hway, elements_relative hmore, if_pos (by simp)]
      rfl

end Project

/-- What the resource path of a script other than the root says. The script has names in the
project: those below the root, if it lies below it, or else its last name. They are what stands
between the slashes of the resource path, none of them is empty or dots, and two scripts below
the root with different normal forms have different resource paths. -/
theorem inProject_names (here : Path) (hscript : script.isAbsolute = true)
    (hname : script.normal.fileName ≠ "") (hroot : root.isEmpty = true ∨ root.isAbsolute = true)
    (hother : script.normal.components ≠ root.normal.names) :
    ∃ names, (∀ l, ProjectNames root script l ↔ l = names) ∧
      inProject here script root = "res://" ++ "/".intercalate names ∧
      splitOn '/' ("/".intercalate names).toList = names.map String.toList ∧
      (∀ name ∈ names, name ≠ "" ∧ name ≠ "." ∧ name ≠ "..") ∧
      ∀ script' : Path, script'.isAbsolute = true → script'.normal.fileName ≠ "" →
        (∃ l, IsBelow root script l) → (∃ l, IsBelow root script' l) →
        script.normal ≠ script'.normal →
          inProject here script root ≠ inProject here script' root := by
  have hparts {s : Path} {l : List String} (hs : s.isAbsolute = true) (hn : s.normal.fileName ≠ "")
      (h : ProjectNames root s l) :
      splitOn '/' ("/".intercalate l).toList = l.map String.toList := by
    obtain ⟨hne, hentries⟩ := h.nonempty_isEntryName hs hn
    exact splitOn_intercalate hne fun n hl => (hentries n hl).single
  obtain ⟨names, hnames, htext⟩ := exists_projectNames hscript hname hroot here hother
  refine ⟨names, fun l => ⟨fun h => h.unique hnames, fun h => h ▸ hnames⟩, htext,
    hparts hscript hname hnames, ?_, ?_⟩
  · intro name hmem
    have hentry := (hnames.nonempty_isEntryName hscript hname).2 name hmem
    exact ⟨hentry.nonempty, hentry.noDots⟩
  · rintro script' hscript' hname' ⟨l, hl⟩ ⟨l', hl'⟩ hne heq
    have hother' : script'.normal.components ≠ root.normal.names := fun he =>
      hl'.nonempty (by simpa [hl'.components] using he)
    obtain ⟨names', hnames', htext'⟩ := exists_projectNames hscript' hname' hroot here hother'
    rw [htext, htext'] at heq
    have hsplit : names.map String.toList = names'.map String.toList := by
      rw [← hparts hscript hname hnames, ← hparts hscript' hname' hnames',
        String.append_right_inj _ |>.1 heq]
    obtain rfl : names = names' := List.map_injective_iff.2 (fun _ _ => String.toList_inj.1) hsplit
    obtain rfl := hnames.unique (.below hl)
    obtain rfl := hnames'.unique (.below hl')
    have hcomponents := hl.components.trans hl'.components.symm
    rw [components_normal hscript hname, components_normal hscript' hname'] at hcomponents
    refine hne ?_
    rw [(normal_of_fileName hscript hname).1, (normal_of_fileName hscript' hname').1, hcomponents]

/-- A script behind a detour, in a project whose root is given with one and with a slash. -/
theorem inProject_names_detour :
    let script : Path := ⟨"/game/levels/../doors//north.gd"⟩
    let root : Path := ⟨"/game/levels/./../"⟩
    (script.isAbsolute = true ∧ script.normal.fileName ≠ "" ∧ root.isAbsolute = true ∧
      script.normal.components ≠ root.normal.names) ∧
    ProjectNames root script ["doors", "north.gd"] ∧
    inProject ⟨"/"⟩ script root = "res://doors/north.gd" := by
  intro script root
  have hscript : script.isAbsolute = true := by decide
  have hname : script.normal.fileName ≠ "" := by decide +kernel
  have hroot : root.isAbsolute = true := by decide
  have hother : script.normal.components ≠ root.normal.names := by decide +kernel
  have hbelow : IsBelow root script ["doors", "north.gd"] :=
    ⟨by decide, by decide, by decide +kernel⟩
  obtain ⟨names, hnames, htext, -⟩ := inProject_names ⟨"/"⟩ hscript hname (.inr hroot) hother
  obtain rfl := (hnames _).1 (.below hbelow)
  exact ⟨⟨hscript, hname, hroot, hother⟩, .below hbelow, htext⟩

end Path

end ScriptBridge
