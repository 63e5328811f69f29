import Mathlib.Data.List.Sort
import ScriptBridge.File.Discovery
import ScriptBridge.Proofs.File.Folder
import ScriptBridge.Proofs.File.NormalPaths
import ScriptBridge.Proofs.Sorted

/-! Finding scripts. An input is a script itself, or a directory whose scripts lie at any depth
below it, except in hidden directories. Proved: the scripts that are found are the normal paths of
exactly these, in order and each once, whatever the order of the inputs, their number and what
they have in common; and the inputs that are neither are reported, one by one. -/

namespace ScriptBridge

/-! ### Files of a tree -/

namespace Node

mutual

/-- Whether each directory has entries of different names, which are names of entries. -/
def isTree : Node → Bool
  | directory entries => areTrees entries
  | _ => true

def areTrees : List (String × Node) → Bool
  | [] => true
  | (name, node) :: entries =>
    decide (Path.IsEntryName name) && !(entries.map Prod.fst).contains name && node.isTree &&
      areTrees entries

end

variable {node inner : Node} {entries : List (String × Node)} {enter : String → Bool}
  {f names : List String}

theorem nodup_of_areTrees (h : areTrees entries = true) : (entries.map Prod.fst).Nodup := by
  induction entries with
  | nil => exact .nil
  | cons e entries ih =>
    simp only [areTrees, Bool.and_eq_true, Bool.not_eq_true', ← Bool.not_eq_true,
      List.contains_iff_mem] at h
    exact List.nodup_cons.2 ⟨h.1.1.2, ih h.2⟩

theorem isTree_of_mem (h : areTrees entries = true) {e : String × Node} (he : e ∈ entries) :
    Path.IsEntryName e.1 ∧ e.2.isTree = true := by
  induction entries with
  | nil => cases he
  | cons e' entries ih =>
    simp only [areTrees, Bool.and_eq_true, decide_eq_true_eq] at h
    rcases List.mem_cons.1 he with rfl | he
    · exact ⟨h.1.1.1, h.1.2⟩
    · exact ih h.2 he

/-- What is found in a tree is a tree, and all names on the way are names of entries. -/
theorem isTree_of_find? (h : node.isTree = true) (hf : node.find? names = some inner) :
    inner.isTree = true ∧ ∀ n ∈ names, Path.IsEntryName n := by
  induction hf using find?_induction with
  | here => exact ⟨h, by simp⟩
  | below hnext _ ih =>
    obtain ⟨hname, htree⟩ := isTree_of_mem h (mem_of_lookup hnext)
    obtain ⟨hinner, hnames⟩ := ih htree
    exact ⟨hinner, List.forall_mem_cons.2 ⟨hname, hnames⟩⟩

theorem exists_of_isFile (h : node.isFile = true) : ∃ content, node = .file content := by
  cases node with
  | file content => exact ⟨content, rfl⟩
  | device | directory => cases h

theorem mem_filesAmong :
    f ∈ filesAmong enter entries ↔ ∃ e ∈ entries,
      (e.2.isFile = true ∧ f = [e.1]) ∨
        (e.2.isFile = false ∧ enter e.1 = true ∧ ∃ g ∈ e.2.filesBelow enter, f = e.1 :: g) := by
  induction entries with
  | nil => simp [filesAmong]
  | cons e entries ih =>
    rw [filesAmong, List.mem_append, ih, List.exists_mem_cons_iff]
    refine or_congr_left ?_
    cases e.2.isFile
    · cases enter e.1 <;> simp [eq_comm]
    · simp

/-- A file below a directory is an entry of it, or lies below one that may be entered. -/
theorem cons_mem_filesBelow {name : String} (h : areTrees entries = true) :
    name :: f ∈ (directory entries).filesBelow enter ↔ ∃ inner, entries.lookup name = some inner ∧
      ((inner.isFile = true ∧ f = []) ∨
        (inner.isFile = false ∧ enter name = true ∧ f ∈ inner.filesBelow enter)) := by
  have hmem (inner : Node) : (name, inner) ∈ entries ↔ entries.lookup name = some inner :=
    ⟨lookup_of_mem (nodup_of_areTrees h), mem_of_lookup⟩
  rw [filesBelow, mem_filesAmong]
  constructor
  · rintro ⟨⟨key, inner⟩, he, ⟨hfile, hf⟩ | ⟨hfile, henter, g, hg, hf⟩⟩
    · obtain ⟨rfl, rfl⟩ := List.cons.inj hf
      exact ⟨inner, (hmem inner).1 he, .inl ⟨hfile, rfl⟩⟩
    · obtain ⟨rfl, rfl⟩ := List.cons.inj hf
      exact ⟨inner, (hmem inner).1 he, .inr ⟨hfile, henter, hg⟩⟩
  · rintro ⟨inner, hinner, ⟨hfile, rfl⟩ | ⟨hfile, henter, hf⟩⟩
    · exact ⟨(name, inner), (hmem inner).2 hinner, .inl ⟨hfile, rfl⟩⟩
    · exact ⟨(name, inner), (hmem inner).2 hinner, .inr ⟨hfile, henter, f, hf, rfl⟩⟩

/-- The files below a node are those that names lead to, all but the last of which are names of
directories that may be entered. -/
theorem mem_filesBelow (h : node.isTree = true) :
    f ∈ node.filesBelow enter ↔
      f ≠ [] ∧ (∃ content, node.find? f = some (.file content)) ∧
        ∀ n ∈ f.dropLast, enter n = true := by
  -- along the names rather than the tree: each name leads one directory down
  induction f generalizing node with
  | nil =>
    cases node with
    | file | device => simp [filesBelow]
    | directory entries => simp [filesBelow, mem_filesAmong]
  | cons name f ih =>
    cases node with
    | file | device => simp [filesBelow, find?]
    | directory entries =>
      rw [cons_mem_filesBelow h]
      constructor
      · rintro ⟨inner, hinner, ⟨hfile, rfl⟩ | ⟨-, henter, hf⟩⟩
        · obtain ⟨content, rfl⟩ := exists_of_isFile hfile
          exact ⟨List.cons_ne_nil _ _, ⟨content, by simp [find?, hinner]⟩, by simp⟩
        · have htree := (isTree_of_mem h (mem_of_lookup hinner)).2
          obtain ⟨hne, ⟨content, hcontent⟩, hbetween⟩ := (ih htree).1 hf
          refine ⟨List.cons_ne_nil _ _, ⟨content, by simp [find?, hinner, hcontent]⟩, ?_⟩
          rw [List.dropLast_cons_of_ne_nil hne]
          exact List.forall_mem_cons.2 ⟨henter, hbetween⟩
      · rintro ⟨-, ⟨content, hcontent⟩, hbetween⟩
        obtain ⟨inner, hinner, hcontent⟩ := Option.bind_eq_some_iff.1 hcontent
        have htree := (isTree_of_mem h (mem_of_lookup hinner)).2
        refine ⟨inner, hinner, ?_⟩
        cases f with
        | nil =>
          obtain rfl : inner = .file content := by simpa [find?] using hcontent
          exact .inl ⟨rfl, rfl⟩
        | cons next f =>
          rw [List.dropLast_cons_of_ne_nil (List.cons_ne_nil next f)] at hbetween
          obtain ⟨henter, hbetween⟩ := List.forall_mem_cons.1 hbetween
          obtain ⟨below, -, rfl, -⟩ := find?_cons_eq_some_iff.1 hcontent
          refine .inr ⟨rfl, henter, (ih htree).2 ⟨List.cons_ne_nil _ _, ⟨content, ?_⟩, hbetween⟩⟩
          exact hcontent

end Node

/-! ### Names of scripts -/

theorem hasSuffix_iff {suffix name : String} :
    hasSuffix suffix name = true ↔ ∃ stem : String, stem ≠ "" ∧ name = stem ++ suffix := by
  rw [hasSuffix, Bool.and_eq_true, decide_eq_true_eq, List.isSuffixOf_iff_suffix]
  constructor
  · rintro ⟨⟨front, hfront⟩, hlength⟩
    refine ⟨String.ofList front, fun he => ?_, ?_⟩
    · rw [String.ofList_eq_empty_iff] at he
      rw [← hfront, he] at hlength
      simp at hlength
    · rw [← String.toList_inj, String.toList_append, String.toList_ofList, hfront]
  · rintro ⟨stem, hstem, rfl⟩
    have hne : stem.toList ≠ [] := fun he => hstem (String.toList_eq_nil_iff.1 he)
    have hpos := List.length_pos_iff.2 hne
    rw [String.toList_append, List.length_append]
    exact ⟨List.suffix_append _ _, by omega⟩

namespace Discovery

/-- The name of a script: a stem and the extension. -/
def IsScriptName (name : String) : Prop := ∃ stem : String, stem ≠ "" ∧ name = stem ++ ".gd"

instance (name : String) : Decidable (IsScriptName name) := decidable_of_iff _ hasSuffix_iff

theorem hasSuffix_scriptSuffix {name : String} :
    hasSuffix scriptSuffix name = true ↔ IsScriptName name := hasSuffix_iff

variable {d : Disk} {input p : Path} {inputs : List Path} {place : List String}

theorem isEntryName_fileName (h : IsScriptName input.fileName) :
    Path.IsEntryName input.fileName := by
  have hlast : input.fileName.toList.getLast? = some 'd' := by
    obtain ⟨stem, -, hstem⟩ := h
    simp [hstem, String.toList_append, List.getLast?_append]
  have hne (other : String) (ho : other.toList.getLast? ≠ some 'd') : input.fileName ≠ other :=
    fun he => ho (he ▸ hlast)
  exact ⟨Path.isComponent_fileName (hne "" (by decide)), hne "." (by decide), hne ".." (by decide)⟩

/-! ### Scripts of an input -/

/-- The scripts that an input stands for: the input itself, if it is a script, or the scripts at
any depth below it. The directories between it and them are not hidden. -/
inductive IsScriptOf (d : Disk) (input : Path) : Path → Prop where
  | itself (hexists : d.exists? input = true) (hfile : d.isDirectory input = false)
      (hname : IsScriptName input.fileName) : IsScriptOf d input (Path.normalFrom d.here input)
  | inside {entries : List (String × Node)} {between : List String} {name content : String}
      (hinput : d.node? input = some (.directory entries))
      (hfile : (Node.directory entries).find? (between ++ [name]) = some (.file content))
      (hname : IsScriptName name) (hbetween : ∀ n ∈ between, isHidden n = false) :
      IsScriptOf d input (Path.normalFrom d.here (input.below (between ++ [name])))

/-- An input that does not exist, or is neither a directory nor a script. -/
def IsUnusable (d : Disk) (input : Path) : Prop :=
  input.text ≠ "" ∧ d.isDirectory input = false ∧
    (d.exists? input = true → ¬IsScriptName input.fileName)

instance (d : Disk) (input : Path) : Decidable (IsUnusable d input) :=
  inferInstanceAs (Decidable (_ ∧ _ ∧ (_ → _)))

theorem text_ne_empty_of_node? {node : Node} (h : d.node? input = some node) : input.text ≠ "" := by
  intro he
  rw [show input = ⟨""⟩ from congrArg Path.mk he] at h
  cases h

theorem isTree_of_node? {node : Node} (htree : d.root.isTree = true)
    (h : d.node? input = some node) : node.isTree = true := by
  obtain ⟨t, ht, rfl⟩ := Option.map_eq_some_iff.1 h
  rw [Disk.locate] at ht
  cases haccept : d.accept input with
  | error e =>
    rw [haccept] at ht
    cases ht
  | ok q =>
    rw [haccept] at ht
    change (d.follow (d.start q) q.components).toOption = some t at ht
    cases hfollow : d.follow (d.start q) q.components with
    | error e =>
      rw [hfollow] at ht
      cases ht
    | ok u =>
      rw [hfollow] at ht
      obtain rfl : u = t := Option.some.inj ht
      have hwalked : d.Walked u := (Disk.walked_start d q).follow hfollow
      exact (Node.isTree_of_find? htree hwalked.find?).1

section Input

variable {node : Node} {entries : List (String × Node)} (htree : d.root.isTree = true)

theorem ofInput_file (h : d.node? input = some node) (hfile : node.isDirectory = false) :
    ofInput d input = if IsScriptName input.fileName then
      .ok [(Path.normalFrom d.here input).names] else .error .noScript := by
  rw [ofInput, h]
  cases node with
  | file | device => simp only [hasSuffix_scriptSuffix]
  | directory => cases hfile

/-- The place that an input gives which is no directory. -/
theorem mem_ofInput_file (h : d.node? input = some node) (hfile : node.isDirectory = false) :
    place ∈ (ofInput d input).toOption.getD [] ↔
      place = (Path.normalFrom d.here input).names ∧ IsScriptName input.fileName := by
  rw [ofInput_file h hfile]
  split_ifs with hscript
  · exact List.mem_singleton.trans (and_iff_left hscript).symm
  · exact ⟨fun hplace => absurd hplace List.not_mem_nil, fun hplace => absurd hplace.2 hscript⟩

include htree

/-- The places that a directory gives. -/
theorem mem_ofInput_directory (h : d.node? input = some (.directory entries)) :
    place ∈ (ofInput d input).toOption.getD [] ↔ ∃ between name content,
      place = (Path.normalFrom d.here input).names ++ (between ++ [name]) ∧
        (Node.directory entries).find? (between ++ [name]) = some (.file content) ∧
        IsScriptName name ∧ ∀ n ∈ between, isHidden n = false := by
  have hbelow (f : List String) :
      f ∈ (Node.directory entries).filesBelow (fun name => !isHidden name) ↔
        f ≠ [] ∧ (∃ content, (Node.directory entries).find? f = some (.file content)) ∧
          ∀ n ∈ f.dropLast, (!isHidden n) = true :=
    Node.mem_filesBelow (isTree_of_node? htree h)
  rw [ofInput, h]
  change place ∈ List.map _ (List.filter _ _) ↔ _
  constructor
  · intro hplace
    obtain ⟨f, hf, rfl⟩ := List.mem_map.1 hplace
    obtain ⟨hf, hscript⟩ := List.mem_filter.1 hf
    obtain ⟨hne, ⟨content, hcontent⟩, hbetween⟩ := (hbelow f).1 hf
    obtain ⟨between, name, rfl⟩ : ∃ between name, f = between ++ [name] :=
      ⟨_, _, (List.dropLast_concat_getLast hne).symm⟩
    rw [List.getLastD_concat] at hscript
    rw [List.dropLast_concat] at hbetween
    exact ⟨between, name, content, rfl, hcontent, hasSuffix_scriptSuffix.1 hscript,
      by simpa using hbetween⟩
  · rintro ⟨between, name, content, rfl, hcontent, hname, hbetween⟩
    refine List.mem_map.2 ⟨between ++ [name], List.mem_filter.2 ⟨(hbelow _).2 ?_, ?_⟩, rfl⟩
    · refine ⟨by simp, ⟨content, hcontent⟩, ?_⟩
      rw [List.dropLast_concat]
      simpa using hbetween
    · rw [List.getLastD_concat]
      exact hasSuffix_scriptSuffix.2 hname

/-- The places that one input gives are those of the scripts that it stands for. -/
theorem isScriptOf_of_mem (h : place ∈ (ofInput d input).toOption.getD []) :
    IsScriptOf d input (.ofNames place) ∧ ∀ n ∈ place, Path.IsComponent n := by
  have hnames : ∀ n ∈ (Path.normalFrom d.here input).names, Path.IsComponent n :=
    fun n hn => Path.isComponent_of_mem_names hn
  have hhere : d.here.isAbsolute = true := Path.isAbsolute_ofNames _
  cases hnode : d.node? input with
  | none =>
    rw [ofInput, hnode] at h
    cases h
  | some node =>
    have hne := text_ne_empty_of_node? hnode
    cases hfile : node.isDirectory with
    | false =>
      obtain ⟨rfl, hname⟩ := (mem_ofInput_file hnode hfile).1 h
      rw [← Path.normalFrom_of_fileName hhere hne (isEntryName_fileName hname)]
      exact ⟨.itself (by simp [Disk.exists?, hnode]) (by simp [Disk.isDirectory, hnode, hfile])
        hname, hnames⟩
    | true =>
      obtain ⟨entries, rfl⟩ := Disk.exists_of_isDirectory hfile
      obtain ⟨between, name, content, rfl, hcontent, hname, hbetween⟩ :=
        (mem_ofInput_directory htree hnode).1 h
      have hentries := (Node.isTree_of_find? (isTree_of_node? htree hnode) hcontent).2
      rw [← Path.normalFrom_below hhere hne hentries (by simp)]
      exact ⟨.inside hnode hcontent hname hbetween,
        List.forall_mem_append.2 ⟨hnames, fun n hn => (hentries n hn).toIsComponent⟩⟩

theorem exists_mem_of_isScriptOf (h : IsScriptOf d input p) :
    ∃ place ∈ (ofInput d input).toOption.getD [], Path.ofNames place = p := by
  have hhere : d.here.isAbsolute = true := Path.isAbsolute_ofNames _
  cases h with
  | itself hexists hfile hname =>
    obtain ⟨node, hnode⟩ := Option.isSome_iff_exists.1 hexists
    have hdirectory : node.isDirectory = false := by simpa [Disk.isDirectory, hnode] using hfile
    exact ⟨_, (mem_ofInput_file hnode hdirectory).2 ⟨rfl, hname⟩,
      (Path.normalFrom_of_fileName hhere (text_ne_empty_of_node? hnode)
        (isEntryName_fileName hname)).symm⟩
  | inside hnode hcontent hname hbetween =>
    have hentries := (Node.isTree_of_find? (isTree_of_node? htree hnode) hcontent).2
    exact ⟨_, (mem_ofInput_directory htree hnode).2 ⟨_, _, _, rfl, hcontent, hname, hbetween⟩,
      (Path.normalFrom_below hhere (text_ne_empty_of_node? hnode) hentries (by simp)).symm⟩

end Input

/-! ### Scripts of all inputs -/

theorem scripts_increasing (d : Disk) (inputs : List Path) :
    (ofInputs d inputs).scripts.Pairwise (· < ·) :=
  sortOnce_increasing _

theorem mem_scripts : place ∈ (ofInputs d inputs).scripts ↔
    ∃ input ∈ inputs, place ∈ (ofInput d input).toOption.getD [] := by
  change place ∈ sortOnce _ ↔ _
  rw [mem_sortOnce, List.mem_flatMap]
  constructor
  · rintro ⟨input, hinput, hplace⟩
    exact ⟨input, List.mem_of_mem_filter hinput, hplace⟩
  · rintro ⟨input, hinput, hplace⟩
    have hne : input.text ≠ "" := by
      intro he
      rw [show input = ⟨""⟩ from congrArg Path.mk he] at hplace
      cases hplace
    exact ⟨input, List.mem_filter.2 ⟨hinput, by rw [Path.isEmpty_eq_false hne]; rfl⟩, hplace⟩

/-- The problem of an input, if it has one. -/
theorem ofInput_problem (hne : input.text ≠ "") :
    (match ofInput d input with
      | .ok _ => none
      | .error problem => some (InputIssue.mk input problem)) =
      if IsUnusable d input then
        some ⟨input, if d.exists? input then .noScript else .missing⟩ else none := by
  have hunusable : IsUnusable d input ↔ d.isDirectory input = false ∧
      (d.exists? input = true → ¬IsScriptName input.fileName) := and_iff_right hne
  cases hnode : d.node? input with
  | none =>
    have hexists : d.exists? input = false := by rw [Disk.exists?, hnode]; rfl
    have hfile : d.isDirectory input = false := by rw [Disk.isDirectory, hnode]; rfl
    simp [hunusable, hexists, hfile, ofInput, hnode]
  | some node =>
    have hexists : d.exists? input = true := by rw [Disk.exists?, hnode]; rfl
    have hkind : d.isDirectory input = node.isDirectory := by rw [Disk.isDirectory, hnode]; rfl
    cases hfile : node.isDirectory with
    | true =>
      obtain ⟨entries, rfl⟩ := Disk.exists_of_isDirectory hfile
      simp [hunusable, hkind, hfile, ofInput, hnode]
    | false =>
      rw [ofInput_file hnode hfile]
      by_cases hscript : IsScriptName input.fileName <;>
        simp [hunusable, hexists, hkind, hfile, hscript]

theorem issues_eq (d : Disk) (inputs : List Path) :
    (ofInputs d inputs).issues = (inputs.filter (IsUnusable d ·)).map fun input =>
      ⟨input, if d.exists? input then .noScript else .missing⟩ := by
  rw [← List.filterMap_eq_map', List.filterMap_filter]
  refine List.filterMap_filter.trans (List.filterMap_congr fun input _ => ?_)
  by_cases hne : input.text = ""
  · have hempty : input.isEmpty = true := beq_iff_eq.2 hne
    simp [hempty, IsUnusable, hne]
  · rw [Path.isEmpty_eq_false hne]
    exact (ofInput_problem hne).trans (by simp)

/-- What is found is in order and each once: the normal paths of the scripts that the inputs stand
for. The inputs that stand for nothing are reported in turn. Inputs that stand for the same scripts
give the same, such as the same inputs in another order or number. -/
theorem ofInputs_scripts (htree : d.root.isTree = true) (inputs : List Path) :
    let found := ofInputs d inputs
    let paths := found.scripts.map Path.ofNames
    paths.Pairwise (fun p q => p.components < q.components) ∧
    (∀ p, p ∈ paths ↔ ∃ input ∈ inputs, IsScriptOf d input p) ∧
    found.issues = (inputs.filter (IsUnusable d ·)).map (fun input =>
      ⟨input, if d.exists? input then .noScript else .missing⟩) ∧
    ∀ inputs', (∀ p, (∃ input ∈ inputs', IsScriptOf d input p) ↔
        ∃ input ∈ inputs, IsScriptOf d input p) →
      (ofInputs d inputs').scripts = found.scripts := by
  intro found paths
  have hcomponents (inputs : List Path) : ∀ place ∈ (ofInputs d inputs).scripts,
      (Path.ofNames place).components = place := by
    intro place hplace
    obtain ⟨input, -, hplace⟩ := mem_scripts.1 hplace
    exact Path.components_ofNames (isScriptOf_of_mem htree hplace).2
  have hpaths (inputs : List Path) (p : Path) :
      (∃ place ∈ (ofInputs d inputs).scripts, Path.ofNames place = p) ↔
        ∃ input ∈ inputs, IsScriptOf d input p := by
    constructor
    · rintro ⟨place, hplace, rfl⟩
      obtain ⟨input, hinput, hplace⟩ := mem_scripts.1 hplace
      exact ⟨input, hinput, (isScriptOf_of_mem htree hplace).1⟩
    · rintro ⟨input, hinput, hp⟩
      obtain ⟨place, hplace, rfl⟩ := exists_mem_of_isScriptOf htree hp
      exact ⟨place, mem_scripts.2 ⟨input, hinput, hplace⟩, rfl⟩
  -- a place is known by its path, so what is found is known by the scripts of the inputs
  have hmem (inputs : List Path) (place : List String) :
      place ∈ (ofInputs d inputs).scripts ↔
        (Path.ofNames place).components = place ∧
          ∃ input ∈ inputs, IsScriptOf d input (.ofNames place) := by
    rw [← hpaths]
    constructor
    · exact fun hplace => ⟨hcomponents inputs place hplace, place, hplace, rfl⟩
    · rintro ⟨hplace, place', hplace', he⟩
      rw [← hcomponents inputs place' hplace', he, hplace] at hplace'
      exact hplace'
  refine ⟨?_, fun p => List.mem_map.trans (hpaths inputs p), issues_eq d inputs, ?_⟩
  · refine List.pairwise_map.2 ((scripts_increasing d inputs).imp_of_mem ?_)
    intro place place' hplace hplace' hlt
    rwa [hcomponents inputs place hplace, hcomponents inputs place' hplace']
  · intro inputs' hsame
    refine (scripts_increasing d inputs').eq_of_mem_iff (scripts_increasing d inputs) ?_
    intro place
    rw [hmem, hmem, hsame]

/-- A disk with a script beside a directory, in it and in a hidden directory. -/
def game : Disk where
  root := .directory [("game", .directory [("player.gd", .file ""), ("notes.txt", .file ""),
    (".godot", .directory [("cached.gd", .file "")]),
    ("enemies", .directory [("slime.gd", .file "")])])]
  current := ["game"]

/-- The script in a hidden directory is none of those that stand for the game. -/
theorem ofInputs_scripts_game :
    game.root.isTree = true ∧
    (ofInputs game [⟨"."⟩, ⟨"enemies/../player.gd"⟩, ⟨"notes.txt"⟩]).scripts =
      [["game", "enemies", "slime.gd"], ["game", "player.gd"]] ∧
    (∃ input ∈ [⟨"."⟩, ⟨"enemies/../player.gd"⟩, ⟨"notes.txt"⟩],
      IsScriptOf game input ⟨"/game/enemies/slime.gd"⟩) ∧
    ¬∃ input ∈ [⟨"."⟩, ⟨"enemies/../player.gd"⟩, ⟨"notes.txt"⟩],
      IsScriptOf game input ⟨"/game/.godot/cached.gd"⟩ := by
  have htree : game.root.isTree = true := by decide +kernel
  obtain ⟨-, hpaths, -⟩ :=
    ofInputs_scripts htree [⟨"."⟩, ⟨"enemies/../player.gd"⟩, ⟨"notes.txt"⟩]
  refine ⟨htree, by decide +kernel, (hpaths _).1 (by decide +kernel), ?_⟩
  rw [← hpaths]
  decide +kernel

end Discovery

end ScriptBridge
