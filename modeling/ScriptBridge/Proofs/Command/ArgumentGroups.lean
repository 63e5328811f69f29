import Mathlib.Data.List.Induction
import Mathlib.Tactic.Push
import ScriptBridge.Command.Options

/-! Arguments in groups. A flag, an option with its value and an input are each a group of one or
two arguments, and a command line is a list of groups. Reading a group changes the options by that
group alone, whatever stands behind it. Proved: of a list of groups each option gets the last value
that it is given, and reading succeeds exactly if what a run needs is there; a request for help or
for the version ends the reading with the options so far. -/

namespace ScriptBridge

/-! ### Groups -/

/-- Arguments that belong together. A value behind an option of its own can be any text. -/
inductive ArgumentGroup where
  | clean | quiet
  | separate (option : ValueOption) (value : String)
  | assigned (option : ValueOption) (value : String) (isLong : option ∈ ValueOption.long)
  | attached (value : String) (nonempty : value ≠ "")
  | input (path : String) (plain : path.toList.head? ≠ some '-')

namespace ArgumentGroup

def arguments : ArgumentGroup → List String
  | clean => ["--clean"]
  | quiet => ["--quiet"]
  | separate option value => [option.name, value]
  | assigned option value _ => [option.name ++ "=" ++ value]
  | attached value _ => ["-o" ++ value]
  | input path _ => [path]

/-- The value that a group gives to an option. -/
def value? (option : ValueOption) : ArgumentGroup → Option String
  | separate o value | assigned o value _ => if o = option then some value else none
  | attached value _ => if .output = option then some value else none
  | _ => none

def input? : ArgumentGroup → Option String
  | input path _ => some path
  | _ => none

/-- The last value that an option is given. -/
def lastValue (option : ValueOption) (groups : List ArgumentGroup) : Option String :=
  (groups.filterMap (value? option)).getLast?

/-- What a group changes in the options. -/
def apply (o : Options) : ArgumentGroup → Options
  | clean => { o with clean := true }
  | quiet => { o with quiet := true }
  | separate option value | assigned option value _ => option.set value o
  | attached value _ => ValueOption.output.set value o
  | input path _ => { o with inputs := o.inputs ++ [path] }

end ArgumentGroup

/-! ### Recognising an argument -/

namespace Argument

variable {text start : String} {option : ValueOption} {value : String}

def flags : List String := ["--help", "--version", "--clean", "--quiet"]

theorem ofText_of_notMem (h : text ∉ flags) :
    ofText text =
      ((ValueOption.long.findSome? (ofLong? text)).or (ofShort? text)).getD
        (if text.toList.head? = some '-' then unknown else input) := by
  simp only [flags, List.mem_cons, List.not_mem_nil, or_false, not_or] at h
  obtain ⟨hhelp, hversion, hclean, hquiet⟩ := h
  rw [ofText, if_neg (by simpa using hhelp), if_neg (by simpa using hversion),
    if_neg (by simpa using hclean), if_neg (by simpa using hquiet)]
  cases ValueOption.long.findSome? (ofLong? text) with
  | some a => rfl
  | none => cases ofShort? text <;> simp

theorem after?_append (start : String) (cs : List Char) :
    after? start (start.toList ++ cs) = some cs := by
  have hstarts : start.toList.isPrefixOf (start.toList ++ cs) = true :=
    List.isPrefixOf_iff_prefix.2 (List.prefix_append _ _)
  rw [after?, if_pos hstarts, List.drop_left]

theorem after?_eq_none {cs : List Char} (h : ¬start.toList <+: cs) : after? start cs = none := by
  rw [after?, if_neg (by rwa [List.isPrefixOf_iff_prefix])]

theorem ofText_name (option : ValueOption) : ofText option.name = awaiting option := by
  cases option <;> decide +kernel

/-- The names of the long options stay apart, however the argument goes on. -/
theorem eq_of_startsWith_name {other : ValueOption} (h : option ∈ ValueOption.long)
    (hother : other ∈ ValueOption.long)
    (hstarts : other.name.toList <+: (option.name ++ "=" ++ value).toList) : other = option := by
  simp only [ValueOption.long, List.mem_cons, List.not_mem_nil, or_false] at h hother
  rcases h with rfl | rfl | rfl | rfl | rfl <;>
    rcases hother with rfl | rfl | rfl | rfl | rfl <;>
    simp [ValueOption.name, String.toList_append] at hstarts ⊢

theorem ofLong?_assigned (option : ValueOption) (value : String) :
    ofLong? (option.name ++ "=" ++ value) option = some (assigned option value) := by
  have htext : (option.name ++ "=" ++ value).toList = option.name.toList ++ '=' :: value.toList := by
    simp [String.toList_append]
  rw [ofLong?, htext, after?_append]
  simp only [String.ofList_toList]

theorem findSome?_ofLong?_assigned (h : option ∈ ValueOption.long) (value : String) :
    ValueOption.long.findSome? (ofLong? (option.name ++ "=" ++ value)) =
      some (assigned option value) := by
  -- the options in front of this one do not recognise the argument
  have hskip : ∀ other ∈ ValueOption.long, other ≠ option →
      ofLong? (option.name ++ "=" ++ value) other = none := by
    intro other hother hne
    rw [ofLong?, after?_eq_none fun hstarts => hne (eq_of_startsWith_name h hother hstarts)]
  obtain ⟨front, back, hsplit, hfront⟩ := List.eq_append_cons_of_mem h
  rw [hsplit] at hskip ⊢
  rw [List.findSome?_append, List.findSome?_eq_none_iff.2, Option.none_or, List.findSome?_cons,
    ofLong?_assigned]
  intro other hother
  exact hskip other (List.mem_append_left _ hother) fun he => hfront (he ▸ hother)

theorem ofText_assigned (h : option ∈ ValueOption.long) (value : String) :
    ofText (option.name ++ "=" ++ value) = assigned option value := by
  have hflag : option.name ++ "=" ++ value ∉ flags := by
    intro hmem
    have hequals : '=' ∈ (option.name ++ "=" ++ value).toList := by simp [String.toList_append]
    have hnone : ∀ flag ∈ flags, '=' ∉ flag.toList := by decide
    exact hnone _ hmem hequals
  rw [ofText_of_notMem hflag, findSome?_ofLong?_assigned h]
  rfl

theorem ofText_attached (h : value ≠ "") : ofText ("-o" ++ value) = assigned .output value := by
  have htext : ("-o" ++ value).toList = '-' :: 'o' :: value.toList := by
    simp [String.toList_append]
  have hflag : "-o" ++ value ∉ flags := by
    intro hmem
    have hsecond : ∀ flag ∈ flags, flag.toList[1]? ≠ some 'o' := by decide
    exact hsecond _ hmem (by rw [htext]; rfl)
  have hlong : ValueOption.long.findSome? (ofLong? ("-o" ++ value)) = none := by
    rw [List.findSome?_eq_none_iff]
    intro option hoption
    rw [ofLong?, after?_eq_none]
    rw [htext]
    rintro ⟨rest, hrest⟩
    have hsecond : ∀ option ∈ ValueOption.long, option.name.toList[1]? = some '-' := by decide
    have hlength := (List.getElem?_eq_some_iff.1 (hsecond option hoption)).1
    have hsame := congrArg (·[1]?) hrest
    rw [List.getElem?_append_left hlength, hsecond option hoption] at hsame
    exact absurd hsame (by simp)
  have hshort : ofShort? ("-o" ++ value) = some (assigned .output value) := by
    obtain ⟨c, cs, hvalue⟩ := List.exists_cons_of_ne_nil (mt String.toList_eq_nil_iff.1 h)
    rw [ofShort?, String.toList_append, ValueOption.name, after?_append, hvalue]
    simp only [← hvalue, String.ofList_toList]
  rw [ofText_of_notMem hflag, hlong, hshort]
  rfl

theorem ofText_input (h : text.toList.head? ≠ some '-') : ofText text = input := by
  have hdash {s : String} (hs : s.toList.head? = some '-') : ¬s.toList <+: text.toList := by
    intro hstarts
    obtain ⟨cs, hcs⟩ := List.head?_eq_some_iff.1 hs
    obtain ⟨rest, hrest⟩ := hstarts
    exact h (by rw [← hrest, hcs]; rfl)
  have hflag : text ∉ flags := by
    intro hmem
    have hfirst : ∀ flag ∈ flags, flag.toList.head? = some '-' := by decide
    exact h (hfirst _ hmem)
  have hlong : ValueOption.long.findSome? (ofLong? text) = none := by
    rw [List.findSome?_eq_none_iff]
    intro option _
    have hfirst : option.name.toList.head? = some '-' := by cases option <;> decide
    rw [ofLong?, after?_eq_none (hdash hfirst)]
  have hshort : ofShort? text = none := by rw [ofShort?, after?_eq_none (hdash (by decide))]
  rw [ofText_of_notMem hflag, hlong, hshort, Option.none_or, Option.getD_none, if_neg h]

end Argument

namespace ArgumentGroup

/-! ### Reading groups -/

theorem readFrom_assigned {a : String} {option : ValueOption} {value : String}
    (h : Argument.ofText a = .assigned option value) (o : Options) (rest : List String) :
    Options.readFrom o (a :: rest) = Options.readFrom (option.set value o) rest := by
  rw [Options.readFrom.eq_def]
  simp only [h]

/-- A group is read the same way whatever follows. -/
theorem readFrom_group (o : Options) (g : ArgumentGroup) (rest : List String) :
    Options.readFrom o (g.arguments ++ rest) = Options.readFrom (g.apply o) rest := by
  cases g with
  | clean | quiet => rfl
  | separate option value =>
    rw [Options.readFrom.eq_def]
    simp only [arguments, List.cons_append, List.nil_append, Argument.ofText_name, apply]
  | assigned option value isLong =>
    exact readFrom_assigned (Argument.ofText_assigned isLong value) o rest
  | attached value nonempty => exact readFrom_assigned (Argument.ofText_attached nonempty) o rest
  | input path plain =>
    rw [Options.readFrom.eq_def]
    simp only [arguments, List.cons_append, List.nil_append, Argument.ofText_input plain, apply]

theorem readFrom_groups (o : Options) (groups : List ArgumentGroup) (rest : List String) :
    Options.readFrom o (groups.flatMap arguments ++ rest) =
      Options.readFrom (groups.foldl apply o) rest := by
  induction groups generalizing o with
  | nil => rfl
  | cons g groups ih =>
    rw [List.flatMap_cons, List.append_assoc, readFrom_group, ih, List.foldl_cons]

/-! ### What groups say -/

/-- The options that a list of groups gives: the last value of each, the flags that occur, and the
inputs in order. -/
structure Give (groups : List ArgumentGroup) (o : Options) : Prop where
  inputs : o.inputs = groups.filterMap input?
  output : o.output = (lastValue .output groups).getD ""
  engineApi : o.engineApi = (lastValue .engineApi groups).getD ""
  projectTypes : o.projectTypes = lastValue .projectTypes groups
  configuration : o.configuration = lastValue .configuration groups
  projectRoot : o.projectRoot = lastValue .projectRoot groups
  manifest : o.manifest = lastValue .manifest groups
  clean : o.clean = true ↔ .clean ∈ groups
  quiet : o.quiet = true ↔ .quiet ∈ groups
  help : o.help = false
  version : o.version = false

theorem lastValue_concat (option : ValueOption) (groups : List ArgumentGroup) (g : ArgumentGroup) :
    lastValue option (groups ++ [g]) = (g.value? option).or (lastValue option groups) := by
  rw [lastValue, List.filterMap_append, List.getLast?_append, lastValue]
  cases h : g.value? option <;> simp [h]

theorem give_nil : Give [] {} := by constructor <;> simp [lastValue]

section Concat

variable {groups : List ArgumentGroup} {o : Options} {g : ArgumentGroup}

theorem Give.set {option : ValueOption} {value : String} (h : Give groups o)
    (hvalue : ∀ other, g.value? other = if option = other then some value else none)
    (hinput : g.input? = none) (hclean : g ≠ .clean) (hquiet : g ≠ .quiet) :
    Give (groups ++ [g]) (option.set value o) := by
  obtain ⟨inputs, output, engineApi, projectTypes, configuration, projectRoot, manifest, clean,
    quiet, help, version⟩ := h
  cases option <;> constructor <;>
    simp_all [ValueOption.set, lastValue_concat, Ne.symm hclean, Ne.symm hquiet]

/-- One more group changes what it is about, and nothing else. -/
theorem Give.concat (h : Give groups o) (g : ArgumentGroup) :
    Give (groups ++ [g]) (g.apply o) := by
  cases g with
  | separate option value =>
    exact h.set (fun _ => rfl) rfl (by rintro ⟨⟩) (by rintro ⟨⟩)
  | assigned option value isLong =>
    exact h.set (fun _ => rfl) rfl (by rintro ⟨⟩) (by rintro ⟨⟩)
  | attached value nonempty =>
    change Give (groups ++ [attached value nonempty]) (ValueOption.set value o .output)
    exact h.set (fun _ => rfl) rfl (by rintro ⟨⟩) (by rintro ⟨⟩)
  | clean | quiet | input =>
    obtain ⟨inputs, output, engineApi, projectTypes, configuration, projectRoot, manifest, clean,
      quiet, help, version⟩ := h
    constructor <;> simp_all [apply, lastValue_concat, value?, input?]

end Concat

theorem give_foldl (groups : List ArgumentGroup) : Give groups (groups.foldl apply {}) := by
  induction groups using List.reverseRecOn with
  | nil => exact give_nil
  | append_singleton groups g ih =>
    rw [List.foldl_append]
    exact ih.concat g

/-- There are inputs as soon as one group is an input. -/
theorem Give.inputs_ne_nil_iff {groups : List ArgumentGroup} {o : Options} (h : Give groups o) :
    o.inputs ≠ [] ↔ ∃ path plain, .input path plain ∈ groups := by
  rw [h.inputs, Ne, List.filterMap_eq_nil_iff]
  push Not
  constructor
  · rintro ⟨g, hg, hpath⟩
    cases g with
    | input path plain => exact ⟨path, plain, hg⟩
    | clean | quiet | separate | assigned | attached => exact absurd rfl hpath
  · rintro ⟨path, plain, hg⟩
    exact ⟨_, hg, Option.some_ne_none path⟩

end ArgumentGroup

namespace Options

theorem check_eq_ok_iff {o o' : Options} :
    o.check = .ok o' ↔ (o.inputs ≠ [] ∧ o.engineApi ≠ "" ∧ o.output ≠ "") ∧ o' = o := by
  rw [check]
  split_ifs with hinputs hengine houtput
  · simp [List.isEmpty_iff.1 hinputs]
  · simp [beq_iff_eq.1 hengine]
  · simp [beq_iff_eq.1 houtput]
  · have hneeds : o.inputs ≠ [] ∧ o.engineApi ≠ "" ∧ o.output ≠ "" := by
      simpa using And.intro hinputs (And.intro hengine houtput)
    rw [and_iff_right hneeds, Except.ok.injEq, eq_comm]

open ArgumentGroup in
/-- What is read from groups of arguments. The last value of each option counts, and reading
succeeds exactly if there are an input, a description of the engine and a place for the output. A
request for help or for the version succeeds in any case, and nothing behind it is read. -/
theorem ofArguments_groups (groups : List ArgumentGroup) :
    let arguments := groups.flatMap ArgumentGroup.arguments
    ∃ given, Give groups given ∧
      ((∃ o, ofArguments arguments = .ok o) ↔
        (∃ path plain, .input path plain ∈ groups) ∧
        (∃ value ≠ "", lastValue .engineApi groups = some value) ∧
        ∃ value ≠ "", lastValue .output groups = some value) ∧
      (∀ o, ofArguments arguments = .ok o → o = given) ∧
      ∀ rest,
        ofArguments (arguments ++ "--help" :: rest) = .ok { given with help := true } ∧
        ofArguments (arguments ++ "--version" :: rest) = .ok { given with version := true } := by
  intro arguments
  have hread (rest : List String) :
      ofArguments (arguments ++ rest) = readFrom (groups.foldl apply {}) rest :=
    readFrom_groups {} groups rest
  have hgiven := give_foldl groups
  generalize groups.foldl apply {} = given at hread hgiven
  have hall : ofArguments arguments = given.check := by
    rw [← List.append_nil arguments, hread, readFrom]
  refine ⟨given, hgiven, ?_, ?_, fun rest => ⟨hread _, hread _⟩⟩
  · have hvalue (value : Option String) : value.getD "" ≠ "" ↔ ∃ v ≠ "", value = some v := by
      cases value <;> simp
    calc (∃ o, ofArguments arguments = .ok o)
        ↔ given.inputs ≠ [] ∧ given.engineApi ≠ "" ∧ given.output ≠ "" := by
          simp only [hall, check_eq_ok_iff, exists_and_left, exists_eq, and_true]
      _ ↔ _ := by rw [hgiven.inputs_ne_nil_iff, hgiven.engineApi, hgiven.output, hvalue, hvalue]
  · intro o ho
    rw [hall] at ho
    exact (check_eq_ok_iff.1 ho).2

/-- A value behind an option of its own may look like an option. -/
example :
    ((ofArguments ["-o", "--clean", "--native-api=api.json", "hero.gd"]).toOption.map fun o =>
      (o.output, o.clean)) = some ("--clean", false) := by
  decide +kernel

end Options

end ScriptBridge
