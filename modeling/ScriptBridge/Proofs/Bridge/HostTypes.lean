import ScriptBridge.Bridge.Plan
import ScriptBridge.Proofs.Bridge.ContainerTypes

/-! The types that texts are mapped to. Any text at all has one, also where brackets are not
closed or arguments are missing. Proved: it is one of the names that are known, or a container
of such types, and `Variant` is no argument of a container at any depth; and a mapper that takes
every part of a text by its bounds, with so many nested texts at most, never fails. -/

namespace ScriptBridge

namespace HostType

/-! ### The types there are -/

/-- The names that a name is mapped to. -/
inductive IsKnown (scope : TypeScope) : String → Prop
  | builtin {name host : String} (h : (name, host) ∈ builtin) : IsKnown scope host
  | root : IsKnown scope scope.catalog.rootType
  | kind (k : EngineKind) : IsKnown scope k.typeName
  | engineType {t : EngineType} (h : t ∈ scope.catalog.engineTypes) : IsKnown scope t.name
  | projectType {t : ProjectType} (h : t ∈ scope.catalog.projectTypes) :
      IsKnown scope (qualifiedName t.name (t.namespaceName.getD ""))

/-- The types that a text is mapped to. -/
inductive IsMapped (scope : TypeScope) : String → Prop
  | any : IsMapped scope any
  | known {host : String} (h : IsKnown scope host) : IsMapped scope host
  | array : IsMapped scope "Godot.Collections.Array"
  | dictionary : IsMapped scope "Godot.Collections.Dictionary"
  | arrayOf {element : String} (h : IsMapped scope element) (hany : element ≠ HostType.any) :
      IsMapped scope ("Godot.Collections.Array<" ++ element ++ ">")
  | dictionaryOf {key value : String} (hkey : IsMapped scope key) (hvalue : IsMapped scope value)
      (hkeyAny : key ≠ HostType.any) (hvalueAny : value ≠ HostType.any) :
      IsMapped scope ("Godot.Collections.Dictionary<" ++ key ++ ", " ++ value ++ ">")

variable {scope : TypeScope} {cs name inner : List Char} {host : String}

/-- The name of a type that is found, as it is written. -/
def written : FoundType → String
  | .engine name _ => name
  | .project t => qualifiedName t.name (t.namespaceName.getD "")

/-- What the tables say of a name: the first that knows it. -/
def known? (scope : TypeScope) (name : String) : Option String :=
  (builtin.lookup name).or <|
    (if scope.scriptClasses.contains name then some scope.catalog.rootType else none).or <|
      ((EngineKind.ofScriptName? name).map EngineKind.typeName).or
        ((scope.catalog.find name).map written)

theorem ofName_eq (scope : TypeScope) (name : String) :
    ofName scope name = (known? scope name).getD any := by
  rw [ofName, known?]
  cases builtin.lookup name with
  | some host => rfl
  | none =>
    split_ifs
    · rfl
    · rcases EngineKind.ofScriptName? name with _ | kind
      · rcases scope.catalog.find name with _ | ⟨name, _⟩ | ⟨name, _ | namespaceName⟩ <;> rfl
      · rfl

theorem isKnown_of_find {name : String} {found : FoundType}
    (h : scope.catalog.find name = some found) : IsKnown scope (written found) := by
  rw [Catalog.find] at h
  cases hproject : scope.catalog.findProjectType name with
  | some t =>
    rw [hproject] at h
    cases h
    exact .projectType (List.mem_of_find?_eq_some hproject)
  | none =>
    rw [hproject] at h
    obtain ⟨t, hengine, rfl⟩ := Option.map_eq_some_iff.1 h
    exact .engineType (List.mem_of_find?_eq_some hengine)

theorem isKnown_of_known? {name : String} (h : known? scope name = some host) :
    IsKnown scope host := by
  rw [known?, Option.or_eq_some_iff, Option.or_eq_some_iff, Option.or_eq_some_iff] at h
  rcases h with hbuiltin | ⟨-, hroot | ⟨-, hkind | ⟨-, hfound⟩⟩⟩
  · obtain ⟨before, after, hsplit, -⟩ := List.lookup_eq_some_iff.1 hbuiltin
    exact .builtin (hsplit ▸ List.mem_append_right before List.mem_cons_self)
  · obtain ⟨-, hroot⟩ := Option.ite_none_right_eq_some.1 hroot
    cases hroot
    exact .root
  · obtain ⟨kind, -, rfl⟩ := Option.map_eq_some_iff.1 hkind
    exact .kind kind
  · obtain ⟨found, hfind, rfl⟩ := Option.map_eq_some_iff.1 hfound
    exact isKnown_of_find hfind

theorem isMapped_ofName (scope : TypeScope) (name : String) :
    IsMapped scope (ofName scope name) := by
  rw [ofName_eq]
  cases h : known? scope name with
  | some host => exact .known (isKnown_of_known? h)
  | none => exact .any

theorem isMapped_container (name : String) {elements : List String}
    (h : ∀ element ∈ elements, IsMapped scope element) :
    IsMapped scope (container name elements) := by
  unfold container
  split_ifs
  · split
    · next element =>
      split_ifs with hany
      · exact .array
      · exact .arrayOf (h element (by simp)) hany
    · exact .array
  · split
    · next key value =>
      split_ifs with hany
      · exact .dictionary
      · rw [not_or] at hany
        exact .dictionaryOf (h key (by simp)) (h value (by simp)) hany.1 hany.2
    · exact .dictionary
  · exact .any

theorem isMapped_ofTrimmed (scope : TypeScope) (cs : List Char) :
    IsMapped scope (ofTrimmed scope cs) := by
  fun_induction ofTrimmed scope cs with
  | case1 cs name inner h ih =>
    rw [ofContainer_eq]
    refine isMapped_container _ ?_
    intro element helement
    obtain ⟨part, -, rfl⟩ := List.mem_map.1 helement
    exact ih part
  | case2 => exact .any
  | case3 => exact isMapped_ofName scope _

/-! ### Words of types -/

/-- A character that stands between the names in the text of a host type. -/
def isBetween (c : Char) : Bool := c == '<' || c == '>' || c == ',' || c == ' '

/-- Whether a name is one word. -/
def isWord (host : String) : Bool := !host.toList.any isBetween

/-- The names in the text of a host type. -/
def words (host : String) : List String := (host.toList.splitOnP isBetween).map String.ofList

theorem words_of_isWord (h : isWord host = true) : words host = [host] := by
  have hchars : ∀ c ∈ host.toList, isBetween c = false := by simpa [isWord] using h
  rw [words, List.splitOnP_eq_singleton hchars, List.map_singleton, String.ofList_toList]

theorem words_arrayOf (element : String) :
    words ("Godot.Collections.Array<" ++ element ++ ">") =
      "Godot.Collections.Array" :: (words element ++ [""]) := by
  have htext : ("Godot.Collections.Array<" ++ element ++ ">").toList =
      "Godot.Collections.Array".toList ++ '<' :: (element.toList ++ '>' :: []) := by
    simp
  rw [words, htext, List.splitOnP_append_cons _ _ rfl, List.splitOnP_append_cons _ _ rfl,
    List.map_append, List.map_append]
  exact congrArg (· ++ (words element ++ [""])) (words_of_isWord rfl)

theorem words_dictionaryOf (key value : String) :
    words ("Godot.Collections.Dictionary<" ++ key ++ ", " ++ value ++ ">") =
      "Godot.Collections.Dictionary" :: (words key ++ "" :: (words value ++ [""])) := by
  have htext : ("Godot.Collections.Dictionary<" ++ key ++ ", " ++ value ++ ">").toList =
      "Godot.Collections.Dictionary".toList ++
        '<' :: (key.toList ++ ',' :: ([] ++ ' ' :: (value.toList ++ '>' :: []))) := by
    simp
  rw [words, htext, List.splitOnP_append_cons _ _ rfl, List.splitOnP_append_cons _ _ rfl,
    List.splitOnP_append_cons _ _ rfl, List.splitOnP_append_cons _ _ rfl, List.map_append,
    List.map_append, List.map_append, List.map_append]
  exact congrArg (· ++ (words key ++ ("" :: (words value ++ [""])))) (words_of_isWord rfl)

/-- `Variant` is no word of another type. -/
theorem IsMapped.any_notMem_words (h : IsMapped scope host)
    (hknown : ∀ known, IsKnown scope known → isWord known = true) (hany : host ≠ HostType.any) :
    HostType.any ∉ words host := by
  have hplain {plain : String} (hword : isWord plain = true) (hne : plain ≠ HostType.any) :
      HostType.any ∉ words plain := by
    rw [words_of_isWord hword, List.mem_singleton]
    exact hne.symm
  induction h with
  | any => exact absurd rfl hany
  | known h => exact hplain (hknown _ h) hany
  | array | dictionary => exact hplain rfl hany
  | arrayOf _ helement ih =>
    rw [words_arrayOf, List.mem_cons, List.mem_append, List.mem_singleton]
    exact not_or.2 ⟨by decide, not_or.2 ⟨ih helement, by decide⟩⟩
  | dictionaryOf _ _ hkey hvalue ihk ihv =>
    rw [words_dictionaryOf, List.mem_cons, List.mem_append, List.mem_cons, List.mem_append,
      List.mem_singleton]
    exact not_or.2 ⟨by decide, not_or.2 ⟨ihk hkey, not_or.2 ⟨by decide,
      not_or.2 ⟨ihv hvalue, by decide⟩⟩⟩⟩

/-! ### Reading by bounds -/

/-- A difference of lengths, if it is none below zero. -/
def minus? (a b : Nat) : Option Nat := if b ≤ a then some (a - b) else none

/-- So many characters of a text from a place on, if it has them. -/
def part? (cs : List Char) (start count : Nat) : Option (List Char) :=
  if start + count ≤ cs.length then some ((cs.drop start).take count) else none

/-- The parts of a text between the commas outside brackets, where the part that `index` lies in
begins at `start`. -/
def arguments? (text : List Char) (start : Nat) : Nat → Nat → List Char → Option (List (List Char))
  | _, _, [] => do
    let count ← minus? text.length start
    let part ← part? text start count
    return [part]
  | depth, index, c :: cs =>
    if c == ',' && depth == 0 then do
      let count ← minus? index start
      let part ← part? text start count
      let parts ← arguments? text (index + 1) 0 (index + 1) cs
      return part :: parts
    else arguments? text start (depthAfter depth c) (index + 1) cs

/-- The type for a text of nested texts, so many at most, each a part by its bounds. There is
none if a bound is out of the text or the texts are nested more deeply. -/
def ofBounds? (scope : TypeScope) : Nat → List Char → Option String
  | 0, _ => none
  | nesting + 1, cs =>
    let text := trim cs
    let bracket := text.idxOf '['
    if bracket < text.length ∧ text.getLast? = some ']' then do
      let name ← part? text 0 bracket
      let count ← minus? text.length (bracket + 2)
      let inner ← part? text (bracket + 1) count
      let parts ← arguments? inner 0 0 0 inner
      let elements ← parts.mapM (ofBounds? scope nesting)
      return ofContainer (String.ofList name) elements
    else if text = [] then some any
    else some (ofName scope (String.ofList text))

theorem minus?_of_le {a b : Nat} (h : b ≤ a) : minus? a b = some (a - b) := if_pos h

theorem part?_of_le {start count : Nat} (h : start + count ≤ cs.length) :
    part? cs start count = some ((cs.drop start).take count) := if_pos h

/-- Every argument is a part of the text by its bounds. -/
theorem arguments?_eq (front : List Char) (start depth : Nat) (h : start ≤ front.length)
    (cs : List Char) :
    arguments? (front ++ cs) start depth front.length cs =
      some ((splitArguments depth cs).modifyHead (front.drop start ++ ·)) := by
  induction cs generalizing front depth start with
  | nil =>
    rw [List.append_nil, arguments?, minus?_of_le h, Option.bind_eq_bind, Option.bind_some,
      part?_of_le (by omega), List.take_of_length_le (by rw [List.length_drop])]
    simp [splitArguments]
  | cons c cs ih =>
    have hnext (start : Nat) (depth : Nat) (h : start ≤ front.length + 1) :
        arguments? (front ++ c :: cs) start depth (front.length + 1) cs =
          some ((splitArguments depth cs).modifyHead ((front ++ [c]).drop start ++ ·)) := by
      have hcons := ih (front ++ [c]) start depth (by simpa)
      rwa [List.append_assoc, List.singleton_append, List.length_append] at hcons
    rw [arguments?]
    by_cases hcomma : (c == ',' && depth == 0) = true
    · obtain ⟨rfl, rfl⟩ : c = ',' ∧ depth = 0 := by simpa using hcomma
      have hpart : ((front ++ ',' :: cs).drop start).take (front.length - start) =
          front.drop start := by
        rw [List.drop_append_of_le_length h, List.take_left' (List.length_drop)]
      rw [if_pos hcomma, minus?_of_le h, Option.bind_eq_bind, Option.bind_some,
        part?_of_le (by simp; omega), hpart, hnext _ _ (Nat.le_refl _), splitArguments_comma]
      simp [show (fun part : List Char => part) = id from rfl, List.modifyHead_id]
    · rw [Bool.not_eq_true] at hcomma
      rw [hcomma, if_neg Bool.false_ne_true, hnext _ _ (Nat.le_succ_of_le h),
        splitArguments_cons hcomma, List.modifyHead_modifyHead, List.drop_append_of_le_length h]
      congr 2
      funext part
      simp

theorem arguments?_text (text : List Char) :
    arguments? text 0 0 0 text = some (splitArguments 0 text) := by
  have h := arguments?_eq [] 0 0 (Nat.le_refl 0) text
  rwa [List.nil_append, List.length_nil, List.drop_nil,
    show (([] : List Char) ++ ·) = id from rfl, List.modifyHead_id, id_eq] at h

/-- What is between the first bracket of a container and its last character lies within it. -/
theorem bracket_add_two_le (hopen : cs.idxOf '[' < cs.length) (hclose : cs.getLast? = some ']') :
    cs.idxOf '[' + 2 ≤ cs.length := by
  have hbracket : cs[cs.idxOf '['] = '[' := List.getElem_idxOf hopen
  rw [List.getLast?_eq_getElem?] at hclose
  have hne : cs.idxOf '[' ≠ cs.length - 1 := by
    intro heq
    rw [← heq, List.getElem?_eq_getElem hopen, hbracket] at hclose
    exact absurd hclose (by decide)
  omega

/-- A container by its bounds. -/
theorem container?_eq (cs : List Char) :
    container? cs =
      if cs.idxOf '[' < cs.length ∧ cs.getLast? = some ']' then
        some (cs.take (cs.idxOf '['),
          (cs.drop (cs.idxOf '[' + 1)).take (cs.length - (cs.idxOf '[' + 2)))
      else none := by
  have hindex : cs.findIdx (fun c => !(c != '[')) = cs.idxOf '[' := by
    simp only [bne, Bool.not_not]
    rfl
  rw [container?, List.dropWhile_eq_drop_findIdx_not, List.takeWhile_eq_take_findIdx_not, hindex]
  by_cases hopen : cs.idxOf '[' < cs.length
  · rw [List.drop_eq_getElem_cons hopen]
    dsimp only
    rw [List.dropLast_eq_take, List.length_drop, Nat.sub_sub]
    simp only [hopen, true_and, beq_iff_eq]
  · rw [List.drop_of_length_le (Nat.le_of_not_lt hopen), if_neg fun h => hopen h.1]

theorem ofTrimmed_of_not_container (scope : TypeScope) (h : container? cs = none) :
    ofTrimmed scope cs = if cs = [] then any else ofName scope (String.ofList cs) := by
  rw [ofTrimmed]
  split
  · next heq => cases h.symm.trans heq
  · rfl

theorem mapM_eq_some {α β : Type} {f : α → Option β} {g : α → β} {l : List α}
    (h : ∀ x ∈ l, f x = some (g x)) : l.mapM f = some (l.map g) := by
  induction l with
  | nil => rfl
  | cons x l ih =>
    obtain ⟨hx, hl⟩ := List.forall_mem_cons.1 h
    rw [List.mapM_cons, hx, ih hl]
    rfl

/-- A text has its type by bounds, and texts are nested in it half as deeply as it is long. -/
theorem ofBounds?_eq (scope : TypeScope) {nesting : Nat} {cs : List Char}
    (h : cs.length < 2 * nesting) :
    ofBounds? scope nesting cs = some (ofTrimmed scope (trim cs)) := by
  induction nesting generalizing cs with
  | zero => omega
  | succ nesting ih =>
    rw [ofBounds?]
    have hcontainer := container?_eq (trim cs)
    have hlength := length_trim_le cs
    split_ifs with htext hempty
    · rw [if_pos htext] at hcontainer
      have hbounds := bracket_add_two_le htext.1 htext.2
      have helements : ∀ part ∈ splitArguments 0 (((trim cs).drop ((trim cs).idxOf '[' + 1)).take
          ((trim cs).length - ((trim cs).idxOf '[' + 2))),
          ofBounds? scope nesting part = some (ofTrimmed scope (trim part)) := by
        intro part hpart
        refine ih ?_
        have hinner := length_of_mem_splitArguments hpart
        rw [List.length_take, List.length_drop] at hinner
        omega
      rw [ofTrimmed_of_container scope hcontainer, part?_of_le (by omega), minus?_of_le hbounds]
      simp only [Option.bind_eq_bind, Option.bind_some]
      rw [part?_of_le (by omega)]
      simp only [Option.bind_some, arguments?_text]
      rw [mapM_eq_some helements]
      rfl
    · rw [if_neg htext] at hcontainer
      rw [ofTrimmed_of_not_container scope hcontainer, if_pos hempty]
    · rw [if_neg htext] at hcontainer
      rw [ofTrimmed_of_not_container scope hcontainer, if_neg hempty]

end HostType

end ScriptBridge
