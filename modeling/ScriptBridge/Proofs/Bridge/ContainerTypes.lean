import Mathlib.Data.List.TakeWhile
import ScriptBridge.Bridge.HostType
import ScriptBridge.Proofs.Script.WrittenReading

/-! The C# type for a written type. The text of a type is all that is known of it when it is
mapped: the name and the arguments of a container are found in the text again, by the first
bracket, the last one, and the commas outside brackets. Proved: they are the ones that the text
was written from, at every depth of nesting, so that a type is mapped along its structure. -/

namespace ScriptBridge

/-! ### Types along their structure -/

/-- The type for a container of mapped elements, however many there are. No container holds a
`Variant`. -/
def HostType.container (name : String) (elements : List String) : String :=
  if name = "Array" then
    match elements with
    | [element] =>
      if element = any then "Godot.Collections.Array"
      else "Godot.Collections.Array<" ++ element ++ ">"
    | _ => "Godot.Collections.Array"
  else if name = "Dictionary" then
    match elements with
    | [key, value] =>
      if key = any ∨ value = any then "Godot.Collections.Dictionary"
      else "Godot.Collections.Dictionary<" ++ key ++ ", " ++ value ++ ">"
    | _ => "Godot.Collections.Dictionary"
  else any

/-- The type for a written type. -/
def WrittenType.hostType (scope : TypeScope) : WrittenType → String
  | name n => HostType.ofName scope n.text
  | applied n arguments => HostType.container n.text (arguments.map (hostType scope))

namespace HostType

variable {c : Char} {cs ds name inner : List Char} {least : Nat}

/-! ### Texts that are not split -/

/-- A text that is split nowhere as long as `least` brackets are open before it, and that closes
the brackets it opens. -/
def Unsplit (least : Nat) (cs : List Char) : Prop :=
  ∀ depth, least ≤ depth → ∀ rest,
    splitArguments depth (cs ++ rest) = (splitArguments depth rest).modifyHead (cs ++ ·)

theorem splitArguments_ne_nil (depth : Nat) (cs : List Char) : splitArguments depth cs ≠ [] := by
  cases cs with
  | nil => exact List.cons_ne_nil _ _
  | cons c cs =>
    rw [splitArguments]
    split_ifs
    · exact List.cons_ne_nil _ _
    all_goals
      dsimp only
      split <;> exact List.cons_ne_nil _ _

/-- The brackets that are open behind a character. -/
def depthAfter (depth : Nat) (c : Char) : Nat :=
  if c == '[' then depth + 1 else if c == ']' then depth - 1 else depth

theorem splitArguments_cons {depth : Nat} (h : (c == ',' && depth == 0) = false)
    (cs : List Char) :
    splitArguments depth (c :: cs) =
      (splitArguments (depthAfter depth c) cs).modifyHead (c :: ·) := by
  rw [splitArguments, h, if_neg Bool.false_ne_true]
  obtain ⟨part, parts, hparts⟩ :=
    List.exists_cons_of_ne_nil (splitArguments_ne_nil (depthAfter depth c) cs)
  rw [hparts]
  unfold depthAfter at hparts
  simp only [hparts, List.modifyHead_cons]

theorem splitArguments_comma (cs : List Char) :
    splitArguments 0 (',' :: cs) = [] :: splitArguments 0 cs := by
  rw [splitArguments]
  rfl

namespace Unsplit

theorem nil : Unsplit least [] := fun _ _ _ => List.modifyHead_id.symm ▸ rfl

theorem append (h : Unsplit least cs) (k : Unsplit least ds) : Unsplit least (cs ++ ds) := by
  intro depth hd rest
  rw [List.append_assoc, h depth hd, k depth hd, List.modifyHead_modifyHead]
  congr 1
  funext part
  exact (List.append_assoc cs ds part).symm

theorem mono (h : Unsplit 0 cs) : Unsplit least cs := fun depth _ => h depth (Nat.zero_le depth)

theorem flatMap {α : Type} {f : α → List Char} {l : List α} (h : ∀ x ∈ l, Unsplit least (f x)) :
    Unsplit least (l.flatMap f) := by
  induction l with
  | nil => exact nil
  | cons x l ih =>
    obtain ⟨hx, hl⟩ := List.forall_mem_cons.1 h
    exact hx.append (ih hl)

/-- A character that is neither a comma nor a bracket. -/
theorem singleton (h : c ∉ [',', '[', ']']) : Unsplit 0 [c] := by
  simp only [List.mem_cons, List.not_mem_nil, or_false, not_or] at h
  intro depth _ rest
  have hcomma : (c == ',' && depth == 0) = false := by simp [h.1]
  have hdepth : depthAfter depth c = depth := by simp [depthAfter, h.2]
  rw [List.singleton_append, splitArguments_cons hcomma, hdepth]
  rfl

theorem of_forall (h : ∀ c ∈ cs, c ∉ [',', '[', ']']) : Unsplit 0 cs := by
  have hflat : cs.flatMap (fun c => [c]) = cs := by simp
  rw [← hflat]
  exact flatMap fun c hc => singleton (h c hc)

/-- Within brackets a comma separates no parts. -/
theorem comma : Unsplit 1 [','] := by
  intro depth hd rest
  have hcomma : (',' == ',' && depth == 0) = false := by simp; omega
  rw [List.singleton_append, splitArguments_cons hcomma]
  rfl

theorem brackets (h : Unsplit 1 cs) : Unsplit 0 ('[' :: (cs ++ [']'])) := by
  intro depth _ rest
  rw [List.cons_append, List.append_assoc, List.singleton_append, splitArguments_cons rfl,
    show depthAfter depth '[' = depth + 1 from rfl, h _ (Nat.le_add_left 1 depth),
    splitArguments_cons rfl, show depthAfter (depth + 1) ']' = depth from rfl,
    List.modifyHead_modifyHead, List.modifyHead_modifyHead]
  congr 1
  funext part
  simp

end Unsplit

/-- Texts between commas are the parts, each behind the blank after its comma. -/
theorem splitArguments_list (h : Unsplit 0 cs) {l : List (List Char)}
    (hl : ∀ ds ∈ l, Unsplit 0 ds) :
    splitArguments 0 (cs ++ l.flatMap fun ds => ',' :: ' ' :: ds) =
      cs :: l.map fun ds => ' ' :: ds := by
  induction l generalizing cs with
  | nil =>
    rw [List.flatMap_nil, h 0 (Nat.le_refl 0)]
    simp [splitArguments]
  | cons ds l ih =>
    obtain ⟨hds, hl⟩ := List.forall_mem_cons.1 hl
    have hblank : Unsplit 0 (' ' :: ds) := (Unsplit.singleton (by decide)).append hds
    have hrest := ih hblank hl
    rw [List.flatMap_cons, h 0 (Nat.le_refl 0), List.cons_append, splitArguments_comma, hrest]
    simp

/-! ### The parts of a text -/

/-- Blanks before a text without blanks at its ends are taken off, and nothing else. -/
theorem trim_append (ds : List Char) (hblanks : ∀ c ∈ ds, isBlank c)
    (hhead : ∀ c ∈ cs.head?, isBlank c = false) (hlast : ∀ c ∈ cs.getLast?, isBlank c = false) :
    trim (ds ++ cs) = cs := by
  have hdrop {l : List Char} (h : ∀ c ∈ l.head?, isBlank c = false) : l.dropWhile isBlank = l := by
    cases l with
    | nil => rfl
    | cons c l => rw [List.dropWhile_cons, h c rfl, if_neg Bool.false_ne_true]
  rw [trim, List.dropWhile_append_of_pos hblanks, hdrop hhead,
    hdrop (by rwa [List.head?_reverse]), List.reverse_reverse]

theorem container?_brackets (h : '[' ∉ name) (inner : List Char) :
    container? (name ++ '[' :: (inner ++ [']'])) = some (name, inner) := by
  have hname : ∀ c ∈ name, (c != '[') = true := by
    intro c hc
    rw [bne_iff_ne]
    rintro rfl
    exact h hc
  have hlast : (name ++ '[' :: (inner ++ [']'])).getLast? = some ']' := by
    rw [← List.cons_append, ← List.append_assoc, List.getLast?_concat]
  simp only [container?, List.dropWhile_append_of_pos hname, List.takeWhile_append_of_pos hname,
    hlast]
  simp

theorem container?_eq_none (h : '[' ∉ cs) : container? cs = none := by
  have hdrop : cs.dropWhile (· != '[') = [] := by
    rw [List.dropWhile_eq_nil_iff]
    intro c hc
    rw [bne_iff_ne]
    rintro rfl
    exact h hc
  rw [container?, hdrop]

theorem ofTrimmed_of_container (scope : TypeScope) (h : container? cs = some (name, inner)) :
    ofTrimmed scope cs = ofContainer (String.ofList name)
      ((splitArguments 0 inner).map fun part => ofTrimmed scope (trim part)) := by
  rw [ofTrimmed]
  split
  · next heq =>
    rw [h] at heq
    cases heq
    rw [List.map_attach_eq_pmap]
    simp only [List.pmap_eq_map]
  · next heq =>
    rw [h] at heq
    cases heq

theorem ofTrimmed_of_name (scope : TypeScope) (h : '[' ∉ cs) (hne : cs ≠ []) :
    ofTrimmed scope cs = ofName scope (String.ofList cs) := by
  rw [ofTrimmed]
  split
  · next heq =>
    rw [container?_eq_none h] at heq
    cases heq
  · rw [if_neg hne]

theorem ofContainer_eq (name : String) (elements : List String) :
    ofContainer name elements = container name elements := by
  unfold ofContainer container
  simp only [beq_iff_eq]
  by_cases harray : name = "Array"
  · simp only [if_pos harray]
    rcases elements with _ | ⟨element, _ | ⟨b, more⟩⟩
    · rfl
    · simp only [List.contains_cons, List.contains_nil, Bool.or_false, beq_iff_eq,
        eq_comm (a := any)]
      split_ifs <;> rfl
    · split_ifs <;> rfl
  · simp only [if_neg harray]
    by_cases hdictionary : name = "Dictionary"
    · simp only [if_pos hdictionary]
      rcases elements with _ | ⟨key, _ | ⟨value, _ | ⟨c, more⟩⟩⟩
      · rfl
      · split_ifs <;> rfl
      · simp only [List.contains_cons, List.contains_nil, Bool.or_false, Bool.or_eq_true,
          beq_iff_eq, eq_comm (a := any)]
        split_ifs <;> rfl
      · split_ifs <;> rfl
    · simp only [if_neg hdictionary]

/-- No argument is read as one that is not known. -/
theorem ofContainer_any (name : String) : ofContainer name [any] = container name [] := by
  rw [ofContainer_eq]
  rfl

end HostType

/-! ### Written types -/

open HostType

/-- The characters by which the text of a type is taken apart. -/
def HostType.separators : List Char := [',', '[', ']', ' ', '\t']

theorem DottedName.notMem_separators (n : DottedName) {c : Char} (h : c ∈ n.text.toList) :
    c ∉ separators := by
  have hword (i : Identifier) (hc : c ∈ i.text.toList) : Cut.isNamePart c := by
    obtain ⟨d, ds, hs, hd, hds⟩ := i.isWord
    rw [hs] at hc
    rcases List.mem_cons.1 hc with rfl | hc
    · exact Cut.isNamePart_of_isNameStart hd
    · exact hds c hc
  have hpart : Cut.isNamePart c ∨ c = '.' := by
    rw [n.toList_text, List.mem_append, List.mem_flatMap] at h
    rcases h with h | ⟨i, -, h⟩
    · exact .inl (hword n.first h)
    · rcases List.mem_cons.1 h with rfl | h
      · exact .inr rfl
      · exact .inl (hword i h)
  have hnone : separators.any Cut.isNamePart = false := by decide
  intro hc
  rcases hpart with hp | rfl
  · exact List.any_eq_false.1 hnone c hc hp
  · exact absurd hc (by decide)

theorem DottedName.toList_ne_nil (n : DottedName) : n.text.toList ≠ [] := by
  obtain ⟨c, cs, hs, -⟩ := n.first.isWord
  rw [n.toList_text, hs]
  exact List.cons_ne_nil _ _

namespace WrittenType

theorem toList_applied (n : DottedName) (arguments : List WrittenType) :
    (applied n arguments).text.toList =
      n.text.toList ++ '[' :: ((", ".intercalate (arguments.map text)).toList ++ [']']) := by
  rw [text]
  simp only [String.toList_append, List.append_assoc]
  rfl

/-- Arguments in their brackets: the first, and each other behind a comma and a blank. -/
theorem toList_arguments (a : WrittenType) (more : List WrittenType) :
    (", ".intercalate ((a :: more).map text)).toList =
      a.text.toList ++ (more.map fun b => b.text.toList).flatMap fun ds => ',' :: ' ' :: ds := by
  rw [List.map_cons, toList_intercalate_cons, List.flatMap_map, List.flatMap_map]
  rfl

/-- A comma in the text of a type stands within its brackets. -/
theorem unsplit (t : WrittenType) : Unsplit 0 t.text.toList := by
  have hname (n : DottedName) : Unsplit 0 n.text.toList := .of_forall fun c hc hsign =>
    n.notMem_separators hc (List.mem_of_mem_take (i := 3) hsign)
  induction t using induction with
  | name n =>
    rw [text]
    exact hname n
  | applied n arguments ih =>
    rw [toList_applied]
    refine (hname n).append (.brackets ?_)
    cases arguments with
    | nil => exact .nil
    | cons a more =>
      obtain ⟨ha, hmore⟩ := List.forall_mem_cons.1 ih
      rw [toList_arguments, List.flatMap_map]
      refine ha.mono.append (.flatMap fun b hb => ?_)
      exact Unsplit.comma.append ((Unsplit.singleton (by decide)).mono.append (hmore b hb).mono)

/-- No blank stands at an end of the text of a type. -/
theorem isBlank_ends (t : WrittenType) :
    (∀ c ∈ t.text.toList.head?, isBlank c = false) ∧
      ∀ c ∈ t.text.toList.getLast?, isBlank c = false := by
  have hname (n : DottedName) (c : Char) (hc : c ∈ n.text.toList) : isBlank c = false := by
    have hblank := n.notMem_separators hc
    simp only [separators, List.mem_cons, List.not_mem_nil, or_false, not_or] at hblank
    simp [isBlank, hblank]
  cases t with
  | name n =>
    rw [text]
    exact ⟨fun c hc => hname n c (List.mem_of_mem_head? hc),
      fun c hc => hname n c (List.mem_of_getLast? hc)⟩
  | applied n arguments =>
    rw [toList_applied]
    constructor
    · intro c hc
      cases hs : n.text.toList with
      | nil => exact absurd hs n.toList_ne_nil
      | cons d ds =>
        rw [hs] at hc
        obtain rfl : d = c := by simpa using hc
        exact hname n d (hs ▸ List.mem_cons_self)
    · intro c hc
      rw [← List.cons_append, ← List.append_assoc, List.getLast?_concat] at hc
      obtain rfl : ']' = c := by simpa using hc
      rfl

theorem trim_text (t : WrittenType) : trim t.text.toList = t.text.toList :=
  trim_append [] (by simp) t.isBlank_ends.1 t.isBlank_ends.2

theorem trim_blank_text (t : WrittenType) : trim (' ' :: t.text.toList) = t.text.toList :=
  trim_append [' '] (by simp [isBlank]) t.isBlank_ends.1 t.isBlank_ends.2

/-- The parts of the text between the brackets, mapped, are the mapped arguments. -/
theorem map_splitArguments (scope : TypeScope) (a : WrittenType) (more : List WrittenType)
    (h : ∀ b ∈ a :: more, ofTrimmed scope b.text.toList = b.hostType scope) :
    (splitArguments 0 (", ".intercalate ((a :: more).map text)).toList).map
        (fun part => ofTrimmed scope (trim part)) = (a :: more).map (hostType scope) := by
  obtain ⟨ha, hmore⟩ := List.forall_mem_cons.1 h
  have hunsplit : ∀ ds ∈ more.map (fun b => b.text.toList), Unsplit 0 ds := by
    simpa using fun b (_ : b ∈ more) => b.unsplit
  rw [toList_arguments, splitArguments_list a.unsplit hunsplit, List.map_cons, List.map_map,
    List.map_map, List.map_cons, trim_text, ha]
  refine congrArg _ (List.map_congr_left fun b hb => ?_)
  simp only [Function.comp_apply, trim_blank_text, hmore b hb]

theorem ofTrimmed_text (scope : TypeScope) (t : WrittenType) :
    ofTrimmed scope t.text.toList = t.hostType scope := by
  have hbracket (n : DottedName) : '[' ∉ n.text.toList := fun h =>
    n.notMem_separators h (by decide)
  induction t using induction with
  | name n =>
    have hname := ofTrimmed_of_name scope (hbracket n) n.toList_ne_nil
    rw [String.ofList_toList] at hname
    rw [text, hostType, hname]
  | applied n arguments ih =>
    have hcontainer := ofTrimmed_of_container scope
      (container?_brackets (hbracket n) (", ".intercalate (arguments.map text)).toList)
    rw [String.ofList_toList] at hcontainer
    rw [toList_applied, hcontainer, hostType]
    cases arguments with
    | nil =>
      have hnone : ofTrimmed scope (trim []) = any := by
        rw [ofTrimmed]
        rfl
      rw [List.map_nil, String.intercalate_nil, String.toList_empty, splitArguments,
        List.map_singleton, hnone, ofContainer_any, List.map_nil]
    | cons a more => rw [map_splitArguments scope a more ih, ofContainer_eq]

/-- The text that is read off the tokens of a type is mapped along the structure of the type. -/
theorem ofText_eq_hostType (scope : TypeScope) (t : WrittenType) :
    (TypeExpr.read t.tokens).value.map (fun v => v.1.text) = some t.text ∧
      HostType.ofText scope t.text = t.hostType scope := by
  constructor
  · have hread := t.readsBack [] ⟨rfl, rfl⟩
    rw [List.append_nil] at hread
    rw [hread, Option.map_some, t.text_toExpr]
  · rw [ofText, trim_text, ofTrimmed_text]

end WrittenType

end ScriptBridge
