import ScriptBridge.Proofs.Bridge.HostTypes
import ScriptBridge.Proofs.Text.ByteChars

/-! Types mapped byte by byte. A text that is read by bytes has a character for each byte, and
need not be text at all. Proved: the type for the bytes of a text is the type for the text, byte
by byte, because names and brackets are told apart by characters that are one byte. -/

namespace ScriptBridge

namespace HostType

/-! ### Types by bytes -/

theorem trim_byteChars (cs : List Char) : trim (byteChars cs) = byteChars (trim cs) := by
  have hblank : Uniform isBlank := .of_ascii fun c hc => by
    simp only [isBlank, Bool.or_eq_true, beq_iff_eq] at hc
    rcases hc with rfl | rfl <;> decide
  have htrim (ds : List Char) : trim ds = (ds.dropWhile isBlank).rdropWhile isBlank := rfl
  rw [htrim, htrim, dropWhile_byteChars hblank, rdropWhile_byteChars hblank]

theorem splitArguments_byteChars (depth : Nat) (cs : List Char) :
    splitArguments depth (byteChars cs) = (splitArguments depth cs).map byteChars := by
  induction cs generalizing depth with
  | nil => rfl
  | cons c cs ih =>
    rw [byteChars_cons]
    by_cases hcomma : (c == ',' && depth == 0) = true
    · obtain ⟨rfl, rfl⟩ : c = ',' ∧ depth = 0 := by simpa using hcomma
      rw [byteChars_of_lt (by decide), List.singleton_append, splitArguments_comma, ih,
        splitArguments_comma, List.map_cons, byteChars_nil]
    · rw [Bool.not_eq_true] at hcomma
      have hfront : splitArguments depth (byteChars [c] ++ byteChars cs) =
          (splitArguments (depthAfter depth c) (byteChars cs)).modifyHead (byteChars [c] ++ ·) := by
        by_cases hc : c.val < 0x80
        · rw [byteChars_of_lt hc, List.singleton_append, splitArguments_cons hcomma]
          rfl
        · have hplain : ∀ d ∈ byteChars [c], d ∉ [',', '[', ']'] := by
            intro d hd hsign
            have hascii : d.val < 0x80 := by
              simp only [List.mem_cons, List.not_mem_nil, or_false] at hsign
              rcases hsign with rfl | rfl | rfl <;> decide
            exact hc (eq_of_mem_byteChars hascii hd ▸ hascii)
          have hdepth : depthAfter depth c = depth := by
            unfold depthAfter
            split_ifs with hopen hclose
            · exact absurd (beq_iff_eq.1 hopen ▸ (by decide)) hc
            · exact absurd (beq_iff_eq.1 hclose ▸ (by decide)) hc
            · rfl
          rw [hdepth, Unsplit.of_forall hplain depth (Nat.zero_le depth)]
      rw [hfront, ih, splitArguments_cons hcomma]
      cases splitArguments (depthAfter depth c) cs with
      | nil => rfl
      | cons part parts =>
        rw [List.map_cons, List.modifyHead_cons, List.modifyHead_cons, List.map_cons,
          byteChars_cons c part]

/-- A container has a bracket that opens, and ends with one that closes. -/
theorem isSome_container?_iff (cs : List Char) :
    (container? cs).isSome ↔ '[' ∈ cs ∧ cs.getLast? = some ']' := by
  rw [container?_eq, ← List.idxOf_lt_length_iff]
  split_ifs with h
  · exact iff_of_true rfl h
  · exact iff_of_false Bool.false_ne_true h

theorem container?_eq_some {cs name inner : List Char} (h : container? cs = some (name, inner)) :
    '[' ∉ name ∧ cs = name ++ '[' :: (inner ++ [']']) := by
  obtain ⟨hopen, hclose⟩ := (isSome_container?_iff cs).1 (h ▸ rfl)
  obtain ⟨front, back, rfl, hfront⟩ := List.eq_append_cons_of_mem hopen
  obtain rfl | ⟨part, last, rfl⟩ := List.eq_nil_or_concat' back
  · rw [List.getLast?_concat] at hclose
    cases hclose
  · rw [← List.cons_append, ← List.append_assoc, List.getLast?_concat] at hclose
    cases hclose
    rw [container?_brackets hfront] at h
    cases h
    exact ⟨hfront, rfl⟩

theorem getLast?_byteChars_iff {c : Char} (hc : c.val < 0x80) {cs : List Char} :
    (byteChars cs).getLast? = some c ↔ cs.getLast? = some c := by
  obtain rfl | ⟨front, d, rfl⟩ := List.eq_nil_or_concat' cs
  · exact Iff.rfl
  · rw [byteChars_append, List.getLast?_append_of_ne_nil _ (byteChars_ne_nil d),
      List.getLast?_concat]
    constructor
    · intro h
      rw [eq_of_mem_byteChars hc (List.mem_of_getLast? h)]
    · intro h
      cases h
      rw [byteChars_of_lt hc]
      rfl

theorem container?_byteChars (cs : List Char) :
    container? (byteChars cs) = (container? cs).map (Prod.map byteChars byteChars) := by
  cases h : container? cs with
  | none =>
    have hnone : ¬(container? cs).isSome := by simp [h]
    rw [isSome_container?_iff, ← mem_byteChars_iff (by decide),
      ← getLast?_byteChars_iff (by decide), ← isSome_container?_iff] at hnone
    simpa using hnone
  | some found =>
    obtain ⟨hname, hcs⟩ := container?_eq_some h
    have hbytes : byteChars cs =
        byteChars found.1 ++ '[' :: (byteChars found.2 ++ [']']) := by
      rw [hcs, byteChars_append, byteChars_cons, byteChars_append,
        byteChars_of_lt (c := '[') (by decide), byteChars_of_lt (c := ']') (by decide)]
      rfl
    rw [hbytes, container?_brackets (mt (mem_byteChars_iff (by decide)).1 hname)]
    rfl

theorem container_byByte (name : String) (elements : List String) :
    container (byByte name) (elements.map byByte) = byByte (container name elements) := by
  have hany (element : String) : byByte element = any ↔ element = any :=
    byByte_eq_iff _ rfl
  have harray : byByte "Godot.Collections.Array" = "Godot.Collections.Array" :=
    byByte_of_isAscii _ rfl
  have hdictionary : byByte "Godot.Collections.Dictionary" = "Godot.Collections.Dictionary" :=
    byByte_of_isAscii _ rfl
  unfold container
  simp only [byByte_eq_iff "Array" rfl,
    byByte_eq_iff "Dictionary" rfl]
  split_ifs
  · rcases elements with _ | ⟨element, _ | ⟨other, elements⟩⟩
    · exact harray.symm
    · simp only [List.map_cons, List.map_nil, hany]
      split_ifs
      · exact harray.symm
      · rw [byByte_append, byByte_append, byByte_of_isAscii "Godot.Collections.Array<" rfl,
          byByte_of_isAscii ">" rfl]
    · exact harray.symm
  · rcases elements with _ | ⟨key, _ | ⟨value, _ | ⟨other, elements⟩⟩⟩
    · exact hdictionary.symm
    · exact hdictionary.symm
    · simp only [List.map_cons, List.map_nil, hany]
      split_ifs
      · exact hdictionary.symm
      · rw [byByte_append, byByte_append, byByte_append, byByte_append,
          byByte_of_isAscii "Godot.Collections.Dictionary<" rfl,
          byByte_of_isAscii ", " rfl, byByte_of_isAscii ">" rfl]
    · exact hdictionary.symm
  · exact (byByte_of_isAscii _ rfl).symm

end HostType

/-- A type of the project whose names are read by bytes. -/
def ProjectType.byBytes (t : ProjectType) : ProjectType where
  name := byByte t.name
  namespaceName := t.namespaceName.map byByte

/-- A scope whose names are read by bytes. -/
def TypeScope.byBytes (scope : TypeScope) : TypeScope where
  catalog :=
    { scope.catalog with
      rootType := byByte scope.catalog.rootType
      engineTypes := scope.catalog.engineTypes.map fun t => { t with name := byByte t.name }
      projectTypes := scope.catalog.projectTypes.map ProjectType.byBytes }
  scriptClasses := scope.scriptClasses.map byByte

namespace HostType

theorem builtin_byByte (name : String) :
    builtin.lookup (byByte name) = (builtin.lookup name).map byByte := by
  have hentries : ∀ entry ∈ builtin, isAscii entry.1 = true ∧ isAscii entry.2 = true := by
    decide +kernel
  have hlookup {l : List (String × String)}
      (h : ∀ entry ∈ l, isAscii entry.1 = true ∧ isAscii entry.2 = true) :
      l.lookup (byByte name) = (l.lookup name).map byByte := by
    induction l with
    | nil => rfl
    | cons entry l ih =>
      obtain ⟨⟨hkey, hhost⟩, hl⟩ := List.forall_mem_cons.1 h
      have hbeq : (byByte name == entry.1) = (name == entry.1) := by
        rw [Bool.eq_iff_iff, beq_iff_eq, beq_iff_eq, byByte_eq_iff _ hkey]
      rw [List.lookup_cons, List.lookup_cons, hbeq, ih hl]
      split
      · rw [Option.map_some, byByte_of_isAscii _ hhost]
      · rfl
  exact hlookup hentries

theorem kind_byByte (name : String) :
    (EngineKind.ofScriptName? (byByte name)).map EngineKind.typeName =
      ((EngineKind.ofScriptName? name).map EngineKind.typeName).map byByte := by
  have hnames (k : EngineKind) : isAscii k.scriptName = true ∧ isAscii k.typeName = true := by
    cases k <;> decide
  have hkind : EngineKind.ofScriptName? (byByte name) = EngineKind.ofScriptName? name := by
    ext k
    rw [EngineKind.ofScriptName?_eq_some_iff, EngineKind.ofScriptName?_eq_some_iff, eq_comm,
      byByte_eq_iff _ (hnames k).1, eq_comm]
  rw [hkind, Option.map_map]
  exact Option.map_congr fun k _ => (byByte_of_isAscii _ (hnames k).2).symm

theorem find?_byByte {α : Type} (name : α → String) {f : α → α}
    (h : ∀ x, name (f x) = byByte (name x)) (l : List α) (n : String) :
    (l.map f).find? (name · == byByte n) = (l.find? (name · == n)).map f := by
  have hbeq : (fun x => name (f x) == byByte n) = (name · == n) := by
    funext x
    rw [h, Bool.eq_iff_iff, beq_iff_eq, beq_iff_eq, byByte_injective.eq_iff]
  rw [List.find?_map, Function.comp_def, hbeq]

theorem qualifiedName_byByte (typeName namespaceName : String) :
    qualifiedName (byByte typeName) (byByte namespaceName) =
      byByte (qualifiedName typeName namespaceName) := by
  unfold qualifiedName
  simp only [beq_iff_eq, byByte_eq_iff "" rfl]
  split_ifs
  · rfl
  · rw [byByte_append, byByte_append, byByte_append, byByte_of_isAscii "global::" rfl,
      byByte_of_isAscii "." rfl]

theorem find_byByte (scope : TypeScope) (name : String) :
    (scope.byBytes.catalog.find (byByte name)).map written =
      ((scope.catalog.find name).map written).map byByte := by
  have hproject : scope.byBytes.catalog.findProjectType (byByte name) =
      (scope.catalog.findProjectType name).map ProjectType.byBytes :=
    find?_byByte ProjectType.name (fun _ => rfl) _ name
  have hengine : scope.byBytes.catalog.findEngineType (byByte name) =
      (scope.catalog.findEngineType name).map fun t => { t with name := byByte t.name } :=
    find?_byByte EngineType.name (fun _ => rfl) _ name
  rw [Catalog.find, Catalog.find, hproject, hengine]
  cases scope.catalog.findProjectType name with
  | some t =>
    refine congrArg some ?_
    rw [written, written, ← qualifiedName_byByte]
    cases hnamespace : t.namespaceName <;> simp [ProjectType.byBytes, hnamespace]
    rfl
  | none => cases scope.catalog.findEngineType name <;> rfl

theorem ofName_byByte (scope : TypeScope) (name : String) :
    ofName scope.byBytes (byByte name) = byByte (ofName scope name) := by
  have hclasses : scope.byBytes.scriptClasses.contains (byByte name) =
      scope.scriptClasses.contains name := by
    rw [Bool.eq_iff_iff, List.contains_iff_mem, List.contains_iff_mem]
    exact List.mem_map_of_injective byByte_injective
  have hknown : known? scope.byBytes (byByte name) = (known? scope name).map byByte := by
    rw [known?, known?, builtin_byByte, kind_byByte, find_byByte, hclasses, Option.map_or,
      Option.map_or, Option.map_or]
    split_ifs <;> rfl
  rw [ofName_eq, ofName_eq, hknown]
  cases known? scope name with
  | some host => rfl
  | none => exact (byByte_of_isAscii _ rfl).symm

/-- The type for a text read by bytes is the type for the text, read by bytes. -/
theorem ofTrimmed_byteChars (scope : TypeScope) (cs : List Char) :
    ofTrimmed scope.byBytes (byteChars cs) = byByte (ofTrimmed scope cs) := by
  have htext (ds : List Char) : String.ofList (byteChars ds) = byByte (String.ofList ds) := by
    rw [byByte, String.toList_ofList]
  induction hlength : cs.length using Nat.strong_induction_on generalizing cs with
  | _ length ih =>
    subst hlength
    have hbytes := container?_byteChars cs
    cases h : container? cs with
    | none =>
      rw [h, Option.map_none] at hbytes
      have hnil : byteChars cs = [] ↔ cs = [] := byteChars_injective.eq_iff (b := [])
      rw [ofTrimmed_of_not_container _ hbytes, ofTrimmed_of_not_container _ h]
      simp only [hnil]
      split_ifs
      · exact (byByte_of_isAscii _ rfl).symm
      · rw [htext, ofName_byByte]
    | some found =>
      rw [h, Option.map_some] at hbytes
      have helements : ∀ part ∈ splitArguments 0 found.2,
          ofTrimmed scope.byBytes (trim (byteChars part)) =
            byByte (ofTrimmed scope (trim part)) := by
        intro part hpart
        rw [trim_byteChars]
        refine ih (trim part).length ?_ _ rfl
        exact Nat.lt_of_le_of_lt (length_trim_le part) (Nat.lt_of_le_of_lt
          (length_of_mem_splitArguments hpart) (length_of_container? h))
      rw [ofTrimmed_of_container _ hbytes, ofTrimmed_of_container _ h, ofContainer_eq,
        ofContainer_eq, htext, ← container_byByte, splitArguments_byteChars, List.map_map,
        List.map_map]
      exact congrArg _ (List.map_congr_left helements)

/-- What a text is mapped to. It is mapped by bounds that never leave a text, with texts nested in
it at most half as deeply as it is long; the type is a known name or a container of such types;
where every known name is one word, `Variant` is no word of another type; and a text can be read
by bytes, which need not be those of any text. -/
theorem ofText_isMapped (scope : TypeScope) (text : String) :
    (∀ nesting, text.toList.length < 2 * nesting →
      ofBounds? scope nesting text.toList = some (ofText scope text)) ∧
    IsMapped scope (ofText scope text) ∧
    ((∀ known, IsKnown scope known → isWord known = true) →
      ofText scope text ≠ any → any ∉ words (ofText scope text)) ∧
    ofText scope.byBytes (byByte text) = byByte (ofText scope text) := by
  have hmapped : IsMapped scope (ofText scope text) := isMapped_ofTrimmed scope _
  refine ⟨fun _ h => ofBounds?_eq scope h, hmapped, hmapped.any_notMem_words, ?_⟩
  rw [ofText, ofText, byByte, String.toList_ofList, trim_byteChars, ofTrimmed_byteChars]

end HostType

end ScriptBridge
