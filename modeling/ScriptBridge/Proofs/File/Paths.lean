import ScriptBridge.File.Path

/-! Paths of entries. Proved: behind the path of a directory, whether it ends in a slash or not,
a relative path keeps its names and its end, so that a single name is one more component, and
nothing else changes. -/

namespace ScriptBridge

namespace Path

/-- A name that is one component of a path. -/
structure IsComponent (name : String) : Prop where
  nonempty : name ≠ ""
  single : '/' ∉ name.toList

theorem IsComponent.toList_ne_nil {name : String} (h : IsComponent name) : name.toList ≠ [] :=
  fun he => h.nonempty (String.toList_eq_nil_iff.1 he)

/-- A path without a null character is seen as it is. -/
theorem visible_eq_self {p : Path} (h : '\x00' ∉ p.text.toList) : p.visible = p := by
  have htake : (p.text.toList ++ []).takeWhile (· != '\x00') = p.text.toList ++ [] :=
    List.takeWhile_append_of_pos fun c hc => bne_iff_ne.2 fun he => h (he ▸ hc)
  rw [List.append_nil] at htake
  rw [visible, htake, String.ofList_toList]

theorem isEmpty_eq_false {p : Path} (h : p.text ≠ "") : p.isEmpty = false :=
  beq_eq_false_iff_ne.2 h

/-! ### Names -/

theorem isComponent_of_mem_names {p : Path} {name : String} (h : name ∈ p.names) :
    IsComponent name := by
  obtain ⟨part, hpart, rfl⟩ := List.mem_map.1 h
  rw [List.mem_filter, bne_iff_ne] at hpart
  refine ⟨fun he => hpart.2 (String.ofList_eq_empty_iff.1 he), ?_⟩
  rw [String.toList_ofList]
  exact not_mem_of_mem_splitOn hpart.1

/-- The names of a text are those on both sides of each of its slashes. -/
theorem names_eq_append {p q : Path} {front : List Char}
    (h : p.text.toList = front ++ '/' :: q.text.toList) :
    p.names = (Path.mk (String.ofList front)).names ++ q.names := by
  rw [names, h, splitOn_append_cons, List.filter_append, List.map_append, names, names,
    String.toList_ofList]

/-- A text ends as it ends behind one of its slashes. -/
theorem endsInSlash_eq {p q : Path} {front : List Char}
    (h : p.text.toList = front ++ '/' :: q.text.toList) (he : q.text ≠ "") :
    p.endsInSlash = q.endsInSlash := by
  have hne : q.text.toList ≠ [] := fun h => he (String.toList_eq_nil_iff.1 h)
  rw [endsInSlash, endsInSlash, h, List.getLast?_append, List.getLast?_cons_of_ne_nil hne,
    List.getLast?_eq_some_getLast hne]
  rfl

@[simp] theorem names_empty : (Path.mk "").names = [] := rfl

theorem text_ne_empty_of_names {p : Path} (h : p.names ≠ []) : p.text ≠ "" := by
  intro he
  refine h ?_
  rw [show p = ⟨""⟩ from congrArg Path.mk he, names_empty]

theorem IsComponent.names {name : String} (h : IsComponent name) :
    (Path.mk name).names = [name] := by
  simp [Path.names, splitOn_eq_singleton h.single, h.toList_ne_nil]

/-! ### Joined paths -/

section Relative

variable {p q : Path}

theorem join_of_isAbsolute (h : q.isAbsolute = true) : p.join q = q := if_pos h

variable (hp : p.text ≠ "") (hq : q.isAbsolute = false)

include hp hq

/-- A slash stands between two paths, unless the first one ends in a slash. -/
theorem join_eq : p.join q = ⟨p.text ++ (if p.endsInSlash then "" else "/") ++ q.text⟩ := by
  rw [join, hq, isEmpty_eq_false hp]
  cases p.endsInSlash <;> simp

/-- The text of a path behind another one: what stands in front of a slash, and the path. -/
theorem exists_join_of_relative :
    ∃ front, (p.join q).text.toList = front ++ '/' :: q.text.toList ∧
      (p.text.toList = front ++ ['/'] ∨ p.text.toList = front) := by
  rw [join_eq hp hq]
  cases hs : p.endsInSlash with
  | true =>
    rw [endsInSlash, beq_iff_eq] at hs
    obtain ⟨front, hfront⟩ := List.getLast?_eq_some_iff.1 hs
    exact ⟨front, by simp [String.toList_append, hfront], .inl hfront⟩
  | false => exact ⟨p.text.toList, by simp [String.toList_append], .inr rfl⟩

theorem names_join_of_relative : (p.join q).names = p.names ++ q.names := by
  obtain ⟨front, hjoin, hfront⟩ := exists_join_of_relative hp hq
  have hbefore : p.names = (Path.mk (String.ofList front)).names := by
    rcases hfront with hfront | hfront
    · have hnames := names_eq_append (q := ⟨""⟩) hfront
      rw [hnames, names_empty, List.append_nil]
    · rw [← hfront, String.ofList_toList]
  rw [names_eq_append hjoin, hbefore]

theorem isAbsolute_join_of_relative : (p.join q).isAbsolute = p.isAbsolute := by
  obtain ⟨front, hjoin, hfront⟩ := exists_join_of_relative hp hq
  rw [isAbsolute, isAbsolute, hjoin]
  rcases hfront with hfront | hfront
  · rw [hfront]
    simp [List.head?_append]
  · obtain ⟨c, cs, hc⟩ := List.exists_cons_of_ne_nil
      (fun he => hp (String.toList_eq_nil_iff.1 he) : p.text.toList ≠ [])
    rw [← hfront, hc]
    rfl

/-- A path behind another one ends as it ends by itself. -/
theorem endsInSlash_join_of_relative (he : q.text ≠ "") :
    (p.join q).endsInSlash = q.endsInSlash := by
  obtain ⟨front, hjoin, -⟩ := exists_join_of_relative hp hq
  exact endsInSlash_eq hjoin he

theorem components_join_of_relative (hnames : q.names ≠ []) :
    (p.join q).components = p.names ++ q.components := by
  have he := text_ne_empty_of_names hnames
  have hne : p.names ++ q.names ≠ [] := List.append_ne_nil_of_right_ne_nil _ hnames
  rw [components, components, endsInSlash_join_of_relative hp hq he,
    names_join_of_relative hp hq, bne_iff_ne.2 hnames, bne_iff_ne.2 hne, List.append_assoc]

end Relative

section Joined

variable {p : Path} {name : String}

theorem IsComponent.not_isAbsolute (h : IsComponent name) : (Path.mk name).isAbsolute = false := by
  rw [isAbsolute, beq_eq_false_iff_ne]
  exact fun hs => h.single (List.mem_of_head? hs)

theorem IsComponent.not_endsInSlash (h : IsComponent name) :
    (Path.mk name).endsInSlash = false := by
  rw [endsInSlash, beq_eq_false_iff_ne]
  exact fun hs => h.single (List.mem_of_getLast? hs)

variable (hp : p.text ≠ "") (hn : IsComponent name)

include hp hn

/-- The text of the path of an entry: what stands in front of the last slash, and the name. -/
theorem exists_join :
    ∃ front, (p.join ⟨name⟩).text.toList = front ++ '/' :: name.toList ∧
      (p.text.toList = front ++ ['/'] ∨ p.text.toList = front) :=
  exists_join_of_relative hp hn.not_isAbsolute

theorem text_join_ne_empty : (p.join ⟨name⟩).text ≠ "" := by
  obtain ⟨front, hjoin, -⟩ := exists_join hp hn
  intro he
  rw [he] at hjoin
  simp at hjoin

theorem names_join : (p.join ⟨name⟩).names = p.names ++ [name] := by
  rw [names_join_of_relative hp hn.not_isAbsolute, hn.names]

theorem components_join : (p.join ⟨name⟩).components = p.names ++ [name] := by
  rw [components, endsInSlash_join_of_relative hp hn.not_isAbsolute hn.nonempty,
    hn.not_endsInSlash, names_join hp hn]
  simp

theorem fileName_join : (p.join ⟨name⟩).fileName = name := by
  rw [fileName, components_join hp hn]
  simp

theorem isAbsolute_join : (p.join ⟨name⟩).isAbsolute = p.isAbsolute :=
  isAbsolute_join_of_relative hp hn.not_isAbsolute

theorem visible_join (hnull : '\x00' ∉ p.text.toList) (hnull' : '\x00' ∉ name.toList) :
    (p.join ⟨name⟩).visible = p.join ⟨name⟩ := by
  obtain ⟨front, hjoin, hfront⟩ := exists_join hp hn
  refine visible_eq_self ?_
  rw [hjoin, List.mem_append, List.mem_cons]
  rintro (h | h | h)
  · exact hnull (by rcases hfront with hf | hf <;> simp [hf, h])
  · exact absurd h (by decide)
  · exact hnull' h

end Joined

end Path

end ScriptBridge
