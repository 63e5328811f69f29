import Mathlib
import ScriptBridge.Engine.Member

/-! Signatures that can be read back. A signature is one flat text, in which the types of the
parameters stand between commas; but commas also stand within types, and modifiers before them.
Proved: a text with balanced brackets is never cut short by a comma outside brackets, so that a
list of such texts is settled by the texts joined with commas; and of members whose names and
types are written as in code, those with one signature are declared alike, position by position,
and no others. -/

namespace ScriptBridge

/-! ### Texts with brackets -/

/-- The pairs of brackets in types. -/
def typeBrackets : List (Char × Char) := [('<', '>'), ('(', ')'), ('[', ']')]

/-- The brackets of each pair are balanced, and a comma stands only where a bracket is open. Pairs
of different kinds need not be nested in each other. -/
structure IsBracketed (cs : List Char) : Prop where
  opened : ∀ b ∈ typeBrackets, ∀ front, front <+: cs → front.count b.2 ≤ front.count b.1
  closed : ∀ b ∈ typeBrackets, cs.count b.2 = cs.count b.1
  commas : ∀ front, front ++ [','] <+: cs → ∃ b ∈ typeBrackets, front.count b.2 < front.count b.1

instance (cs : List Char) : Decidable (IsBracketed cs) :=
  decidable_of_iff
    ((∀ b ∈ typeBrackets, ∀ front ∈ cs.inits, front.count b.2 ≤ front.count b.1) ∧
      (∀ b ∈ typeBrackets, cs.count b.2 = cs.count b.1) ∧
      ∀ front ∈ cs.inits, front ++ [','] <+: cs →
        ∃ b ∈ typeBrackets, front.count b.2 < front.count b.1)
    ⟨fun ⟨hopened, hclosed, hcommas⟩ =>
        ⟨fun b hb front hfront => hopened b hb front ((List.mem_inits front cs).2 hfront), hclosed,
          fun front hfront => hcommas front
            ((List.mem_inits front cs).2 ((List.prefix_append front [',']).trans hfront)) hfront⟩,
      fun h => ⟨fun b hb front hfront => h.opened b hb front ((List.mem_inits front cs).1 hfront),
        h.closed, fun front _ => h.commas front⟩⟩

section Divided

variable {α : Type} {ps qs xs ys : List α}

/-- What stands at the front of two lists ends within the first one or behind it. -/
theorem exists_of_prefix_append {front : List α} (h : front <+: xs ++ ys) :
    front <+: xs ∨ ∃ rest, rest <+: ys ∧ front = xs ++ rest := by
  obtain ⟨back, hback⟩ := h
  rcases List.append_eq_append_iff.1 hback with ⟨rest, hxs, -⟩ | ⟨rest, hfront, hys⟩
  · exact .inl ⟨rest, hxs.symm⟩
  · exact .inr ⟨rest, ⟨back, hys.symm⟩, hfront⟩

/-- A list is divided at one place only if neither front goes on into the other one. -/
theorem append_inj_of_head (hxs : ∀ a ∈ xs.head?, ¬ps ++ [a] <+: qs)
    (hys : ∀ a ∈ ys.head?, ¬qs ++ [a] <+: ps) (h : ps ++ xs = qs ++ ys) : ps = qs ∧ xs = ys := by
  rcases List.append_eq_append_iff.1 h with ⟨rest, rfl, rfl⟩ | ⟨rest, rfl, rfl⟩
  · cases rest with
    | nil => exact ⟨(List.append_nil ps).symm, rfl⟩
    | cons a rest => exact absurd ⟨rest, by simp⟩ (hxs a rfl)
  · cases rest with
    | nil => exact ⟨List.append_nil qs, rfl⟩
    | cons a rest => exact absurd ⟨rest, by simp⟩ (hys a rfl)

/-- A list is divided before the first element of a kind. -/
theorem append_inj_of_notMem (hxs : ∀ a ∈ xs.head?, a ∉ qs) (hys : ∀ a ∈ ys.head?, a ∉ ps)
    (h : ps ++ xs = qs ++ ys) : ps = qs ∧ xs = ys :=
  append_inj_of_head (fun a ha hfront => hxs a ha (hfront.subset (by simp)))
    (fun a ha hfront => hys a ha (hfront.subset (by simp))) h

end Divided

namespace IsBracketed

variable {cs ds xs ys : List Char}

theorem append (h : IsBracketed cs) (k : IsBracketed ds) : IsBracketed (cs ++ ds) where
  opened b hb front hfront := by
    rcases exists_of_prefix_append hfront with hfront | ⟨rest, hrest, rfl⟩
    · exact h.opened b hb front hfront
    · rw [List.count_append, List.count_append, h.closed b hb]
      exact Nat.add_le_add_left (k.opened b hb rest hrest) _
  closed b hb := by rw [List.count_append, List.count_append, h.closed b hb, k.closed b hb]
  commas front hfront := by
    rcases exists_of_prefix_append hfront with hfront | ⟨rest, hrest, heq⟩
    · exact h.commas front hfront
    · rcases List.eq_nil_or_concat' rest with rfl | ⟨rest, c, rfl⟩
      · exact h.commas front ⟨[], by rw [heq, List.append_nil, List.append_nil]⟩
      · rw [← List.append_assoc] at heq
        obtain ⟨rfl, hcomma⟩ := List.append_inj' heq rfl
        obtain ⟨b, hb, hlt⟩ := k.commas rest (hcomma ▸ hrest)
        refine ⟨b, hb, ?_⟩
        rw [List.count_append, List.count_append, h.closed b hb]
        exact Nat.add_lt_add_left hlt _

/-- No bracket is open behind the whole text, so that it is no front of another up to a comma. -/
theorem not_before_comma (h : IsBracketed cs) (k : IsBracketed ds) : ¬cs ++ [','] <+: ds := by
  intro hcomma
  obtain ⟨b, hb, hlt⟩ := k.commas cs hcomma
  exact Nat.ne_of_lt hlt (h.closed b hb)

theorem append_inj (h : IsBracketed cs) (k : IsBracketed ds) (hxs : ∀ c ∈ xs.head?, c = ',')
    (hys : ∀ c ∈ ys.head?, c = ',') (heq : cs ++ xs = ds ++ ys) : cs = ds ∧ xs = ys :=
  append_inj_of_head (fun c hc => hxs c hc ▸ h.not_before_comma k)
    (fun c hc => hys c hc ▸ k.not_before_comma h) heq

end IsBracketed

/-! ### Texts joined with commas -/

section Joined

variable {l m : List (List Char)}

theorem intercalate_comma_cons (cs : List Char) (l : List (List Char)) :
    [','].intercalate (cs :: l) = cs ++ l.flatMap (',' :: ·) := by
  induction l generalizing cs with
  | nil => simp
  | cons ds l ih =>
    rw [List.intercalate_cons_cons, ih, List.flatMap_cons, List.append_assoc, List.singleton_append,
      List.cons_append]

/-- Only no texts at all are joined to nothing, where no text is empty. -/
theorem eq_nil_of_intercalate (hl : ∀ cs ∈ l, cs ≠ []) (h : [','].intercalate l = []) : l = [] := by
  cases l with
  | nil => rfl
  | cons cs l =>
    rw [intercalate_comma_cons] at h
    exact absurd (List.append_eq_nil_iff.1 h).1 (hl cs List.mem_cons_self)

theorem head?_flatMap_comma (l : List (List Char)) :
    ∀ c ∈ (l.flatMap (',' :: ·)).head?, c = ',' := by
  cases l with
  | nil => simp
  | cons cs l => simp

theorem flatMap_comma_injective (hl : ∀ cs ∈ l, IsBracketed cs) (hm : ∀ cs ∈ m, IsBracketed cs)
    (h : l.flatMap (',' :: ·) = m.flatMap (',' :: ·)) : l = m := by
  induction l generalizing m with
  | nil =>
    cases m with
    | nil => rfl
    | cons ds m => simp at h
  | cons cs l ih =>
    cases m with
    | nil => simp at h
    | cons ds m =>
      obtain ⟨hcs, hl⟩ := List.forall_mem_cons.1 hl
      obtain ⟨hds, hm⟩ := List.forall_mem_cons.1 hm
      rw [List.flatMap_cons, List.flatMap_cons, List.cons_append, List.cons_append,
        List.cons.injEq] at h
      obtain ⟨hfirst, hrest⟩ :=
        hcs.append_inj hds (head?_flatMap_comma l) (head?_flatMap_comma m) h.2
      rw [hfirst, ih hl hm hrest]

/-- Texts with balanced brackets are settled by the texts joined with commas. -/
theorem intercalate_comma_injective (hl : ∀ cs ∈ l, IsBracketed cs ∧ cs ≠ [])
    (hm : ∀ cs ∈ m, IsBracketed cs ∧ cs ≠ []) (h : [','].intercalate l = [','].intercalate m) :
    l = m := by
  cases l with
  | nil => exact (eq_nil_of_intercalate (fun cs hcs => (hm cs hcs).2) h.symm).symm
  | cons cs l =>
    cases m with
    | nil => exact eq_nil_of_intercalate (fun cs hcs => (hl cs hcs).2) h
    | cons ds m =>
      refine flatMap_comma_injective (fun p hp => (hl p hp).1) (fun p hp => (hm p hp).1) ?_
      rw [List.flatMap_cons, List.flatMap_cons, List.cons_append, List.cons_append,
        ← intercalate_comma_cons, ← intercalate_comma_cons, h]

end Joined

/-! ### Parameters -/

/-- The words before the type of a parameter that tell how it is passed. -/
def passingWords : List String := ["ref", "out", "in"]

/-- A type as a parameter has it. It does not begin like a parameter that is passed in another
way. -/
structure IsParameterType (type : String) : Prop where
  nonempty : type ≠ ""
  bracketed : IsBracketed type.toList
  unmarked : ∀ word ∈ passingWords, ¬word.toList ++ [' '] <+: type.toList

instance (type : String) : Decidable (IsParameterType type) :=
  decidable_of_iff
    (type ≠ "" ∧ IsBracketed type.toList ∧
      ∀ word ∈ passingWords, ¬word.toList ++ [' '] <+: type.toList)
    ⟨fun ⟨hnonempty, hbracketed, hunmarked⟩ => ⟨hnonempty, hbracketed, hunmarked⟩,
      fun h => ⟨h.nonempty, h.bracketed, h.unmarked⟩⟩

namespace MemberParameter

/-- How the parameter is passed; `params` makes no difference. -/
def passing (p : MemberParameter) : String := if p.modifier = "params" then "" else p.modifier

/-- Parameters of one type that are passed in one way. -/
def IsLike (p q : MemberParameter) : Prop := p.type = q.type ∧ p.passing = q.passing

/-- A parameter with a type and one of the known modifiers. -/
structure IsLegible (p : MemberParameter) : Prop where
  type : IsParameterType p.type
  modifier : p.modifier ∈ "" :: "params" :: passingWords

instance (p : MemberParameter) : Decidable p.IsLegible :=
  decidable_of_iff (IsParameterType p.type ∧ p.modifier ∈ "" :: "params" :: passingWords)
    ⟨fun ⟨htype, hmodifier⟩ => ⟨htype, hmodifier⟩, fun h => ⟨h.type, h.modifier⟩⟩

/-- What stands before the type in a signature. -/
def mark (word : String) : List Char := if word = "" then [] else word.toList ++ [' ']

theorem isBracketed_mark : ∀ word ∈ "" :: passingWords, IsBracketed (mark word) := by decide

/-- No two marks begin alike. -/
theorem eq_of_mark_front :
    ∀ v ∈ passingWords, ∀ w ∈ passingWords, mark v <+: mark w → v = w := by decide

theorem toList_signaturePart (p : MemberParameter) :
    (Member.signaturePart p).toList = mark p.passing ++ p.type.toList := by
  rw [Member.signaturePart, passing]
  by_cases hparams : p.modifier = "params"
  · simp [hparams, mark]
  · by_cases hnone : p.modifier = ""
    · simp [hnone, mark]
    · simp [hparams, hnone, mark]

variable {p q : MemberParameter}

theorem IsLegible.passing_mem (h : p.IsLegible) : p.passing ∈ "" :: passingWords := by
  have hmodifier := h.modifier
  rw [passing]
  split_ifs with hparams
  · exact List.mem_cons_self
  · simpa [hparams] using hmodifier

theorem IsLegible.isBracketed (h : p.IsLegible) :
    IsBracketed (Member.signaturePart p).toList ∧ (Member.signaturePart p).toList ≠ [] := by
  rw [toList_signaturePart]
  refine ⟨(isBracketed_mark _ h.passing_mem).append h.type.bracketed, fun hnil => ?_⟩
  exact h.type.nonempty (String.toList_eq_nil_iff.1 (List.append_eq_nil_iff.1 hnil).2)

/-- A type is not taken for a mark and a type. -/
theorem IsLegible.passing_eq_empty (h : p.IsLegible) {word : String} {cs : List Char}
    (hword : word ∈ "" :: passingWords) (heq : p.type.toList = mark word ++ cs) : word = "" := by
  by_contra hne
  have hmem : word ∈ passingWords := (List.mem_cons.1 hword).resolve_left hne
  refine h.type.unmarked word hmem ⟨cs, ?_⟩
  rw [heq, mark, if_neg hne]

/-- The text of a parameter tells its type and how it is passed. -/
theorem IsLegible.signaturePart_eq_iff (h : p.IsLegible) (k : q.IsLegible) :
    Member.signaturePart p = Member.signaturePart q ↔ p.IsLike q := by
  rw [← String.toList_inj, toList_signaturePart, toList_signaturePart]
  constructor
  · intro heq
    have hpassing : p.passing = q.passing := by
      rcases List.mem_cons.1 h.passing_mem with hp | hp
      · rw [hp] at heq ⊢
        exact (h.passing_eq_empty k.passing_mem heq).symm
      · rcases List.mem_cons.1 k.passing_mem with hq | hq
        · rw [hq] at heq ⊢
          exact k.passing_eq_empty h.passing_mem heq.symm
        · -- both marks stand at the front of one text, so that one begins like the other
          have hfront : mark p.passing <+: mark q.passing ++ q.type.toList := ⟨_, heq⟩
          rcases List.prefix_or_prefix_of_prefix hfront (List.prefix_append _ _) with hle | hle
          · exact eq_of_mark_front _ hp _ hq hle
          · exact (eq_of_mark_front _ hq _ hp hle).symm
    rw [hpassing] at heq
    exact ⟨String.toList_inj.1 (List.append_cancel_left heq), hpassing⟩
  · rintro ⟨htype, hpassing⟩
    rw [htype, hpassing]

/-- Lists of parameters have one text exactly where their parameters are alike in turn. -/
theorem map_signaturePart_eq_iff {ps qs : List MemberParameter} (hps : ∀ p ∈ ps, p.IsLegible)
    (hqs : ∀ q ∈ qs, q.IsLegible) :
    ps.map Member.signaturePart = qs.map Member.signaturePart ↔ List.Forall₂ IsLike ps qs := by
  induction ps generalizing qs with
  | nil => cases qs <;> simp
  | cons p ps ih =>
    cases qs with
    | nil => simp
    | cons q qs =>
      obtain ⟨hp, hps⟩ := List.forall_mem_cons.1 hps
      obtain ⟨hq, hqs⟩ := List.forall_mem_cons.1 hqs
      rw [List.map_cons, List.map_cons, List.cons.injEq, List.forall₂_cons, ih hps hqs,
        hp.signaturePart_eq_iff hq]

end MemberParameter

/-! ### Members -/

namespace Member

def typeParameters (m : Member) : List TypeParameter :=
  match m.shape with
  | .method typeParameters _ => typeParameters
  | _ => []

def parameters (m : Member) : List MemberParameter :=
  match m.shape with
  | .method _ parameters => parameters
  | _ => []

/-- A member with a name and parameters as in code. The name holds neither a parenthesis nor the
backquote before the number of type parameters. -/
structure IsLegible (m : Member) : Prop where
  name : '(' ∉ m.name.toList ∧ '\x60' ∉ m.name.toList
  parameters : ∀ p ∈ m.parameters, p.IsLegible

instance (m : Member) : Decidable m.IsLegible :=
  decidable_of_iff
    (('(' ∉ m.name.toList ∧ '\x60' ∉ m.name.toList) ∧ ∀ p ∈ m.parameters, p.IsLegible)
    ⟨fun ⟨hname, hparameters⟩ => ⟨hname, hparameters⟩, fun h => ⟨h.name, h.parameters⟩⟩

/-- Members of one kind and one name; methods also agree in the number of their type parameters
and, one by one, in their parameters. -/
structure IsLike (m n : Member) : Prop where
  kind : m.kind = n.kind
  name : m.name = n.name
  typeParameters : m.kind = .method → m.typeParameters.length = n.typeParameters.length
  parameters : m.kind = .method → List.Forall₂ MemberParameter.IsLike m.parameters n.parameters

/-- The number of type parameters within a signature. -/
def arityText (count : Nat) : List Char := if count = 0 then [] else '\x60' :: count.repr.toList

/-- What stands behind the name in the signature of a method. -/
def callText (m : Member) : List Char :=
  if m.kind = .method then
    arityText m.typeParameters.length ++
      '(' :: ([','].intercalate ((m.parameters.map signaturePart).map String.toList) ++ [')'])
  else []

theorem toList_signature (m : Member) :
    m.signature.toList = m.kind.name.toList ++ ' ' :: (m.name.toList ++ m.callText) := by
  obtain ⟨name, shape⟩ := m
  cases shape with
  | property getter setter => simp [signature, kind, MemberKind.name, callText]
  | event adder remover => simp [signature, kind, MemberKind.name, callText]
  | method ts ps =>
    have harity : (if ts.isEmpty then "" else "`" ++ toString ts.length).toList =
        arityText ts.length := by
      cases ts with
      | nil => rfl
      | cons t ts => simp [arityText]
    simp only [signature, String.toList_append, harity, String.toList_intercalate]
    simp [kind, MemberKind.name, callText, typeParameters, parameters]

theorem arityText_injective : Function.Injective arityText := by
  intro a b h
  rw [arityText, arityText] at h
  split_ifs at h with ha hb hb
  · rw [ha, hb]
  · exact Nat.repr_inj.1 (String.toList_inj.1 (List.cons.inj h).2)

theorem notMem_arityText (count : Nat) : '(' ∉ arityText count := by
  rw [arityText]
  split_ifs
  · exact List.not_mem_nil
  · rw [List.mem_cons, Nat.toList_repr, not_or]
    refine ⟨by decide, fun hmem => ?_⟩
    exact absurd (Nat.isDigit_of_mem_toDigits (by decide) (by decide) hmem) (by decide)

theorem head?_callText (m : Member) : ∀ c ∈ m.callText.head?, c = '(' ∨ c = '\x60' := by
  rw [callText, arityText]
  split_ifs <;> simp

/-- The parameters of a legible member are told by the texts between the commas. -/
theorem IsLegible.parameters_eq_iff {m n : Member} (hm : m.IsLegible) (hn : n.IsLegible) :
    [','].intercalate ((m.parameters.map signaturePart).map String.toList) =
        [','].intercalate ((n.parameters.map signaturePart).map String.toList) ↔
      List.Forall₂ MemberParameter.IsLike m.parameters n.parameters := by
  rw [← MemberParameter.map_signaturePart_eq_iff hm.parameters hn.parameters]
  have hparts {m : Member} (hm : m.IsLegible) :
      ∀ cs ∈ (m.parameters.map signaturePart).map String.toList, IsBracketed cs ∧ cs ≠ [] := by
    intro cs hcs
    rw [List.map_map] at hcs
    obtain ⟨p, hp, rfl⟩ := List.mem_map.1 hcs
    exact (hm.parameters p hp).isBracketed
  refine ⟨fun h => ?_, fun h => by rw [h]⟩
  exact List.map_injective_iff.2 (fun _ _ => String.toList_inj.1)
    (intercalate_comma_injective (hparts hm) (hparts hn) h)

/-- What stands behind the name tells the type parameters and the parameters of methods. -/
theorem IsLegible.callText_eq_iff {m n : Member} (hm : m.IsLegible) (hn : n.IsLegible)
    (hkind : m.kind = n.kind) :
    m.callText = n.callText ↔
      (m.kind = .method → m.typeParameters.length = n.typeParameters.length ∧
        List.Forall₂ MemberParameter.IsLike m.parameters n.parameters) := by
  rw [callText, callText, ← hkind]
  split_ifs with hmethod
  · rw [← hm.parameters_eq_iff hn]
    constructor
    · intro h _
      obtain ⟨harity, hrest⟩ := append_inj_of_notMem (by simpa using notMem_arityText _)
        (by simpa using notMem_arityText _) h
      exact ⟨arityText_injective harity, List.append_cancel_right (List.cons.inj hrest).2⟩
    · intro h
      rw [(h hmethod).1, (h hmethod).2]
  · simp [hmethod]

/-- Legible members have one signature exactly where they are declared alike: they are of one kind
and one name and, if they are methods, have equally many type parameters and equally many
parameters, which agree one by one in their types and in how they are passed. -/
theorem signature_eq_iff {m n : Member} (hm : m.IsLegible) (hn : n.IsLegible) :
    m.signature = n.signature ↔ m.IsLike n := by
  rw [← String.toList_inj, toList_signature, toList_signature]
  constructor
  · intro h
    have hblank (k : MemberKind) : ' ' ∉ k.name.toList := by cases k <;> decide
    obtain ⟨hkinds, hrest⟩ := append_inj_of_notMem (by simpa using hblank n.kind)
      (by simpa using hblank m.kind) h
    have hkind : m.kind = n.kind := by
      revert hkinds
      cases m.kind <;> cases n.kind <;> decide
    have hstop {m n : Member} (hn : n.IsLegible) : ∀ c ∈ m.callText.head?, c ∉ n.name.toList := by
      intro c hc
      rcases head?_callText m c hc with rfl | rfl
      · exact hn.name.1
      · exact hn.name.2
    obtain ⟨hname, hcall⟩ := append_inj_of_notMem (hstop hn) (hstop hm) (List.cons.inj hrest).2
    have hmethod := (hm.callText_eq_iff hn hkind).1 hcall
    exact ⟨hkind, String.toList_inj.1 hname, fun h => (hmethod h).1, fun h => (hmethod h).2⟩
  · intro h
    have hcall := (hm.callText_eq_iff hn h.kind).2 fun hmethod =>
      ⟨h.typeParameters hmethod, h.parameters hmethod⟩
    rw [h.kind, h.name, hcall]

/-- Overloads with commas within types. A list of further keys is one parameter like any other; a
map that is only returned is not one that is passed by reference. -/
theorem signature_eq_iff_merge :
    let pairs : MemberParameter := { name := "pairs", type := "Map<Key,(int,Value[,])>" }
    let keys : MemberParameter := { name := "keys", type := "Key[]" }
    let merge (ps : List MemberParameter) : Member :=
      { name := "Merge", shape := .method [{ name := "T" }] ps, type := "void" }
    let byReference := merge [{ pairs with modifier := "ref" }, keys]
    let withFurther := merge [{ pairs with modifier := "ref" }, { keys with modifier := "params" }]
    let returning := merge [{ pairs with modifier := "out" }, keys]
    byReference.IsLegible ∧ withFurther.IsLegible ∧ returning.IsLegible ∧
      byReference.signature = withFurther.signature ∧
      byReference.signature ≠ returning.signature := by
  intro pairs keys merge byReference withFurther returning
  have hreference : byReference.IsLegible := by decide +kernel
  have hfurther : withFurther.IsLegible := by decide +kernel
  have hreturning : returning.IsLegible := by decide +kernel
  refine ⟨hreference, hfurther, hreturning, (signature_eq_iff hreference hfurther).2 ?_,
    mt (signature_eq_iff hreference hreturning).1 ?_⟩
  · exact ⟨rfl, rfl, fun _ => rfl, fun _ => .cons ⟨rfl, rfl⟩ (.cons ⟨rfl, rfl⟩ .nil)⟩
  · intro hlike
    have hpairs := (List.forall₂_cons.1 (hlike.parameters rfl)).1.2
    exact absurd hpairs (by decide)

end Member

end ScriptBridge
