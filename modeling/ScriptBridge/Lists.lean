/-! Lists that the whole library uses: a text divided at a separator, and increasing lists
without repetition, kept by insertion. Proved: the parts joined by the separator give the
text back, and no part contains the separator. -/

namespace ScriptBridge

/-! ### Dividing at a separator -/

def splitOn (separator : Char) : List Char → List (List Char)
  | [] => [[]]
  | c :: cs =>
    if c = separator then [] :: splitOn separator cs
    else match splitOn separator cs with
      | [] => [[c]]
      | part :: parts => (c :: part) :: parts

theorem splitOn_ne_nil (separator : Char) (cs : List Char) : splitOn separator cs ≠ [] := by
  unfold splitOn
  split
  · simp
  · split
    · simp
    · split <;> simp

theorem intercalate_splitOn (separator : Char) (cs : List Char) :
    [separator].intercalate (splitOn separator cs) = cs := by
  induction cs with
  | nil => rfl
  | cons c cs ih =>
    obtain ⟨part, parts, h⟩ := List.exists_cons_of_ne_nil (splitOn_ne_nil separator cs)
    rw [h] at ih
    by_cases hc : c = separator
    · subst hc
      simp only [splitOn, if_true, h]
      rw [← ih]
      rfl
    · simp only [splitOn, if_neg hc, h]
      cases parts with
      | nil => simpa [List.intercalate] using ih
      | cons p ps =>
        rw [← ih]
        rfl

theorem not_mem_of_mem_splitOn {separator : Char} {cs part : List Char}
    (h : part ∈ splitOn separator cs) : separator ∉ part := by
  induction cs generalizing part with
  | nil => simp_all [splitOn]
  | cons c cs ih =>
    obtain ⟨first, parts, hs⟩ := List.exists_cons_of_ne_nil (splitOn_ne_nil separator cs)
    rw [hs] at ih
    by_cases hc : c = separator
    · simp only [splitOn, if_pos hc, hs, List.mem_cons] at h
      rcases h with rfl | h
      · simp
      · exact ih (List.mem_cons.2 h)
    · simp only [splitOn, if_neg hc, hs, List.mem_cons] at h
      rcases h with rfl | h
      · intro hm
        rcases List.mem_cons.1 hm with rfl | hm
        · exact hc rfl
        · exact ih List.mem_cons_self hm
      · exact ih (List.mem_cons_of_mem _ h)

theorem splitOn_append_cons (separator : Char) (front back : List Char) :
    splitOn separator (front ++ separator :: back) =
      splitOn separator front ++ splitOn separator back := by
  induction front with
  | nil => simp [splitOn]
  | cons c front ih =>
    by_cases hc : c = separator
    · simp [splitOn, hc, ih]
    · obtain ⟨part, parts, h⟩ := List.exists_cons_of_ne_nil (splitOn_ne_nil separator front)
      simp [splitOn, hc, ih, h]

theorem splitOn_eq_singleton {separator : Char} {cs : List Char} (h : separator ∉ cs) :
    splitOn separator cs = [cs] := by
  induction cs with
  | nil => rfl
  | cons c cs ih =>
    simp only [List.mem_cons, not_or] at h
    simp [splitOn, Ne.symm h.1, ih h.2]

/-! ### Increasing lists -/

section Sorted

variable {α : Type} [LT α] [DecidableLT α] [DecidableEq α]

/-- Puts an element into an increasing list, once. -/
def insertOnce (a : α) : List α → List α
  | [] => [a]
  | b :: bs =>
    if a < b then a :: b :: bs
    else if a = b then b :: bs
    else b :: insertOnce a bs

/-- The elements in increasing order, each once. -/
def sortOnce (l : List α) : List α := l.foldr insertOnce []

end Sorted

end ScriptBridge
