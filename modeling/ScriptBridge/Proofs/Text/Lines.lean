import Mathlib.Tactic.SplitIfs
import ScriptBridge.Text.Code

/-! Lines of a unit. A unit is a sequence of lines, each with its line feed, and a fragment at a
depth is a piece of that sequence. Proved: lines without line feeds are read back from their text,
the text of a fragment is that of its lines, and writing fragments appends their lines one after
the other, each at the depth that the fragments before it leave. -/

namespace ScriptBridge

/-! ### Texts of lines -/

/-- The text of lines, each with its line feed. -/
def ofLines (ls : List String) : String := String.join (ls.map (· ++ "\n"))

/-- The lines of a text in which each line has its line feed. -/
def linesOf (text : String) : List String := (splitOn '\n' text.toList).dropLast.map String.ofList

/-- The lines of a text whose last line has no line feed. -/
def linesWithin (text : String) : List String := (splitOn '\n' text.toList).map String.ofList

/-- A text that can stand on one line. -/
def IsOneLine (text : String) : Prop := '\n' ∉ text.toList

instance (text : String) : Decidable (IsOneLine text) :=
  inferInstanceAs (Decidable ('\n' ∉ text.toList))

section Lines

variable {ls : List String} {text : String}

@[simp] theorem ofLines_nil : ofLines [] = "" := rfl

theorem ofLines_cons (l : String) (ls : List String) :
    ofLines (l :: ls) = l ++ "\n" ++ ofLines ls := by
  rw [ofLines, List.map_cons, String.join_cons, ofLines]

theorem ofLines_append (ls ms : List String) : ofLines (ls ++ ms) = ofLines ls ++ ofLines ms := by
  rw [ofLines, List.map_append, String.join_append, ofLines, ofLines]

theorem splitOn_ofLines (ls : List String) :
    splitOn '\n' (ofLines ls).toList = (ls.flatMap fun l => splitOn '\n' l.toList) ++ [[]] := by
  induction ls with
  | nil => rfl
  | cons l ls ih =>
    have htext : (ofLines (l :: ls)).toList = l.toList ++ '\n' :: (ofLines ls).toList := by
      simp [ofLines_cons, String.toList_append]
    rw [htext, splitOn_append_cons, ih, List.flatMap_cons, List.append_assoc]

/-- A line that holds line feeds is several lines. -/
theorem linesOf_ofLines_eq (ls : List String) : linesOf (ofLines ls) = ls.flatMap linesWithin := by
  rw [linesOf, splitOn_ofLines, List.dropLast_concat, List.map_flatMap]
  rfl

/-- Every text ends where a line feed is put behind it. -/
theorem ofLines_linesWithin (text : String) : ofLines (linesWithin text) = text ++ "\n" := by
  have hchars (cs : List Char) :
      (ofLines ((splitOn '\n' cs).map String.ofList)).toList = cs ++ ['\n'] := by
    induction cs with
    | nil => rfl
    | cons c cs ih =>
      by_cases hc : c = '\n'
      · simp [splitOn, hc, ofLines_cons, String.toList_append, ih]
      · obtain ⟨part, parts, hparts⟩ := List.exists_cons_of_ne_nil (splitOn_ne_nil '\n' cs)
        rw [hparts] at ih
        simpa [splitOn, hc, hparts, ofLines_cons, String.toList_append] using ih
  apply String.toList_inj.1
  rw [linesWithin, hchars, String.toList_append]
  rfl

theorem ofLines_flatMap_linesWithin (ls : List String) :
    ofLines (ls.flatMap linesWithin) = ofLines ls := by
  induction ls with
  | nil => rfl
  | cons l ls ih => rw [List.flatMap_cons, ofLines_append, ofLines_linesWithin, ih, ofLines_cons]

theorem linesWithin_eq (h : IsOneLine text) : linesWithin text = [text] := by
  rw [linesWithin, splitOn_eq_singleton h, List.map_singleton, String.ofList_toList]

theorem flatMap_linesWithin (h : ∀ l ∈ ls, IsOneLine l) : ls.flatMap linesWithin = ls := by
  rw [List.flatMap_def, List.map_congr_left fun l hl => linesWithin_eq (h l hl),
    ← List.flatMap_def, List.flatMap_singleton']

theorem linesOf_ofLines (h : ∀ l ∈ ls, IsOneLine l) : linesOf (ofLines ls) = ls := by
  rw [linesOf_ofLines_eq, flatMap_linesWithin h]

theorem isOneLine_of_mem_linesWithin {l : String} (h : l ∈ linesWithin text) : IsOneLine l := by
  obtain ⟨part, hpart, rfl⟩ := List.mem_map.1 h
  rw [IsOneLine, String.toList_ofList]
  exact not_mem_of_mem_splitOn hpart

theorem length_splitOn (separator : Char) (cs : List Char) :
    (splitOn separator cs).length = cs.count separator + 1 := by
  induction cs with
  | nil => rfl
  | cons c cs ih =>
    obtain ⟨part, parts, hparts⟩ := List.exists_cons_of_ne_nil (splitOn_ne_nil separator cs)
    by_cases hc : c = separator
    · simp [splitOn, hc, ih]
    · rw [hparts] at ih
      simpa [splitOn, hc, hparts] using ih

/-- One line more than there are line feeds. -/
theorem length_linesWithin (text : String) :
    (linesWithin text).length = text.toList.count '\n' + 1 := by
  rw [linesWithin, List.length_map, length_splitOn]

end Lines

/-! ### Texts on one line -/

section OneLine

variable {s t : String} {l : List String}

@[simp] theorem isOneLine_append : IsOneLine (s ++ t) ↔ IsOneLine s ∧ IsOneLine t := by
  simp only [IsOneLine, String.toList_append, List.mem_append, not_or]

theorem IsOneLine.join (h : ∀ s ∈ l, IsOneLine s) : IsOneLine (String.join l) := by
  simp only [IsOneLine, String.toList_join, List.mem_flatMap, not_exists, not_and]
  exact h

theorem IsOneLine.intercalate (ht : IsOneLine t) (h : ∀ s ∈ l, IsOneLine s) :
    IsOneLine (t.intercalate l) := by
  induction l with
  | nil => simp [IsOneLine]
  | cons s l ih =>
    cases l with
    | nil => simpa [IsOneLine] using h
    | cons s' l =>
      rw [String.intercalate_cons_cons]
      have hrest := ih fun u hu => h u (List.mem_cons_of_mem _ hu)
      exact isOneLine_append.2 ⟨isOneLine_append.2 ⟨h s List.mem_cons_self, ht⟩, hrest⟩

end OneLine

/-! ### Lines of fragments -/

/-- The blanks in front of a line at a depth. -/
def margin (depth : Nat) : String := String.ofList (List.replicate (4 * depth) ' ')

/-- One line at a depth. Only an empty line has no margin. -/
def atDepth (depth : Nat) (line : String) : String := if line = "" then "" else margin depth ++ line

@[simp] theorem atDepth_zero (line : String) : atDepth 0 line = line := by
  rw [atDepth]
  split_ifs with h
  · rw [h]
  · rw [margin, Nat.mul_zero, List.replicate_zero, String.ofList_nil, String.empty_append]

theorem isOneLine_atDepth {t : String} (h : IsOneLine t) (depth : Nat) :
    IsOneLine (atDepth depth t) := by
  rw [atDepth]
  split_ifs
  · decide
  · refine isOneLine_append.2 ⟨?_, h⟩
    simp [IsOneLine, margin]

namespace Fragment

def lines (depth : Nat) : Fragment → List String
  | line t => (splitOn '\n' t.toList).map fun l => atDepth depth (String.ofList l)
  | blank count => List.replicate count ""
  | openBlock header => (if header = "" then [] else [atDepth depth header]) ++ [atDepth depth "\x7b"]
  | closeBlock suffix => [atDepth (depth - 1) ("\x7d" ++ suffix)]

theorem lines_line {depth : Nat} {t : String} (h : IsOneLine t) :
    (line t).lines depth = [atDepth depth t] := by
  rw [lines, splitOn_eq_singleton h, List.map_singleton, String.ofList_toList]

end Fragment

theorem indented_eq (depth : Nat) (line : String) :
    indented depth line = atDepth depth line ++ "\n" := by
  rw [indented, atDepth]
  by_cases h : line = ""
  · simp [h]
  · simp [h, margin]

theorem Fragment.text_eq (depth : Nat) (f : Fragment) : f.text depth = ofLines (f.lines depth) := by
  cases f with
  | line t => simp only [text, lines, ofLines, List.map_map, indented_eq, Function.comp_def]
  | blank count =>
    induction count with
    | zero => rfl
    | succ n ih =>
      rw [lines, List.replicate_succ, ofLines_cons, ← lines, ← ih]
      simp [text, List.replicate_succ]
  | openBlock header =>
    rw [text, lines, ofLines_append, indented_eq, indented_eq]
    by_cases h : header = ""
    · simp [h, ofLines_cons]
    · simp [h, ofLines_cons]
  | closeBlock suffix =>
    rw [text, lines, ofLines_cons, indented_eq]
    simp

/-- The number of open blocks behind fragments. -/
def depthBehind (depth : Nat) (fs : List Fragment) : Nat := fs.foldl Fragment.depthAfter depth

/-- The lines of fragments that are written one after the other. -/
def linesFrom (depth : Nat) : List Fragment → List String
  | [] => []
  | f :: fs => f.lines depth ++ linesFrom (f.depthAfter depth) fs

section Writing

variable (depth : Nat) (f : Fragment) (fs gs : List Fragment)

@[simp] theorem depthBehind_nil : depthBehind depth [] = depth := rfl

@[simp] theorem depthBehind_cons :
    depthBehind depth (f :: fs) = depthBehind (f.depthAfter depth) fs := rfl

theorem depthBehind_append :
    depthBehind depth (fs ++ gs) = depthBehind (depthBehind depth fs) gs := List.foldl_append

theorem linesFrom_append :
    linesFrom depth (fs ++ gs) = linesFrom depth fs ++ linesFrom (depthBehind depth fs) gs := by
  induction fs generalizing depth with
  | nil => rfl
  | cons f fs ih => rw [List.cons_append, linesFrom, linesFrom, ih, depthBehind_cons,
      List.append_assoc]

/-- Parts that leave the depth as it is leave it so one after the other. -/
theorem depthBehind_flatMap {α : Type} {g : α → List Fragment} {l : List α}
    (h : ∀ a ∈ l, depthBehind depth (g a) = depth) : depthBehind depth (l.flatMap g) = depth := by
  induction l with
  | nil => rfl
  | cons a l ih =>
    rw [List.flatMap_cons, depthBehind_append, h a List.mem_cons_self]
    exact ih fun b hb => h b (List.mem_cons_of_mem _ hb)

theorem linesFrom_flatMap {α : Type} {g : α → List Fragment} {l : List α}
    (h : ∀ a ∈ l, depthBehind depth (g a) = depth) :
    linesFrom depth (l.flatMap g) = l.flatMap fun a => linesFrom depth (g a) := by
  induction l with
  | nil => rfl
  | cons a l ih =>
    rw [List.flatMap_cons, linesFrom_append, h a List.mem_cons_self, List.flatMap_cons,
      ih fun b hb => h b (List.mem_cons_of_mem _ hb)]

/-- Writing fragments appends their lines. -/
theorem Sheet.writeAll_eq (s : Sheet) :
    s.writeAll fs =
      { text := s.text ++ ofLines (linesFrom s.depth fs), depth := depthBehind s.depth fs } := by
  induction fs generalizing s with
  | nil => simp [writeAll, linesFrom]
  | cons f fs ih =>
    rw [writeAll, List.foldl_cons, ← writeAll, ih, write, linesFrom, ofLines_append,
      Fragment.text_eq, String.append_assoc, depthBehind_cons]

end Writing

/-- The lines of a unit, with those that close its open blocks at the end. -/
theorem renderUnit_eq (fs : List Fragment) :
    renderUnit fs =
      let depth := depthBehind 0 fs
      ofLines (linesFrom 0 fs ++ linesFrom depth (List.replicate depth (.closeBlock ""))) := by
  rw [renderUnit, Sheet.writeAll_eq, Sheet.writeAll_eq, ofLines_append]
  simp [Sheet.closing]

end ScriptBridge
