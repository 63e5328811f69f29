import Mathlib.Data.List.Infix
import ScriptBridge.Proofs.Text.Lines

/-! Fragments within open blocks. Fragments are nested if they close only blocks that they opened
themselves and the ends of their blocks stand on one line. Proved: below open blocks they become
the lines that they are on a fresh sheet, each line that is not empty further in, and nothing
written before is touched; the blocks they leave open are added to those around them; and closing
what is open writes one line for each block, from the innermost outwards. -/

namespace ScriptBridge

/-! ### Texts further in -/

/-- The text with the blanks for so many blocks before each line that is not empty. -/
def nested (depth : Nat) (text : String) : String :=
  "\n".intercalate ((linesWithin text).map (atDepth depth))

section Depths

variable (d k : Nat)

theorem margin_add : margin (d + k) = margin d ++ margin k := by
  rw [margin, margin, margin, ← String.ofList_append, List.replicate_append_replicate, Nat.mul_add]

theorem atDepth_add (line : String) : atDepth (d + k) line = atDepth d (atDepth k line) := by
  by_cases h : line = ""
  · subst h
    rfl
  · have hne : margin k ++ line ≠ "" := by simp [h]
    rw [atDepth, atDepth, atDepth, if_neg h, if_neg h, if_neg hne, margin_add, String.append_assoc]

end Depths

/-- The text of lines further in is that of the lines further in. -/
theorem nested_ofLines (depth : Nat) {ls : List String} (h : ∀ l ∈ ls, IsOneLine l) :
    nested depth (ofLines ls) = ofLines (ls.map (atDepth depth)) := by
  have hlines : linesWithin (ofLines ls) = ls ++ [""] := by
    rw [linesWithin, splitOn_ofLines, List.map_append, List.map_flatMap]
    exact congrArg (· ++ [""]) (flatMap_linesWithin h)
  rw [nested, hlines, List.map_append]
  generalize ls.map (atDepth depth) = ms
  induction ms with
  | nil => rfl
  | cons m ms ih =>
    rw [List.cons_append, String.intercalate_cons_of_ne_nil (by simp), ih, ofLines_cons]

namespace Fragment

/-! ### Blocks that are opened and closed -/

def isOpening : Fragment → Bool
  | openBlock _ => true
  | _ => false

def isClosing : Fragment → Bool
  | closeBlock _ => true
  | _ => false

/-- No fragment closes a block that was not opened before, where so many are open at first. -/
def ClosesOpened (depth : Nat) (fs : List Fragment) : Prop :=
  ∀ front, front <+: fs → front.countP isClosing ≤ depth + front.countP isOpening

/-- The header and the suffix of a block are not divided into lines, so they stand on one. -/
def HasOneLineEnds : Fragment → Prop
  | line _ | blank _ => True
  | openBlock text | closeBlock text => IsOneLine text

instance : DecidablePred HasOneLineEnds
  | line _ | blank _ => inferInstanceAs (Decidable True)
  | openBlock text | closeBlock text => inferInstanceAs (Decidable (IsOneLine text))

/-- Fragments that close only blocks of their own. -/
structure IsNested (fs : List Fragment) : Prop where
  closes : ∀ front, front <+: fs → front.countP isClosing ≤ front.countP isOpening
  ends : ∀ f ∈ fs, f.HasOneLineEnds

instance (fs : List Fragment) : Decidable (IsNested fs) :=
  decidable_of_iff
    ((∀ front ∈ fs.inits, front.countP isClosing ≤ front.countP isOpening) ∧
      ∀ f ∈ fs, f.HasOneLineEnds)
    ⟨fun ⟨hcloses, hends⟩ =>
        ⟨fun front hfront => hcloses front ((List.mem_inits front fs).2 hfront), hends⟩,
      fun h => ⟨fun front hfront => h.closes front ((List.mem_inits front fs).1 hfront), h.ends⟩⟩

variable {d k : Nat} {f : Fragment} {fs : List Fragment}

theorem ClosesOpened.head (h : ClosesOpened k (f :: fs)) (hf : f.isClosing = true) : 0 < k := by
  have hfront := h [f] (by simp)
  cases f with
  | closeBlock suffix =>
    have hclosing : [closeBlock suffix].countP isClosing = 1 := rfl
    have hopening : [closeBlock suffix].countP isOpening = 0 := rfl
    omega
  | _ => cases hf

/-- One fragment keeps the account of the open blocks. -/
theorem depthAfter_add_countP (h : f.isClosing = true → 0 < k) :
    f.depthAfter k + [f].countP isClosing = k + [f].countP isOpening := by
  cases f with
  | closeBlock suffix => exact Nat.sub_add_cancel (h rfl)
  | _ => rfl

theorem ClosesOpened.tail (h : ClosesOpened k (f :: fs)) : ClosesOpened (f.depthAfter k) fs := by
  intro front hfront
  have hcount := h ([f] ++ front) (List.cons_prefix_cons.2 ⟨rfl, hfront⟩)
  have hhead := depthAfter_add_countP h.head
  rw [List.countP_append, List.countP_append] at hcount
  omega

theorem depthAfter_add (h : f.isClosing = true → 0 < k) :
    f.depthAfter (d + k) = d + f.depthAfter k := by
  cases f with
  | closeBlock suffix => exact Nat.add_sub_assoc (h rfl) d
  | _ => rfl

theorem lines_add (h : f.isClosing = true → 0 < k) :
    f.lines (d + k) = (f.lines k).map (atDepth d) := by
  cases f with
  | line t => simp only [lines, List.map_map, Function.comp_def, atDepth_add]
  | blank count =>
    rw [lines, lines, List.map_replicate]
    rfl
  | openBlock header =>
    rw [lines, lines, List.map_append, List.map_singleton, ← atDepth_add]
    split_ifs
    · rfl
    · rw [List.map_singleton, ← atDepth_add]
  | closeBlock suffix =>
    rw [lines, lines, List.map_singleton, ← atDepth_add, Nat.add_sub_assoc (h rfl)]

theorem isOneLine_of_mem_lines (hf : f.HasOneLineEnds) : ∀ l ∈ f.lines k, IsOneLine l := by
  cases f with
  | line t =>
    intro l hl
    obtain ⟨part, hpart, rfl⟩ := List.mem_map.1 hl
    refine isOneLine_atDepth ?_ k
    rw [IsOneLine, String.toList_ofList]
    exact not_mem_of_mem_splitOn hpart
  | blank count =>
    intro l hl
    rw [List.eq_of_mem_replicate hl]
    decide
  | openBlock header =>
    have hbrace : IsOneLine (atDepth k "\x7b") := isOneLine_atDepth (by decide) k
    rw [lines]
    split_ifs
    · exact List.forall_mem_singleton.2 hbrace
    · exact List.forall_mem_cons.2 ⟨isOneLine_atDepth hf k,
        List.forall_mem_singleton.2 hbrace⟩
  | closeBlock suffix =>
    have hbrace : IsOneLine "\x7d" := by decide
    exact List.forall_mem_singleton.2
      (isOneLine_atDepth (isOneLine_append.2 ⟨hbrace, hf⟩) (k - 1))

/-! ### Fragments one after the other -/

theorem depthBehind_add (h : ClosesOpened k fs) :
    depthBehind (d + k) fs = d + depthBehind k fs := by
  induction fs generalizing k with
  | nil => rfl
  | cons f fs ih => rw [depthBehind_cons, depthAfter_add h.head, ih h.tail, depthBehind_cons]

theorem linesFrom_add (h : ClosesOpened k fs) :
    linesFrom (d + k) fs = (linesFrom k fs).map (atDepth d) := by
  induction fs generalizing k with
  | nil => rfl
  | cons f fs ih =>
    rw [linesFrom, lines_add h.head, depthAfter_add h.head, ih h.tail, ← List.map_append, linesFrom]

/-- As many blocks are open as were opened and not closed. -/
theorem depthBehind_add_countP (h : ClosesOpened k fs) :
    depthBehind k fs + fs.countP isClosing = k + fs.countP isOpening := by
  induction fs generalizing k with
  | nil => rfl
  | cons f fs ih =>
    have hhead := depthAfter_add_countP h.head
    have hrest := ih h.tail
    rw [← List.singleton_append, List.countP_append, List.countP_append, List.singleton_append,
      depthBehind_cons]
    omega

theorem IsNested.closesOpened (h : IsNested fs) : ClosesOpened 0 fs := fun front hfront => by
  rw [Nat.zero_add]
  exact h.closes front hfront

theorem isOneLine_of_mem_linesFrom (hfs : ∀ f ∈ fs, f.HasOneLineEnds) :
    ∀ l ∈ linesFrom k fs, IsOneLine l := by
  induction fs generalizing k with
  | nil => nofun
  | cons f fs ih =>
    obtain ⟨hf, hfs⟩ := List.forall_mem_cons.1 hfs
    exact List.forall_mem_append.2 ⟨isOneLine_of_mem_lines hf, ih hfs⟩

end Fragment

/-! ### The end of a unit -/

theorem depthBehind_closing (depth : Nat) :
    depthBehind depth (List.replicate depth (.closeBlock "")) = 0 := by
  induction depth with
  | zero => rfl
  | succ depth ih =>
    rw [List.replicate_succ, depthBehind_cons]
    exact ih

/-- One line for each open block, from the innermost outwards. -/
theorem linesFrom_closing (depth : Nat) :
    linesFrom depth (List.replicate depth (.closeBlock "")) =
      (List.range depth).reverse.map fun k => margin k ++ "\x7d" := by
  induction depth with
  | zero => rfl
  | succ depth ih =>
    rw [List.replicate_succ, linesFrom, List.range_succ, List.reverse_concat, List.map_cons, ← ih]
    rfl

namespace Sheet

open Fragment

/-- Nested fragments on a sheet. Behind what was written before stands the text that they have on
a fresh sheet, with the blanks of the open blocks before each line that is not empty, and the
blocks that they leave open there are open in addition. Then the closing writes one line for each
open block, each further out than the one before, and no block is open behind it. -/
theorem writeAll_nested (s : Sheet) {fs : List Fragment} (h : IsNested fs) :
    let fresh := writeAll {} fs
    let written := s.writeAll fs
    let closed := written.writeAll written.closing
    written.text = s.text ++ nested s.depth fresh.text ∧
    written.depth = s.depth + fresh.depth ∧
    fresh.depth + fs.countP isClosing = fs.countP isOpening ∧
    closed.text = written.text ++
      ofLines ((List.range written.depth).reverse.map fun depth => margin depth ++ "\x7d") ∧
    closed.depth = 0 := by
  intro fresh written closed
  have hfresh : fresh = { text := ofLines (linesFrom 0 fs), depth := depthBehind 0 fs } := by
    simp only [fresh, writeAll_eq, String.empty_append]
  have hwritten : written =
      { text := s.text ++ ofLines (linesFrom s.depth fs), depth := depthBehind s.depth fs } :=
    writeAll_eq fs s
  have hclosed : closed =
      { text := written.text ++ ofLines (linesFrom written.depth written.closing),
        depth := depthBehind written.depth written.closing } := writeAll_eq written.closing written
  have hlines := isOneLine_of_mem_linesFrom (k := 0) h.ends
  rw [hfresh, hclosed, Sheet.closing, linesFrom_closing, depthBehind_closing]
  refine ⟨?_, ?_, ?_, rfl, rfl⟩
  · rw [hwritten, nested_ofLines _ hlines, ← linesFrom_add h.closesOpened, Nat.add_zero]
  · rw [hwritten, ← depthBehind_add h.closesOpened, Nat.add_zero]
  · rw [depthBehind_add_countP h.closesOpened, Nat.zero_add]

/-- A class within a block, with a text on three lines and a block without a header. -/
theorem writeAll_nested_class :
    let sheet : Sheet := { text := "namespace Game\n\x7b\n", depth := 1 }
    let fs : List Fragment := [.openBlock "class A", .line "int x;\n\nint y;", .blank 1,
      .openBlock "", .closeBlock ";"]
    let written := sheet.writeAll fs
    IsNested fs ∧
    written.text = sheet.text ++
      nested 1 "class A\n\x7b\n    int x;\n\n    int y;\n\n    \x7b\n    \x7d;\n" ∧
    written.depth = 2 ∧
    (written.writeAll written.closing).text = written.text ++ "    \x7d\n\x7d\n" := by
  intro sheet fs written
  have hnested : IsNested fs := by decide +kernel
  obtain ⟨htext, hdepth, -, hclosed, -⟩ := writeAll_nested sheet hnested
  have hfresh : (writeAll {} fs).text =
      "class A\n\x7b\n    int x;\n\n    int y;\n\n    \x7b\n    \x7d;\n" := by decide +kernel
  refine ⟨hnested, hfresh ▸ htext, hdepth, hclosed.trans ?_⟩
  rw [hdepth]
  decide +kernel

end Sheet

end ScriptBridge
