import Mathlib.Data.List.TakeWhile
import ScriptBridge.Bridge.Unit
import ScriptBridge.Proofs.Text.Lines
import ScriptBridge.Proofs.Text.LiteralValues

/-! The path of the script in a bridge unit. It stands in a comment and in a constant, and in
nothing else. Proved: of the lines of a unit only those of the comment and the line of the
constant depend on the path; the constant has the path as its value; and the comment has one line
more than the path has line feeds, so that it is the second line alone exactly where the path
stands on one line. -/

namespace ScriptBridge

/-! ### Paths with line feeds -/

theorem count_around {front back : String} (hfront : IsOneLine front) (hback : IsOneLine back)
    (s : String) : (front ++ s ++ back).toList.count '\n' = s.toList.count '\n' := by
  rw [String.toList_append, String.toList_append, List.count_append, List.count_append,
    List.count_eq_zero_of_not_mem hfront, List.count_eq_zero_of_not_mem hback, Nat.zero_add,
    Nat.add_zero]

theorem count_dropWhile_of_ne {c d : Char} (h : c ≠ d) (cs : List Char) :
    (cs.dropWhile (· == c)).count d = cs.count d := by
  have hfront : (cs.takeWhile (· == c)).count d = 0 := by
    refine List.count_eq_zero_of_not_mem fun hd => h ?_
    exact (beq_iff_eq.1 (List.mem_takeWhile_imp (p := (· == c)) hd)).symm
  have hsplit := congrArg (List.count d) (List.takeWhile_append_dropWhile (p := (· == c)) (l := cs))
  rwa [List.count_append, hfront, Nat.zero_add] at hsplit

theorem count_slashed (path : String) :
    (Lineage.slashed path).toList.count '\n' = path.toList.count '\n' := by
  rw [Lineage.slashed, String.toList_ofList]
  induction path.toList with
  | nil => rfl
  | cons c cs ih =>
    rw [List.map_cons, List.count_cons, List.count_cons, ih]
    split_ifs with hc <;> simp_all

/-- The path of the resource system has the line feeds of the path. -/
theorem count_resourcePath (path : String) :
    (resourcePath path).toList.count '\n' = path.toList.count '\n' := by
  rw [resourcePath]
  split_ifs
  · rw [String.ofList_toList, count_slashed]
  · have hslash : '/' ≠ '\n' := by decide
    simp [String.toList_append, count_dropWhile_of_ne hslash, count_slashed]

/-- Two lists agree in all places but two exactly where they agree between the two and behind. -/
theorem agree_beside_iff {α : Type} {first x x' y y' : α} {front front' back : List α}
    (hlength : front.length = front'.length) :
    (∀ i, i ≠ 1 → i ≠ front.length + 2 →
        (first :: x :: (front ++ y :: back))[i]? = (first :: x' :: (front' ++ y' :: back))[i]?) ↔
      front = front' := by
  constructor
  · intro h
    apply List.ext_getElem?
    intro i
    by_cases hi : i < front.length
    · have hagree := h (i + 2) (by omega) (by omega)
      simpa only [List.getElem?_cons_succ, List.getElem?_append, if_pos hi, if_pos (hlength ▸ hi)]
        using hagree
    · rw [List.getElem?_eq_none (by omega), List.getElem?_eq_none (by omega)]
  · rintro rfl i hx hy
    match i with
    | 0 => rfl
    | 1 => exact absurd rfl hx
    | i + 2 =>
      have hi : i ≠ front.length := fun h => hy (by rw [h])
      simp only [List.getElem?_cons_succ, List.getElem?_append]
      split_ifs with hlt
      · rfl
      · obtain ⟨j, hj⟩ := Nat.exists_eq_succ_of_ne_zero (n := i - front.length) (by omega)
        rw [hj, List.getElem?_cons_succ, List.getElem?_cons_succ]

namespace BridgeUnit

/-! ### Lines of a unit -/

/-- The text of the comment that names the path. -/
def comment (path : String) : String :=
  "//     Generated by gdbridgegen from " ++ resourcePath path ++ "."

/-- The declaration of the constant that holds the path, up to its value. -/
def declaration (l : Lineage) : String :=
  "public " ++ (if l.baseIsNative then "" else "new ") ++ "const string ScriptPath = "

/-- The declaration of the constant. -/
def constant (l : Lineage) (path : String) : String :=
  declaration l ++ Literal.quoted (resourcePath path) ++ ";"

/-- What is written between the comment and the constant. -/
def between (className : String) (l : Lineage) : List Fragment :=
  (preamble "" l).drop 2 ++ (ownMembers "" className l).take 5

/-- What the declarations of the script are written as. -/
def memberCode (scope : TypeScope) (script : ScriptClass) (l : Lineage) : List Fragment :=
  let vars := forwardVariables scope { typeName := l.typeName } script.vars
  let functions := forwardFunctions scope vars.roster script.functions
  let signals := forwardSignals scope functions.roster script.signals
  vars.code ++ functions.code ++ signals.code ++
    [MemberSort.property, .method, .signal].flatMap fun sort =>
      signals.roster.containerCode sort l.baseName

/-- What is written behind the constant. -/
def behind (scope : TypeScope) (script : ScriptClass) (l : Lineage) : List Fragment :=
  (ownMembers "" script.name l).drop 6 ++ memberCode scope script l

variable (scope : TypeScope) (script : ScriptClass) (l : Lineage)

theorem fragments_eq (path : String) :
    preamble (resourcePath path) l ++ ownMembers (resourcePath path) script.name l ++
        memberCode scope script l =
      .line "// <auto-generated>" :: .line (comment path) ::
        (between script.name l ++ .line (constant l path) :: behind scope script l) := by
  have hpreamble : preamble (resourcePath path) l =
      .line "// <auto-generated>" :: .line (comment path) :: (preamble "" l).drop 2 := rfl
  have hmembers : ownMembers (resourcePath path) script.name l =
      (ownMembers "" script.name l).take 5 ++ .line (constant l path) ::
        (ownMembers "" script.name l).drop 6 := rfl
  rw [hpreamble, hmembers, between, behind]
  simp only [List.cons_append, List.append_assoc]

/-- The depth at which the constant stands. -/
def depthOfConstant : Nat := depthBehind 0 (between script.name l)

/-- The lines between the comment and the constant. -/
def linesBetween : List String := (linesFrom 0 (between script.name l)).flatMap linesWithin

/-- The lines behind the constant, with those that close the blocks. -/
def linesBehind : List String :=
  let depth := depthBehind (depthOfConstant script l) (behind scope script l)
  (linesFrom (depthOfConstant script l) (behind scope script l) ++
    linesFrom depth (List.replicate depth (.closeBlock ""))).flatMap linesWithin

/-- The line of the constant. -/
def constantLine (path : String) : String :=
  margin (depthOfConstant script l) ++ constant l path

theorem isOneLine_constant (path : String) : IsOneLine (constant l path) := by
  have hdeclaration : IsOneLine (declaration l) := by
    rw [declaration]
    cases l.baseIsNative <;> decide
  exact isOneLine_append.2 ⟨isOneLine_append.2 ⟨hdeclaration,
    Literal.lineFeed_notMem_quoted (resourcePath path)⟩, by decide⟩

theorem lines_comment (path : String) :
    (Fragment.line (comment path)).lines 0 = linesWithin (comment path) := by
  rw [Fragment.lines]
  simp only [atDepth_zero]
  rfl

theorem lines_constant (path : String) :
    (Fragment.line (constant l path)).lines (depthOfConstant script l) =
      [constantLine script l path] := by
  have hne : constant l path ≠ "" := by
    intro he
    have hfirst := congrArg (·.toList.head?) he
    simp [constant, declaration, String.toList_append] at hfirst
  rw [Fragment.lines_line (isOneLine_constant l path), atDepth, if_neg hne]
  rfl

/-- The lines of a unit. -/
theorem lines_text (path : String) :
    (ofScript scope { script with path } l).text =
        ofLines (linesOf (ofScript scope { script with path } l).text) ∧
      linesOf (ofScript scope { script with path } l).text =
        "// <auto-generated>" :: (linesWithin (comment path) ++
          linesBetween script l ++ constantLine script l path :: linesBehind scope script l) := by
  have htext : (ofScript scope { script with path } l).text =
      renderUnit (preamble (resourcePath path) l ++
        ownMembers (resourcePath path) script.name l ++ memberCode scope script l) := by
    simp only [ofScript, memberCode, List.append_assoc]
  have hfirst : ((Fragment.line "// <auto-generated>").lines 0).flatMap linesWithin =
      ["// <auto-generated>"] := by
    decide
  have hcomment : (linesWithin (comment path)).flatMap linesWithin = linesWithin (comment path) :=
    flatMap_linesWithin fun t ht => isOneLine_of_mem_linesWithin ht
  have hconstant : linesWithin (constantLine script l path) = [constantLine script l path] := by
    refine linesWithin_eq (isOneLine_append.2 ⟨?_, isOneLine_constant l path⟩)
    simp [IsOneLine, margin]
  rw [htext, fragments_eq, renderUnit_eq]
  refine ⟨by rw [linesOf_ofLines_eq, ofLines_flatMap_linesWithin], ?_⟩
  rw [linesOf_ofLines_eq]
  have hline {t : String} (d : Nat) : (Fragment.line t).depthAfter d = d := rfl
  have hdepth : depthBehind 0 (between script.name l) = depthOfConstant script l := by
    rw [depthOfConstant]
  simp only [linesFrom, hline, depthBehind_cons, linesFrom_append, depthBehind_append, hdepth,
    List.flatMap_append, hfirst, lines_comment, hcomment, lines_constant, List.flatMap_singleton,
    hconstant, linesBetween, linesBehind]
  simp only [List.append_assoc, List.cons_append, List.nil_append]

theorem length_comment (path : String) :
    (linesWithin (comment path)).length = path.toList.count '\n' + 1 := by
  have hfront : IsOneLine "//     Generated by gdbridgegen from " := by decide
  have hback : IsOneLine "." := by decide
  have hcount : (comment path).toList.count '\n' = (resourcePath path).toList.count '\n' :=
    count_around hfront hback _
  rw [length_linesWithin, hcount, count_resourcePath]

theorem linesWithin_comment {path : String} (h : IsOneLine path) :
    linesWithin (comment path) = [comment path] := by
  apply linesWithin_eq
  have hcount : (resourcePath path).toList.count '\n' = 0 := by
    rw [count_resourcePath, List.count_eq_zero_of_not_mem h]
  have hpath : IsOneLine (resourcePath path) := List.count_eq_zero.1 hcount
  exact isOneLine_append.2 ⟨isOneLine_append.2 ⟨by decide, hpath⟩, by decide⟩

/-- The lines of the comment behind the first one; they stand in the unit as code. -/
def spilled (path : String) : List String := (linesWithin (comment path)).tail

theorem length_spilled (path : String) : (spilled path).length = path.toList.count '\n' := by
  rw [spilled, List.length_tail, length_comment, Nat.add_sub_cancel]

theorem spilled_eq_nil_iff {path : String} : spilled path = [] ↔ IsOneLine path := by
  rw [← List.length_eq_zero_iff, length_spilled, List.count_eq_zero]
  rfl

theorem exists_comment_cons (path : String) :
    ∃ line, linesWithin (comment path) = line :: spilled path := by
  have hne : linesWithin (comment path) ≠ [] := by
    intro hnil
    have hlength := length_comment path
    rw [hnil] at hlength
    cases hlength
  exact ⟨_, (List.cons_head_tail hne).symm⟩

/-- Where the path of a script stands in its unit. Each unit is its lines with their line feeds:
the first one, those of the comment, others, the one of the constant, and others. The path stands
in the comment, which has one line more than the path has line feeds, and it is the value of the
constant. So the units for two paths have equally many lines exactly where the paths have equally
many line feeds, and they agree but in the second line and that of the constant exactly where the
same lines spill from their comments; none do where a path stands on one line. -/
theorem ofScript_pathLines :
    ∃ (between behind : List String) (depth : Nat),
      (∀ path, let text := (ofScript scope { script with path } l).text
        text = ofLines (linesOf text) ∧
        ∃ literal,
          linesOf text = "// <auto-generated>" :: (linesWithin (comment path) ++ between ++
            (margin depth ++ (declaration l ++ literal ++ ";")) :: behind) ∧
          Literal.value? literal = some (resourcePath path)) ∧
      (∀ path, (linesWithin (comment path)).length = path.toList.count '\n' + 1 ∧
        (IsOneLine path → linesWithin (comment path) = [comment path]) ∧
        (spilled path = [] ↔ IsOneLine path)) ∧
      ∀ path path',
        let lines := linesOf (ofScript scope { script with path } l).text
        let lines' := linesOf (ofScript scope { script with path := path' } l).text
        let place := between.length + path.toList.count '\n' + 2
        (lines.length = lines'.length ↔ path.toList.count '\n' = path'.toList.count '\n') ∧
        ((lines.length = lines'.length ∧ ∀ i, i ≠ 1 → i ≠ place → lines[i]? = lines'[i]?) ↔
          spilled path = spilled path') := by
  refine ⟨linesBetween script l, linesBehind scope script l, depthOfConstant script l, ?_,
    fun path => ⟨length_comment path, linesWithin_comment, spilled_eq_nil_iff⟩, ?_⟩
  · intro path text
    obtain ⟨htext, hlines⟩ := lines_text scope script l path
    exact ⟨htext, Literal.quoted (resourcePath path), hlines, Literal.value?_quoted _⟩
  · intro path path' lines lines' place
    have hlines : lines = _ := (lines_text scope script l path).2
    have hlines' : lines' = _ := (lines_text scope script l path').2
    have hcount : lines.length = lines'.length ↔
        path.toList.count '\n' = path'.toList.count '\n' := by
      rw [hlines, hlines']
      simp only [List.length_cons, List.length_append, length_comment]
      omega
    refine ⟨hcount, ?_⟩
    rw [hcount, ← length_spilled, ← length_spilled]
    obtain ⟨line, hcomment⟩ := exists_comment_cons path
    obtain ⟨line', hcomment'⟩ := exists_comment_cons path'
    have hplace : place = (spilled path ++ linesBetween script l).length + 2 := by
      rw [List.length_append, length_spilled, Nat.add_comm (path.toList.count '\n')]
    rw [hlines, hlines', hcomment, hcomment', hplace, List.cons_append, List.cons_append,
      List.cons_append, List.cons_append]
    constructor
    · rintro ⟨hlength, hagree⟩
      exact List.append_cancel_right ((agree_beside_iff (by simp [hlength])).1 hagree)
    · intro hspilled
      exact ⟨congrArg List.length hspilled,
        (agree_beside_iff (by rw [hspilled])).2 (by rw [hspilled])⟩

/-- A line feed in the path ends the comment, and what is behind it stands there as code. -/
theorem ofScript_brokenComment :
    let door : Lineage :=
      { index := 0, typeName := "Door", namespaceName := "", baseName := "NodeProxy",
        rootName := "Node", baseIsNative := true, status := .resolved, emitted := true }
    let lines (path : String) : List String :=
      linesOf (ofScript ⟨{}, []⟩ { name := "Door", path } door).text
    (lines "front/door.gd").length ≠ (lines "front\ndoor.gd").length ∧
      (lines "front\ndoor.gd")[1]? = some "//     Generated by gdbridgegen from res://front" ∧
      (lines "front\ndoor.gd")[2]? = some "door.gd." := by
  intro door lines
  have hlines (path : String) :
      lines path = "// <auto-generated>" :: (linesWithin (comment path) ++
        linesBetween { name := "Door" } door ++ constantLine { name := "Door" } door path ::
          linesBehind ⟨{}, []⟩ { name := "Door" } door) :=
    (lines_text ⟨{}, []⟩ { name := "Door" } door path).2
  have hcomment : linesWithin (comment "front\ndoor.gd") =
      ["//     Generated by gdbridgegen from res://front", "door.gd."] := by
    decide +kernel
  refine ⟨?_, ?_, ?_⟩
  · have hone : IsOneLine "front/door.gd" := by decide
    rw [hlines, hlines, hcomment, linesWithin_comment hone]
    simp only [List.length_cons, List.length_append]
    omega
  · rw [hlines, hcomment]
    rfl
  · rw [hlines, hcomment]
    rfl

end BridgeUnit

end ScriptBridge
