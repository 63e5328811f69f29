import Mathlib
import ScriptBridge.Proofs.Script.CutCases
import ScriptBridge.Proofs.Script.Joining
import ScriptBridge.Proofs.Script.LineByLine

/-! Indented lines declare nothing. The first token of an indented line is an indent, and a
statement that begins with one is skipped to its line end. Proved: whole indented lines
between others change neither the class of a script nor its faults, whatever stands in
them. -/

namespace ScriptBridge

open Tokens

variable {ts : List Token} {t : Token} {c : Char} {cs : List Char} {indented inside : Bool}

/-! ### Tokens of lines -/

/-- A kind of token that stands inside a line. -/
def TokenKind.Inner (kind : TokenKind) : Prop := kind ≠ .newline ∧ kind ≠ .endOfFile

/-- Tokens of whole lines, from inside a line or from the start of one. If the lines are
indented, each opens with an indent. -/
inductive Lines (indented : Bool) : (inside : Bool) → List Token → Prop where
  | done : Lines indented false []
  | enter {ts : List Token} (hi : indented = false) (h : Lines indented true ts) :
      Lines indented false ts
  | indent {t : Token} {ts : List Token} (hk : t.kind = .indent) (h : Lines indented true ts) :
      Lines indented false (t :: ts)
  | within {t : Token} {ts : List Token} (hk : t.kind.Inner) (h : Lines indented true ts) :
      Lines indented true (t :: ts)
  | lineEnd {t : Token} {ts : List Token} (hk : t.kind = .newline) (ht : t.text = "")
      (h : Lines indented false ts) : Lines indented true (t :: ts)

theorem WholeLines.nil : WholeLines [] := ⟨by simp, by simp, by simp⟩

theorem WholeLines.cons (h : WholeLines ts) (he : t.kind ≠ .endOfFile)
    (hn : t.kind = .newline → t.text = "") (hl : ts = [] → t.kind = .newline) :
    WholeLines (t :: ts) where
  noEnd := List.forall_mem_cons.2 ⟨he, h.noEnd⟩
  emptyEnds := List.forall_mem_cons.2 ⟨hn, h.emptyEnds⟩
  closed := by
    cases ts with
    | nil => simpa using hl rfl
    | cons u us => exact h.closed

namespace Lines

theorem ne_nil (h : Lines indented true ts) : ts ≠ [] := by cases h <;> simp

theorem wholeLines (h : Lines indented inside ts) : WholeLines ts := by
  induction h with
  | done => exact .nil
  | enter _ _ ih => exact ih
  | indent hk h ih => exact ih.cons (by simp [hk]) (by simp [hk]) fun hn => absurd hn h.ne_nil
  | within hk h ih => exact ih.cons hk.2 (fun hn => absurd hn hk.1) fun hn => absurd hn h.ne_nil
  | lineEnd hk ht _ ih => exact ih.cons (by simp [hk]) (fun _ => ht) fun _ => hk

end Lines

/-- Indented lines are skipped, from the start of a line or from inside one. -/
theorem Draft.read_lines (h : Lines true inside ts) (d : Draft) (more : List Token) :
    d.read (if inside then skipLine (ts ++ more) else ts ++ more) = d.read more := by
  induction h with
  | done => rfl
  | enter hi => cases hi
  | @indent t ts hk _ ih =>
    simp only [Bool.false_eq_true, if_false, List.cons_append]
    rw [Draft.read, if_neg (by simp [hk]), Statement.read_indent hk]
    exact ih
  | within hk _ ih =>
    rw [if_pos rfl, List.cons_append, skipLine, if_neg hk.2, if_neg hk.1]
    exact ih
  | lineEnd hk _ _ ih =>
    rw [if_pos rfl, List.cons_append, skipLine, if_neg (by simp [hk]), if_pos hk]
    exact ih

/-! ### Pieces of lines -/

namespace Piece

/-- The tokens of pieces, without their places. -/
def tokens (ps : List Piece) : List Token := (ps.filterMap view).filterMap Sum.getLeft?

theorem tokens_append (ps qs : List Piece) : tokens (ps ++ qs) = tokens ps ++ tokens qs := by
  rw [tokens, List.filterMap_append, List.filterMap_append]
  rfl

/-- A piece that stands inside a line. -/
def Inner : Piece → Prop
  | lineEnd => False
  | token kind _ _ _ => kind.Inner
  | _ => True

end Piece

theorem Lines.append_tokens {ps : List Piece} (hp : ∀ p ∈ ps, p.Inner)
    (h : Lines indented true ts) : Lines indented true (Piece.tokens ps ++ ts) := by
  induction ps with
  | nil => exact h
  | cons p ps ih =>
    obtain ⟨hp, hps⟩ := List.forall_mem_cons.1 hp
    cases p with
    | lineEnd => cases hp
    | token kind a s b => exact .within hp (ih hps)
    | gap | broken => exact ih hps

theorem TokenKind.IsPlain.inner {kind : TokenKind} (h : kind.IsPlain) : kind.Inner := by
  cases kind with
  | newline | endOfFile => cases h
  | _ => exact ⟨nofun, nofun⟩

theorem Piece.Part.inner {p : Piece} (h : p.Part) : p.Inner := by
  cases h with
  | gap | broken => trivial
  | plain h => exact h.inner
  | tag | text => exact ⟨nofun, nofun⟩

/-- A cut inside a line ends the line or takes what stands in it. -/
theorem Cut.Yields.inner {depth : Nat} {ps : List Piece} {stand : Stand}
    (h : Yields depth ps stand) :
    (ps = [.lineEnd] ∧ stand = .lineStart) ∨
      (∃ d, stand = .inLine d) ∧ ∀ p ∈ ps, p.Inner := by
  cases h with
  | lineEnd => exact .inl ⟨rfl, rfl⟩
  | part h => exact .inr ⟨⟨depth, rfl⟩, List.forall_mem_singleton.2 h.inner⟩
  | behindGap source h =>
    exact .inr ⟨⟨depth, rfl⟩,
      List.forall_mem_cons.2 ⟨trivial, List.forall_mem_singleton.2 h.inner⟩⟩
  | opening | closing => exact .inr ⟨⟨_, rfl⟩, List.forall_mem_singleton.2 ⟨nofun, nofun⟩⟩

/-! ### Indented texts -/

/-- Every line begins with a blank; `start` says whether the text begins one. -/
def opensBlank : (start : Bool) → List Char → Bool
  | _, [] => true
  | start, c :: cs => (!start || Cut.isBlank c) && opensBlank (c == '\n') cs

theorem opensBlank_false {start : Bool} (h : opensBlank start cs) : opensBlank false cs := by
  cases cs with
  | nil => rfl
  | cons c cs =>
    rw [opensBlank, Bool.and_eq_true] at h ⊢
    exact ⟨rfl, h.2⟩

theorem opensBlank_of_append {start : Bool} {front : List Char}
    (h : opensBlank start (front ++ cs)) : opensBlank false cs := by
  induction front generalizing start with
  | nil => exact opensBlank_false h
  | cons c front ih =>
    rw [List.cons_append, opensBlank, Bool.and_eq_true] at h
    exact ih h.2

theorem opensBlank_of_append_lineEnd {start : Bool} {front : List Char}
    (h : opensBlank start (front ++ '\n' :: cs)) : opensBlank true cs := by
  have h := opensBlank_of_append h
  rw [opensBlank, Bool.and_eq_true] at h
  exact h.2

/-- The tokens are those of lines, given that what the cut leaves is indented where it has to
be. -/
def Cut.LeavesLines (indented : Bool) (k : Cut) (ts : List Token) : Prop :=
  (indented → opensBlank (k.stand == .lineStart) k.rest) →
    Lines indented (k.stand != .lineStart) ts

theorem lines_atLineStart (hblank : indented → opensBlank true (c :: cs))
    (h : (Cut.atLineStart (c :: cs)).LeavesLines indented ts) :
    Lines indented false (Piece.tokens (Cut.atLineStart (c :: cs)).pieces ++ ts) := by
  have hsource : (Cut.atLineStart (c :: cs)).text = c :: cs := Cut.text_atLineStart (c :: cs)
  rcases Cut.atLineStart_cases c cs with ⟨gap, rest, hk, hrest⟩ | ⟨blanks, rest, -, hk⟩
  · rw [hk] at h ⊢
    refine h fun hi => ?_
    rcases hrest with rfl | ⟨front, hfront⟩
    · rfl
    · exact opensBlank_of_append_lineEnd (hfront ▸ hblank hi)
  · rw [hk] at h hsource ⊢
    have hlines : Lines indented true ts :=
      h fun hi => opensBlank_of_append (hsource ▸ hblank hi)
    cases hc : Cut.isBlank c with
    | true => exact .indent rfl hlines
    | false =>
      refine .enter ?_ hlines
      cases indented with
      | false => rfl
      | true =>
        have hline := hblank rfl
        simp [opensBlank, hc] at hline

theorem lines_inLine (depth : Nat) (hblank : indented → opensBlank false (c :: cs))
    (h : (Cut.inLine depth c cs).LeavesLines indented ts) :
    Lines indented true (Piece.tokens (Cut.inLine depth c cs).pieces ++ ts) := by
  have hsource : (Cut.inLine depth c cs).text = c :: cs := Cut.text_inLine depth c cs
  rw [Cut.LeavesLines] at h
  rcases (Cut.inLine_yields depth c cs).inner with ⟨hp, hd⟩ | ⟨⟨d, hd⟩, hp⟩
  · rw [Cut.text, hp] at hsource
    rw [hd] at h
    rw [hp]
    refine .lineEnd rfl rfl (h fun hi => ?_)
    have hblank := hblank hi
    rw [← hsource] at hblank
    exact (Bool.and_eq_true_iff.1 hblank).2
  · rw [hd] at h
    exact Lines.append_tokens hp (h fun hi => opensBlank_of_append (hsource ▸ hblank hi))

/-- A text that ends at a line start is cut into tokens of whole lines, and into indented
ones if every line begins with a blank. -/
theorem lines_cutAll (stand : Stand) (hend : (cutAll stand cs).2 = .lineStart)
    (hblank : indented → opensBlank (stand == .lineStart) cs) :
    Lines indented (stand != .lineStart) (Piece.tokens (cutAll stand cs).1) := by
  fun_induction cutAll stand cs with
  | case1 stand =>
    cases (show stand = .lineStart from hend)
    exact .done
  | case2 c cs k r ih =>
    rw [Piece.tokens_append]
    exact lines_atLineStart hblank (ih hend)
  | case3 depth c cs k r ih =>
    rw [Piece.tokens_append]
    exact lines_inLine depth hblank (ih hend)

/-! ### The class of a text -/

/-- Tokens of whole lines before other tokens leave open what was open. -/
theorem closingLine_append (stop : Position) (h : ∀ t ∈ ts.getLast?, t.kind = .newline)
    (us : List Token) : closingLine stop (ts ++ us) = closingLine stop us := by
  cases us with
  | nil =>
    rw [List.append_nil, closingLine]
    cases hl : ts.getLast? with
    | none => rfl
    | some t => simp [h t hl, closingLine]
  | cons u us =>
    rw [closingLine, closingLine, List.getLast?_append, List.getLast?_cons, Option.some_or]

namespace ScriptClass

/-- The class and the faults of a script that is cut into these views. -/
def ofViews (path : String) (vs : List (Token ⊕ Fault)) : Option ScriptClass × List Fault :=
  let tokens := vs.filterMap Sum.getLeft?
  let c := ofTokens path (tokens ++ (closingLine {} tokens ++ [Token.endOfFile]))
  let faults := vs.filterMap Sum.getRight? ++ c.2.map LocatedFault.fault
  (if faults.isEmpty && c.1.name != "" then some c.1 else none, faults)

/-- Apart from places, what a text yields depends on its views only. -/
theorem ofSource_eq_ofViews (path source : String) :
    ((ofSource path source).1.map bare, (ofSource path source).2.map LocatedFault.fault) =
      ofViews path (views .lineStart source.toList) := by
  have hread := ofTokens_bareTokens path (Lexed.ofText source).tokens
  rw [bareTokens_ofText] at hread
  obtain ⟨c, hc⟩ : ∃ c, c = ofTokens path (Lexed.ofText source).tokens := ⟨_, rfl⟩
  have hmap : (c.2.map LocatedFault.bare).map LocatedFault.fault = c.2.map LocatedFault.fault :=
    List.map_map
  have hname : c.1.bare.name = c.1.name := rfl
  simp only [ofSource, ofViews, hread, ← map_fault_ofText, ← hc, hmap, hname, ← List.map_append,
    List.isEmpty_map]
  split_ifs <;> rfl

end ScriptClass

/-! ### Indented lines -/

/-- A text of whole lines that is cut without a fault and ends at the start of a line. -/
structure CleanLines (text : String) : Prop where
  endsLine : EndsLine text.toList
  faultless : (Lexed.ofText text).faults = []
  atLineStart : (cutAll .lineStart text.toList).2 = .lineStart

theorem isBroken_of_layOut {p : Position} {ps : List Piece}
    (h : layOut Piece.fault? p ps = []) : ∀ q ∈ ps, q.isBroken = false := by
  induction ps generalizing p with
  | nil => simp
  | cons q ps ih =>
    obtain ⟨hq, hps⟩ := List.append_eq_nil_iff.1 h
    refine List.forall_mem_cons.2 ⟨?_, ih hps⟩
    cases q with
    | broken => cases hq
    | _ => rfl

namespace CleanLines

variable {text : String}

theorem views_append (h : CleanLines text) (more : List Char) :
    views .lineStart (text.toList ++ more) =
      views .lineStart text.toList ++ views .lineStart more := by
  rw [ScriptBridge.views_append _ h.endsLine (isBroken_of_layOut h.faultless), h.atLineStart]

theorem faults_eq_nil (h : CleanLines text) :
    (views .lineStart text.toList).filterMap Sum.getRight? = [] := by
  rw [← map_fault_ofText, h.faultless]
  rfl

theorem lines (h : CleanLines text) (indented : Bool)
    (hblank : indented → opensBlank true text.toList) :
    Lines indented false ((views .lineStart text.toList).filterMap Sum.getLeft?) :=
  lines_cutAll .lineStart h.atLineStart hblank

end CleanLines

namespace ScriptClass

theorem ofTokens_indented (path : String) (hts : WholeLines ts) {us : List Token}
    (hus : Lines true false us) (more : List Token) :
    ofTokens path (ts ++ (us ++ more)) = ofTokens path (ts ++ more) := by
  have hskip (d : Draft) : d.read (us ++ more) = d.read more := Draft.read_lines hus d more
  simp only [ofTokens, Draft.read_append hts, hskip]

theorem ofViews_indented (path : String) {front lines : String} (hfront : CleanLines front)
    (hlines : CleanLines lines) (hblank : opensBlank true lines.toList)
    (vs : List (Token ⊕ Fault)) :
    ofViews path (views .lineStart front.toList ++ (views .lineStart lines.toList ++ vs)) =
      ofViews path (views .lineStart front.toList ++ vs) := by
  have hts : WholeLines ((views .lineStart front.toList).filterMap Sum.getLeft?) :=
    (hfront.lines false (by simp)).wholeLines
  have hus : Lines true false ((views .lineStart lines.toList).filterMap Sum.getLeft?) :=
    hlines.lines true fun _ => hblank
  simp only [ofViews, List.filterMap_append, hfront.faults_eq_nil, hlines.faults_eq_nil,
    List.nil_append, closingLine_append {} hts.closed, closingLine_append {} hus.wholeLines.closed,
    List.append_assoc, ofTokens_indented path hts hus]

/-- Indented lines between whole lines and any other text are read as if they were not there. -/
theorem ofSource_indented (path : String) {front lines : String} (hfront : CleanLines front)
    (hlines : CleanLines lines) (hblank : opensBlank true lines.toList) (back : String) :
    (ofSource path (front ++ lines ++ back)).1.map bare =
        (ofSource path (front ++ back)).1.map bare ∧
      (ofSource path (front ++ lines ++ back)).2.map LocatedFault.fault =
        (ofSource path (front ++ back)).2.map LocatedFault.fault := by
  rw [← Prod.mk.injEq, ofSource_eq_ofViews, ofSource_eq_ofViews]
  have hwith : views .lineStart (front ++ lines ++ back).toList =
      views .lineStart front.toList ++
        (views .lineStart lines.toList ++ views .lineStart back.toList) := by
    rw [String.toList_append, String.toList_append, List.append_assoc, hfront.views_append,
      hlines.views_append]
  have hwithout : views .lineStart (front ++ back).toList =
      views .lineStart front.toList ++ views .lineStart back.toList := by
    rw [String.toList_append, hfront.views_append]
  rw [hwith, hwithout, ofViews_indented path hfront hlines hblank]

/-- The body of a function may hold lines that would open a class if they were not indented. -/
theorem ofSource_indented_body :
    let front := "func f():\n"
    let lines := "\tclass_name B\n"
    CleanLines front ∧ CleanLines lines ∧ opensBlank true lines.toList ∧
      (ofSource "" (front ++ lines ++ "class_name A\n")).1.map bare =
        (ofSource "" (front ++ "class_name A\n")).1.map bare ∧
      (ofSource "" (front ++ lines ++ "class_name A\n")).2.map LocatedFault.fault =
        (ofSource "" (front ++ "class_name A\n")).2.map LocatedFault.fault := by
  intro front lines
  have hfront : CleanLines front := ⟨by decide +kernel, by cbv, by cbv⟩
  have hlines : CleanLines lines := ⟨by decide +kernel, by cbv, by cbv⟩
  have hblank : opensBlank true lines.toList := by decide +kernel
  exact ⟨hfront, hlines, hblank, ofSource_indented "" hfront hlines hblank "class_name A\n"⟩

/-- Blanks without a line end are no indented line: they indent what stands behind them. -/
theorem ofSource_blanks :
    let front := ""
    let lines := "  "
    let back := "class_name A\n"
    EndsLine front.toList ∧ (Lexed.ofText front).faults = [] ∧
      (cutAll .lineStart front.toList).2 = .lineStart ∧ (Lexed.ofText lines).faults = [] ∧
      (cutAll .lineStart lines.toList).2 = .lineStart ∧ opensBlank true lines.toList ∧
      (ofSource "" (front ++ lines ++ back)).1 = none ∧
      (ofSource "" (front ++ back)).1.isSome := by
  intro front lines back
  have hname : (ofTokens "" (Lexed.ofText (front ++ lines ++ back)).tokens).1.name = "" := by cbv
  have hnone : (ofSource "" (front ++ lines ++ back)).1 = none := by
    simp only [ofSource, hname, bne_self_eq_false, Bool.and_false]
    rfl
  refine ⟨by decide +kernel, ?_, ?_, ?_, ?_, ?_, hnone, ?_⟩
  all_goals cbv

end ScriptClass

end ScriptBridge
