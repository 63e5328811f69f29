import ScriptBridge.Proofs.Script.IndentedLines
import ScriptBridge.Proofs.Script.TokenOrder

/-! Text behind whole lines. A text of whole lines without a fault leaves cutting where it
began, at the start of a line, and nothing but the number of its lines is handed on.
Proved: a text behind it yields the tokens and the faults that it yields by itself, so many
lines further down. -/

namespace ScriptBridge

variable {cs : List Char}

/-! ### Places further down -/

/-- The same column, so many lines further down. -/
def Position.down (n : Nat) (p : Position) : Position := { p with line := p.line + n }

def Span.down (n : Nat) (s : Span) : Span := ⟨s.start.down n, s.stop.down n⟩

def Token.down (n : Nat) (t : Token) : Token := { t with span := t.span.down n }

def LocatedFault.down (n : Nat) (f : LocatedFault) : LocatedFault := { f with span := f.span.down n }

namespace Position

theorem advance_down (n : Nat) (p : Position) (c : Char) :
    (p.down n).advance c = (p.advance c).down n := by
  unfold advance
  split_ifs
  · simp only [down, Nat.add_right_comm]
  · rfl

theorem after_down (n : Nat) (p : Position) (cs : List Char) :
    (p.down n).after cs = (p.after cs).down n := by
  induction cs generalizing p with
  | nil => rfl
  | cons c cs ih => rw [after_cons, after_cons, advance_down, ih]

theorem line_after (p : Position) (cs : List Char) :
    (p.after cs).line = p.line + cs.count '\n' := by
  induction cs generalizing p with
  | nil => rfl
  | cons c cs ih =>
    rw [after_cons, ih, advance]
    split_ifs with hc
    · rw [hc, List.count_cons_self, Nat.add_right_comm, Nat.add_assoc]
    · rw [List.count_cons_of_ne hc]

/-- Behind whole lines stands the first column of a line. -/
theorem after_of_endsLine (h : EndsLine cs) :
    ({} : Position).after cs = ({} : Position).down (cs.count '\n') := by
  have hcolumn : (({} : Position).after cs).column = 1 := by
    rcases List.eq_nil_or_concat cs with rfl | ⟨front, c, rfl⟩
    · rfl
    · obtain rfl : c = '\n' := h c (by simp)
      rw [List.concat_eq_append, after_append]
      rfl
  exact congrArg₂ Position.mk (line_after {} cs) hcolumn

end Position

/-- What pieces yield moves down with them. -/
theorem layOut_down {α : Type} {f : Position → Piece → Option α} {g : α → α} {n : Nat}
    (h : ∀ p x, f (p.down n) x = (f p x).map g) (p : Position) (xs : List Piece) :
    layOut f (p.down n) xs = (layOut f p xs).map g := by
  induction xs generalizing p with
  | nil => rfl
  | cons x xs ih =>
    rw [layOut, layOut, h, Position.after_down, ih, List.map_append]
    cases f p x <;> rfl

namespace Piece

theorem token?_down (n : Nat) (p : Position) (x : Piece) :
    token? (p.down n) x = (token? p x).map (Token.down n) := by
  cases x with
  | gap | broken | lineEnd => rfl
  | token kind a t b =>
    rw [token?, Position.after_down]
    rfl

theorem fault?_down (n : Nat) (p : Position) (x : Piece) :
    fault? (p.down n) x = (fault? p x).map (LocatedFault.down n) := by
  cases x with
  | gap | token | lineEnd => rfl
  | broken fault source =>
    rw [fault?, Position.after_down]
    rfl

end Piece

/-! ### The whole text -/

namespace CleanLines

variable {front : String} (h : CleanLines front)

include h

/-- A text behind whole lines is cut as it is cut by itself, and what its pieces yield moves down
by so many lines. -/
theorem layOut_append {α : Type} {f : Position → Piece → Option α} {g : α → α}
    (hf : ∀ p x, f (p.down (front.toList.count '\n')) x = (f p x).map g) (back : List Char) :
    layOut f {} (cutAll .lineStart (front.toList ++ back)).1 =
      layOut f {} (cutAll .lineStart front.toList).1 ++
        (layOut f {} (cutAll .lineStart back).1).map g := by
  rw [cutAll_append _ h.endsLine (isBroken_of_layOut h.faultless), h.atLineStart,
    ScriptBridge.layOut_append, flatMap_source_cutAll, Position.after_of_endsLine h.endsLine,
    layOut_down hf]

/-- The last token of whole lines is a line end. -/
theorem closed :
    ∀ t ∈ (layOut Piece.token? {} (cutAll .lineStart front.toList).1).getLast?,
      t.kind = .newline := by
  have hbare := bareTokens_layOut {} (cutAll .lineStart front.toList).1
  have hclosed := (h.lines false nofun).wholeLines.closed
  rw [views, ← hbare, bareTokens, List.getLast?_map] at hclosed
  intro t ht
  exact hclosed t.bare (Option.mem_map_of_mem Token.bare ht)

/-- Behind whole lines stands the end of the file, without a line end before it. -/
theorem dropLast_tokens :
    (Lexed.ofText front).tokens.dropLast =
      layOut Piece.token? {} (cutAll .lineStart front.toList).1 := by
  have hnone : closingLine (Position.after {} front.toList)
      (layOut Piece.token? {} (cutAll .lineStart front.toList).1) = [] := by
    rw [← List.append_nil (layOut ..), closingLine_append _ h.closed]
    rfl
  rw [Lexed.ofText, Lexed.ofChars, hnone, List.append_nil, List.dropLast_concat]

end CleanLines

namespace Lexed

/-- Whole lines without a fault come before a text with their tokens, and all tokens and faults
of the text stand so many lines further down. -/
theorem ofText_append {front : String} (h : CleanLines front) (back : String) :
    let n := front.toList.count '\n'
    (ofText (front ++ back)).tokens =
        (ofText front).tokens.dropLast ++ (ofText back).tokens.map (Token.down n) ∧
      (ofText (front ++ back)).faults = (ofText back).faults.map (LocatedFault.down n) := by
  intro n
  have htokens := h.layOut_append (Piece.token?_down n) back.toList
  have hfaults := h.layOut_append (Piece.fault?_down n) back.toList
  constructor
  · have hstop : Position.after {} (front.toList ++ back.toList) =
        (Position.after {} back.toList).down n := by
      rw [Position.after_append, Position.after_of_endsLine h.endsLine, Position.after_down]
    -- The lines in front are closed, so only the text behind them may need a line end.
    have hclosing (us : List Token) :
        closingLine ((Position.after {} back.toList).down n)
            (layOut Piece.token? {} (cutAll .lineStart front.toList).1 ++ us.map (Token.down n)) =
          (closingLine (Position.after {} back.toList) us).map (Token.down n) := by
      rw [closingLine_append _ h.closed, closingLine_map (Token.down n) (fun _ => rfl) rfl]
    rw [h.dropLast_tokens]
    simp only [ofText, ofChars, String.toList_append, htokens, hstop, hclosing, List.map_append,
      List.append_assoc]
    rfl
  · have hnone : layOut Piece.fault? {} (cutAll .lineStart front.toList).1 = [] := h.faultless
    rw [hnone, List.nil_append] at hfaults
    rw [ofText, ofChars, String.toList_append, hfaults]
    rfl

/-- Open brackets and a literal of two lines in front of a fault on the second line behind them. -/
theorem ofText_append_twoLines :
    let front := "var a = [1.,\n\"\"\"\n\"\"\"]\n# end\n"
    let back := "\tx\nvar \\"
    let n := front.toList.count '\n'
    CleanLines front ∧
      (ofText (front ++ back)).tokens =
        (ofText front).tokens.dropLast ++ (ofText back).tokens.map (Token.down n) ∧
      (ofText (front ++ back)).faults = (ofText back).faults.map (LocatedFault.down n) := by
  intro front back
  have h : CleanLines front := ⟨by decide +kernel, by cbv, by cbv⟩
  exact ⟨h, ofText_append h back⟩

end Lexed

end ScriptBridge
