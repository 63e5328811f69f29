import Mathlib.Tactic.SplitIfs
import ScriptBridge.Script.Piece

/-! Pieces lie end to end. A cut inside a line is a choice that the next characters make.
Proved: what a cut takes and what it leaves make up the text, and so do the sources of all
pieces of a text, one behind the other. -/

namespace ScriptBridge

namespace Cut

variable {c : Char}

/-! ### Numbers -/

theorem fraction_source (cs : List Char) : (fraction cs).1 ++ (fraction cs).2 = cs := by
  unfold fraction
  split
  · split_ifs
    · rw [List.cons_append, List.takeWhile_append_dropWhile]
    · rfl
    · rfl
  · rfl
  · rfl

theorem sign_source (cs : List Char) : (sign cs).1 ++ (sign cs).2 = cs := by
  unfold sign
  split
  · split_ifs <;> rfl
  · rfl

theorem exponent_source (cs : List Char) : (exponent cs).1 ++ (exponent cs).2 = cs := by
  unfold exponent
  split
  · split_ifs
    · dsimp only
      rw [List.cons_append, List.cons_append, List.append_assoc,
        List.takeWhile_append_dropWhile, sign_source]
    · rfl
  · rfl

theorem decimal_source (cs : List Char) : (decimal cs).2.1 ++ (decimal cs).2.2 = cs := by
  simp only [decimal]
  rw [List.append_assoc, exponent_source, List.append_assoc, fraction_source,
    List.takeWhile_append_dropWhile]

theorem number_source (cs : List Char) : (number cs).2.1 ++ (number cs).2.2 = cs := by
  unfold number
  split
  · split_ifs
    · simp [List.takeWhile_append_dropWhile]
    · simp [List.takeWhile_append_dropWhile]
    · exact decimal_source _
  · exact decimal_source _

/-! ### Text literals -/

theorem content_source (mark : List Char) (raw : Bool) (cs : List Char) :
    (content mark raw cs).1 ++ (content mark raw cs).2 = cs := by
  fun_induction content mark raw cs <;> simp_all

/-- The mark of a literal is its first quote and what else is dropped with it. -/
theorem markOf_append_drop (quote : Char) (cs : List Char) :
    markOf quote cs ++ cs.drop ((markOf quote cs).length - 1) = quote :: cs := by
  unfold markOf
  split_ifs with h
  · obtain ⟨rest, rfl⟩ := List.isPrefixOf_iff_prefix.1 h
    rfl
  · rfl

theorem textLiteral_source (raw : Bool) (quote : Char) (cs : List Char) :
    (textLiteral raw quote cs).1.source ++ (textLiteral raw quote cs).2 = quote :: cs := by
  have hbody := content_source (markOf quote cs) raw (cs.drop ((markOf quote cs).length - 1))
  have hmark := markOf_append_drop quote cs
  rw [← hbody] at hmark
  simp only [textLiteral]
  split_ifs with h
  · obtain ⟨rest, hrest⟩ := List.isPrefixOf_iff_prefix.1 h
    rw [← hrest] at hmark ⊢
    rw [List.drop_left, ← hmark]
    simp [Piece.source]
  · rw [← hmark]
    simp [Piece.source]

/-! ### Signs -/

theorem operator_source (c : Char) (cs : List Char) :
    (operator c cs).1 ++ (operator c cs).2 = c :: cs := by
  unfold operator
  split
  · split_ifs
    · rfl
    · split <;> rfl
    · rfl
  · rfl

theorem mark?_source {cs : List Char} {m : TokenKind × List Char × List Char}
    (h : mark? c cs = some m) : m.2.1 ++ m.2.2 = c :: cs := by
  unfold mark? at h
  split at h <;> try (cases h; rfl)
  split at h
  · cases h
    exact operator_source _ _
  · cases h

/-! ### Cuts -/

theorem comment_source (cs : List Char) : (comment cs).1 ++ (comment cs).2 = cs := by
  unfold comment
  split_ifs
  · exact List.takeWhile_append_dropWhile
  · rfl

theorem carriageReturn_source (cs : List Char) :
    (carriageReturn cs).1 ++ (carriageReturn cs).2 = cs := by
  unfold carriageReturn
  split <;> rfl

theorem margin_source (cs : List Char) : (margin cs).1 ++ (margin cs).2 = cs := by
  simp only [margin]
  rw [List.append_assoc, carriageReturn_source, List.append_assoc, comment_source,
    List.takeWhile_append_dropWhile]

/-- The sources of the pieces of a cut, and what the cut leaves. -/
def text (k : Cut) : List Char := k.pieces.flatMap Piece.source ++ k.rest

/-- What a cut leaves has no character that the text does not have. -/
theorem not_mem_rest {k : Cut} {cs : List Char} (hk : k.text = cs) (h : c ∉ cs) : c ∉ k.rest := by
  rw [← hk, text, List.mem_append, not_or] at h
  exact h.2

theorem text_enter (indented : Bool) (margin cs : List Char) :
    (enter indented margin cs).text = margin ++ cs := by
  unfold enter
  split
  · simp [text, Piece.source]
  · simp [text, Piece.source]
  · cases indented <;> simp [text, Piece.source]

theorem text_atLineStart (cs : List Char) : (atLineStart cs).text = cs := by
  rw [atLineStart, text_enter, margin_source]

theorem text_one (depth : Nat) (p : Piece × List Char) :
    (one depth p).text = p.1.source ++ p.2 := by
  simp [one, text]

theorem source_plain (kind : TokenKind) (s : List Char) : (Piece.plain kind s).source = s := by
  simp [Piece.plain, Piece.source]

theorem word_source (cs : List Char) : (word cs).1.source ++ (word cs).2 = cs := by
  simp only [word, source_plain]
  exact List.takeWhile_append_dropWhile

theorem numeral_source (cs : List Char) : (numeral cs).1.source ++ (numeral cs).2 = cs := by
  simp only [numeral, source_plain]
  exact number_source cs

theorem tag_source (cs : List Char) : (tag cs).1.source ++ (tag cs).2 = '@' :: cs := by
  have hcs : cs.takeWhile isNamePart ++ cs.dropWhile isNamePart = cs :=
    List.takeWhile_append_dropWhile
  unfold tag
  split
  · rfl
  · simp only [Piece.source, List.append_nil, List.cons_append, List.nil_append, hcs]

theorem text_punctuation (depth : Nat) (c : Char) (cs : List Char) :
    (punctuation depth c cs).text = c :: cs := by
  unfold punctuation
  split
  · rfl
  · rfl
  · next m hm =>
    rw [text_one, source_plain]
    exact mark?_source hm
  · rfl

/-! ### The choice of a cut -/

/-- What a cut inside a line takes. -/
inductive Choice where
  | lineEnd | blank | comment
  /-- A backslash with the line end of so many characters behind it. -/
  | join (length : Nat)
  | rawText | word | numeral | text | tag | sign

namespace Choice

/-- What the next characters ask for. -/
def ofChars (c : Char) (cs : List Char) : Choice :=
  if c == '\n' then lineEnd
  else if c == ' ' || c == '\t' || c == '\r' then blank
  else if c == '#' then comment
  else if c == '\\' && ['\n'].isPrefixOf cs then join 1
  else if c == '\\' && ['\r', '\n'].isPrefixOf cs then join 2
  else if c == 'r' && (cs.head?.map isQuote).getD false then rawText
  else if isNameStart c then word
  else if c.isDigit || (c == '.' && (cs.head?.map Char.isDigit).getD false) then numeral
  else if isQuote c then text
  else if c == '@' then tag
  else sign

/-- The cut that a choice stands for. -/
def cut (depth : Nat) (c : Char) (cs : List Char) : Choice → Cut
  | lineEnd => if depth = 0 then ⟨[.lineEnd], .lineStart, cs⟩ else one depth (.gap [c], cs)
  | blank => one depth (.gap [c], cs)
  | comment => one depth (.gap (c :: cs.takeWhile (· != '\n')), cs.dropWhile (· != '\n'))
  | join n => one depth (.gap (c :: cs.take n), cs.drop n)
  | rawText =>
    ⟨[.gap [c], (textLiteral true (cs.headD c) cs.tail).1], .inLine depth,
      (textLiteral true (cs.headD c) cs.tail).2⟩
  | word => one depth (Cut.word (c :: cs))
  | numeral => one depth (Cut.numeral (c :: cs))
  | text => one depth (textLiteral false c cs)
  | tag => one depth (Cut.tag cs)
  | sign => punctuation depth c cs

/-- What is known of the characters that lead to a choice. -/
def Fits (c : Char) (cs : List Char) : Choice → Prop
  | lineEnd => c = '\n'
  | join n => n ≤ cs.length
  | rawText => ∃ quote rest, cs = quote :: rest ∧ isQuote quote
  | word => isNameStart c
  | text => isQuote c
  | tag => c = '@'
  | _ => True

theorem ofChars_fits (c : Char) (cs : List Char) : (ofChars c cs).Fits c cs := by
  have hprefix {pre : List Char} (h : (c == '\\' && pre.isPrefixOf cs) = true) :
      pre.length ≤ cs.length :=
    (List.isPrefixOf_iff_prefix.1 (Bool.and_eq_true_iff.1 h).2).length_le
  unfold ofChars
  refine iteInduction (fun h => beq_iff_eq.1 h) fun _ => ?_
  refine iteInduction (fun _ => trivial) fun _ => ?_
  refine iteInduction (fun _ => trivial) fun _ => ?_
  refine iteInduction (fun h => hprefix h) fun _ => ?_
  refine iteInduction (fun h => hprefix h) fun _ => ?_
  refine iteInduction (fun h => ?_) fun _ => ?_
  · cases cs with
    | nil => exact absurd h (by simp)
    | cons quote rest => exact ⟨quote, rest, rfl, (Bool.and_eq_true_iff.1 h).2⟩
  refine iteInduction (fun h => h) fun _ => ?_
  refine iteInduction (fun _ => trivial) fun _ => ?_
  refine iteInduction (fun h => h) fun _ => ?_
  exact iteInduction (fun h => beq_iff_eq.1 h) fun _ => trivial

end Choice

/-- A cut inside a line is chosen by the next characters. -/
theorem inLine_eq_cut (depth : Nat) (c : Char) (cs : List Char) :
    inLine depth c cs = (Choice.ofChars c cs).cut depth c cs := by
  simp only [Choice.ofChars, apply_ite (Choice.cut depth c cs)]
  rfl

/-- A cut inside a line divides the text. -/
theorem text_inLine (depth : Nat) (c : Char) (cs : List Char) :
    (inLine depth c cs).text = c :: cs := by
  rw [inLine_eq_cut]
  have hfits := Choice.ofChars_fits c cs
  cases hk : Choice.ofChars c cs with rw [hk] at hfits
  | lineEnd =>
    cases (show c = '\n' from hfits)
    cases depth <;> rfl
  | blank => rfl
  | comment =>
    rw [Choice.cut, text_one, Piece.source, List.cons_append, List.takeWhile_append_dropWhile]
  | join n => rw [Choice.cut, text_one, Piece.source, List.cons_append, List.take_append_drop]
  | rawText =>
    obtain ⟨quote, rest, rfl, -⟩ := hfits
    have hs := textLiteral_source true quote rest
    simp only [Choice.cut, text, List.flatMap_cons, List.flatMap_nil, List.append_nil,
      List.append_assoc, List.headD_cons, List.tail_cons, hs]
    rfl
  | word => rw [Choice.cut, text_one, word_source]
  | numeral => rw [Choice.cut, text_one, numeral_source]
  | text => rw [Choice.cut, text_one, textLiteral_source]
  | tag =>
    cases (show c = '@' from hfits)
    rw [Choice.cut, text_one, tag_source]
  | sign => exact text_punctuation depth c cs

end Cut

namespace Stand

/-- The open brackets at a stand. -/
def depth : Stand → Nat
  | lineStart => 0
  | inLine depth => depth

def isLineStart (stand : Stand) : Bool := stand == .lineStart

/-- The cut that is taken at a stand. -/
def cut (c : Char) (cs : List Char) : Stand → Cut
  | lineStart => Cut.atLineStart (c :: cs)
  | inLine depth => Cut.inLine depth c cs

theorem text_cut (c : Char) (cs : List Char) (stand : Stand) : (stand.cut c cs).text = c :: cs := by
  cases stand with
  | lineStart => exact Cut.text_atLineStart (c :: cs)
  | inLine depth => exact Cut.text_inLine depth c cs

end Stand

theorem cutAll_cons (stand : Stand) (c : Char) (cs : List Char) :
    cutAll stand (c :: cs) =
      ((stand.cut c cs).pieces ++ (cutAll (stand.cut c cs).stand (stand.cut c cs).rest).1,
        (cutAll (stand.cut c cs).stand (stand.cut c cs).rest).2) := by
  cases stand with
  | lineStart => exact cutAll.eq_2 c cs
  | inLine depth => exact cutAll.eq_3 depth c cs

/-- No character is lost: the sources of the pieces, end to end, are the text. -/
theorem flatMap_source_cutAll (stand : Stand) (cs : List Char) :
    (cutAll stand cs).1.flatMap Piece.source = cs := by
  fun_induction cutAll stand cs with
  | case1 => rfl
  | case2 c cs k r ih =>
    have hk : k.text = c :: cs := Cut.text_atLineStart (c :: cs)
    rw [List.flatMap_append, ih]
    exact hk
  | case3 depth c cs k r ih =>
    have hk : k.text = c :: cs := Cut.text_inLine depth c cs
    rw [List.flatMap_append, ih]
    exact hk

end ScriptBridge
