import ScriptBridge.Proofs.Script.CutCases
import ScriptBridge.Script.Lexed

/-! The order of tokens. The tokens before a place determine the stand of cutting there: at the
start of a line behind a line end, and otherwise inside one with the brackets that the tokens
leave open. Proved: an indent opens a line, lines and indents stand outside brackets, the line
that closes the text apart, and the text ends with the end of a line and the end of the file. -/

namespace ScriptBridge

/-! ### Stands behind tokens -/

/-- The number of open brackets behind a token. A bracket that closes none counts for nothing. -/
def Token.depthAfter (depth : Nat) (t : Token) : Nat :=
  match t.kind with
  | .opening _ => depth + 1
  | .closing _ => depth - 1
  | _ => depth

/-- The number of open brackets behind tokens. -/
def openBrackets (ts : List Token) : Nat := ts.foldl Token.depthAfter 0

namespace Stand

/-- The stand behind a token. -/
def after (s : Stand) (t : Token) : Stand :=
  if t.kind = .newline then .lineStart else .inLine (t.depthAfter s.depth)

/-- Whether a token may come next. -/
def Allows (s : Stand) (t : Token) : Prop :=
  t.kind ≠ .endOfFile ∧ (t.kind = .indent → s = .lineStart) ∧ (t.kind = .newline → s.depth = 0)

/-- Whether tokens may come one after another. -/
def AllowsAll : Stand → List Token → Prop
  | _, [] => True
  | s, t :: ts => s.Allows t ∧ (s.after t).AllowsAll ts

variable {s : Stand} {t : Token} {ts us : List Token} {depth : Nat}

theorem allowsAll_append (s : Stand) (ts us : List Token) :
    s.AllowsAll (ts ++ us) ↔ s.AllowsAll ts ∧ (ts.foldl after s).AllowsAll us := by
  induction ts generalizing s with
  | nil => exact (and_iff_right trivial).symm
  | cons t ts ih => rw [List.cons_append, AllowsAll, AllowsAll, ih, and_assoc, List.foldl_cons]

/-- A line may also begin without an indent. -/
theorem AllowsAll.enter (h : (inLine 0).AllowsAll ts) : lineStart.AllowsAll ts := by
  cases ts with
  | nil => trivial
  | cons t ts => exact ⟨⟨h.1.1, fun _ => rfl, fun _ => rfl⟩, h.2⟩

theorem depth_after (h : s.Allows t) : (s.after t).depth = t.depthAfter s.depth := by
  by_cases hk : t.kind = .newline
  · rw [after, if_pos hk, Token.depthAfter, hk]
    exact (h.2.2 hk).symm
  · rw [after, if_neg hk]
    rfl

theorem depth_foldl_after (h : s.AllowsAll ts) :
    (ts.foldl after s).depth = ts.foldl Token.depthAfter s.depth := by
  induction ts generalizing s with
  | nil => rfl
  | cons t ts ih => rw [List.foldl_cons, List.foldl_cons, ih h.2, depth_after h.1]

/-- A line starts at the start of the text and behind the end of a line. -/
theorem lineStart_foldl_after (h : ts.foldl after s = lineStart) :
    ts = [] ∧ s = lineStart ∨ ts.getLast?.map Token.kind = some .newline := by
  rcases List.eq_nil_or_concat ts with rfl | ⟨us, t, rfl⟩
  · exact .inl ⟨rfl, h⟩
  · right
    rw [List.concat_eq_append, List.foldl_append, List.foldl_cons, List.foldl_nil, after] at h
    rw [List.concat_eq_append, List.getLast?_append, List.getLast?_singleton, Option.some_or,
      Option.map_some]
    split_ifs at h with hk
    rw [hk]

end Stand

/-! ### Tokens of pieces -/

theorem layOut_append {α : Type} (f : Position → Piece → Option α) (p : Position)
    (xs ys : List Piece) :
    layOut f p (xs ++ ys) = layOut f p xs ++ layOut f (p.after (xs.flatMap Piece.source)) ys := by
  induction xs generalizing p with
  | nil => rfl
  | cons x xs ih =>
    rw [List.cons_append, layOut, layOut, ih, List.append_assoc, List.flatMap_cons,
      Position.after_append]

/-- A part of a line may stand anywhere in a line, and it leaves the stand as it is. -/
theorem Piece.Part.allowsAll {p : Piece} (h : p.Part) (q : Position) {depth : Nat}
    {ts : List Token} (hts : (Stand.inLine depth).AllowsAll ts) :
    (Stand.inLine depth).AllowsAll ((p.token? q).toList ++ ts) := by
  cases h with
  | gap | broken => exact hts
  | @plain kind h text =>
    cases kind with
    | endOfFile | newline | indent | text | tag | opening | closing => cases h
    | _ => exact ⟨⟨nofun, nofun, nofun⟩, hts⟩
  | tag | text => exact ⟨⟨nofun, nofun, nofun⟩, hts⟩

/-- The tokens of a cut inside a line lead from the stand before it to the stand behind it. -/
theorem Cut.Yields.allowsAll {depth : Nat} {ps : List Piece} {stand : Stand}
    (h : Yields depth ps stand) (q : Position) {ts : List Token} (hts : stand.AllowsAll ts) :
    (Stand.inLine depth).AllowsAll (layOut Piece.token? q ps ++ ts) := by
  cases h with
  | lineEnd h => exact ⟨⟨nofun, nofun, fun _ => h⟩, hts⟩
  | part h =>
    rw [layOut, layOut, List.append_nil]
    exact h.allowsAll q hts
  | behindGap source h =>
    rw [layOut, layOut, layOut, List.append_nil]
    exact h.allowsAll _ hts
  | opening | closing => exact ⟨⟨nofun, nofun, nofun⟩, hts⟩

/-- A cut at the start of a line enters it or stays there. -/
theorem Cut.atLineStart_allowsAll (c : Char) (cs : List Char) (q : Position) {ts : List Token}
    (hts : (atLineStart (c :: cs)).stand.AllowsAll ts) :
    Stand.lineStart.AllowsAll (layOut Piece.token? q (atLineStart (c :: cs)).pieces ++ ts) := by
  rcases atLineStart_cases c cs with ⟨gap, rest, hk, -⟩ | ⟨blanks, rest, -, hk⟩
  · rw [hk] at hts ⊢
    exact hts
  · rw [hk] at hts ⊢
    cases isBlank c with
    | true => exact ⟨⟨nofun, fun _ => rfl, nofun⟩, hts⟩
    | false => exact hts.enter

/-- The tokens that are cut from a stand may stand there. -/
theorem allowsAll_cutAll (stand : Stand) (cs : List Char) (q : Position) :
    stand.AllowsAll (layOut Piece.token? q (cutAll stand cs).1) := by
  fun_induction cutAll stand cs generalizing q with
  | case1 => trivial
  | case2 c cs k r ih =>
    rw [layOut_append]
    exact Cut.atLineStart_allowsAll c cs q (ih _)
  | case3 depth c cs k r ih =>
    rw [layOut_append]
    exact (Cut.inLine_yields depth c cs).allowsAll q (ih _)

/-! ### The end of the text -/

/-- A text with tokens ends with the end of a line. -/
theorem getLast?_closingLine (stop : Position) {ts : List Token} (h : ts ≠ []) :
    (ts ++ closingLine stop ts).getLast?.map Token.kind = some .newline := by
  rw [closingLine, List.getLast?_eq_some_getLast h]
  dsimp only
  split_ifs with hk
  · rw [List.append_nil, List.getLast?_eq_some_getLast h]
    exact congrArg some (beq_iff_eq.1 hk)
  · rw [List.getLast?_append, List.getLast?_singleton]
    rfl

/-- The line end that closes a text is at most one. -/
theorem closingLine_cases (stop : Position) (ts : List Token) :
    closingLine stop ts = [] ∨ ∃ t, closingLine stop ts = [t] ∧ t.kind = .newline := by
  unfold closingLine
  split
  · split_ifs
    · exact .inl rfl
    · exact .inr ⟨_, rfl, rfl⟩
  · exact .inl rfl

/-- Behind the tokens of the pieces there are no indents, and a line end is the last one. -/
theorem kind_of_closing (stop : Position) (ts : List Token) {before after : List Token}
    {t last : Token} (hlast : last.kind = .endOfFile)
    (h : closingLine stop ts ++ [last] = before ++ t :: after) :
    t.kind ≠ .indent ∧ (t.kind = .newline → ∀ u ∈ after, u.kind ≠ .newline) := by
  rcases closingLine_cases stop ts with hclosing | ⟨line, hclosing, hline⟩
  · rw [hclosing, List.nil_append, List.singleton_eq_append_iff] at h
    obtain ⟨-, h⟩ | ⟨-, h⟩ := h
    · obtain ⟨rfl, -⟩ := List.cons.inj h
      simp [hlast]
    · cases h
  · rw [hclosing, List.singleton_append] at h
    cases before with
    | nil =>
      obtain ⟨rfl, rfl⟩ := List.cons.inj h
      simp [hline, hlast]
    | cons u before =>
      obtain ⟨-, h⟩ := List.cons.inj h
      obtain ⟨-, h⟩ | ⟨-, h⟩ := List.singleton_eq_append_iff.1 h
      · obtain ⟨rfl, -⟩ := List.cons.inj h
        simp [hlast]
      · cases h

/-- The tokens of a text: one end of the file behind the end of a line, indents only at the
start of a line, and neither indents nor line ends within brackets, the last line end apart. -/
theorem Lexed.ofText_order (source : String) :
    let tokens := (ofText source).tokens
    (∃ body last, tokens = body ++ [last] ∧ last.kind = .endOfFile ∧
      (∀ t ∈ body, t.kind ≠ .endOfFile) ∧
      (body ≠ [] → body.getLast?.map Token.kind = some .newline)) ∧
    ∀ before t after, tokens = before ++ t :: after →
      (t.kind = .indent → openBrackets before = 0 ∧
        (before = [] ∨ before.getLast?.map Token.kind = some .newline)) ∧
      (t.kind = .newline → openBrackets before = 0 ∨ ∀ u ∈ after, u.kind ≠ .newline) := by
  intro tokens
  let ts := layOut Piece.token? {} (cutAll .lineStart source.toList).1
  let stop := Position.after {} source.toList
  have hts : Stand.lineStart.AllowsAll ts := allowsAll_cutAll .lineStart source.toList {}
  have hallowed {before after : List Token} {t : Token} (h : ts = before ++ t :: after) :
      Stand.lineStart.AllowsAll before ∧ (before.foldl Stand.after .lineStart).Allows t := by
    rw [h, Stand.allowsAll_append] at hts
    exact ⟨hts.1, hts.2.1⟩
  refine ⟨⟨ts ++ closingLine stop ts, _, rfl, rfl, ?_, fun hbody => ?_⟩, ?_⟩
  · refine List.forall_mem_append.2 ⟨fun t ht => ?_, fun t ht => ?_⟩
    · obtain ⟨before, after, h⟩ := List.append_of_mem ht
      exact (hallowed h).2.1
    · obtain hclosing | ⟨line, hclosing, hline⟩ := closingLine_cases stop ts
      · rw [hclosing] at ht
        cases ht
      · rw [hclosing] at ht
        rw [List.mem_singleton.1 ht, hline]
        exact nofun
  · refine getLast?_closingLine stop fun hnil => hbody ?_
    rw [hnil]
    rfl
  · intro before t after h
    have h : ts ++ (closingLine stop ts ++ [_]) = before ++ t :: after :=
      (List.append_assoc ..).symm.trans h
    rcases List.append_eq_append_iff.1 h with ⟨between, -, hclosing⟩ | ⟨between, hbefore, hafter⟩
    · obtain ⟨hindent, hnewline⟩ := kind_of_closing stop ts rfl hclosing
      exact ⟨fun hk => absurd hk hindent, fun hk => .inr (hnewline hk)⟩
    cases between with
    | nil =>
      have hclosing : closingLine stop ts ++ [_] = [] ++ t :: after := hafter.symm
      obtain ⟨hindent, hnewline⟩ := kind_of_closing stop ts rfl hclosing
      exact ⟨fun hk => absurd hk hindent, fun hk => .inr (hnewline hk)⟩
    | cons u between =>
      obtain ⟨rfl, -⟩ := List.cons.inj hafter
      obtain ⟨hall, -, hindent, hnewline⟩ := hallowed hbefore
      have hdepth : (before.foldl Stand.after .lineStart).depth = openBrackets before :=
        Stand.depth_foldl_after hall
      refine ⟨fun hk => ?_, fun hk => .inl (hdepth ▸ hnewline hk)⟩
      have hstart := hindent hk
      rw [hstart] at hdepth
      exact ⟨hdepth.symm, (Stand.lineStart_foldl_after hstart).imp_left And.left⟩

end ScriptBridge
