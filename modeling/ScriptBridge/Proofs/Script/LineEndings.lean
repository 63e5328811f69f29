import Mathlib
import ScriptBridge.Proofs.Script.CarriageReturns
import ScriptBridge.Proofs.Script.IndentedLines

/-! Line ends of two characters. A carriage return is blank matter in a line and in its margin,
and in a literal it is content. Proved: writing each line end with a carriage return changes
neither the tokens nor the faults of a text nor whether it declares a class, and only the texts
of literals, if no literal in one pair of marks runs over a line end. -/

namespace ScriptBridge

variable {c : Char} {cs rest rest' : List Char}

/-! ### Carriage returns in a line -/

theorem views_return (depth : Nat) (cs : List Char) :
    views (.inLine depth) ('\r' :: cs) = views (.inLine depth) cs := by
  rw [views_inLine]
  rfl

theorem Resumes.views_eq (h : Resumes rest rest') (depth : Nat) :
    views (.inLine depth) rest' = views (.inLine depth) (crlf rest) := by
  rcases h with rfl | ⟨more, rfl, rfl⟩
  · rfl
  · rw [crlf_lineFeed, views_return]

/-- A carriage return before the first character of a text is taken by itself. -/
theorem views_crlf_cons (depth : Nat) (c : Char) (cs : List Char) :
    views (.inLine depth) (crlf (c :: cs)) = views (.inLine depth) (c :: crlf cs) := by
  by_cases hc : c = '\n'
  · subst hc
    exact views_return depth _
  · rw [crlf_cons hc]

namespace Cut

/-! ### Cuts -/

/-- Two cuts that yield the same but for the line ends in literals, and from whose rests the
same is cut. -/
structure Agrees (k k' : Cut) : Prop where
  pieces : List.Forall₂ (fun p p' => Option.Rel Returns p.view p'.view) k.pieces k'.pieces
  stand : k'.stand = k.stand
  rest : views k.stand k'.rest = views k.stand (crlf k.rest)

theorem one_agrees (depth : Nat) {p p' : Piece × List Char}
    (hp : Option.Rel Returns p.1.view p'.1.view) (hr : Resumes p.2 p'.2) :
    Agrees (one depth p) (one depth p') where
  pieces := .cons hp .nil
  stand := rfl
  rest := hr.views_eq depth

/-- A piece of one line that is no literal is the same in both spellings. -/
theorem rel_self {p : Piece} (hk : ∀ a t b, p ≠ .token .text a t b) (h : '\n' ∉ p.source) :
    Option.Rel Returns p.view p.view := by
  cases p with
  | gap => exact .none
  | lineEnd => exact .some (.same nofun (by decide))
  | token kind a t b =>
    refine .some (.same ?_ ?_)
    · rintro rfl
      exact hk a t b rfl
    · rw [String.toList_ofList]
      exact fun ht => h (by simp [Piece.source, ht])
  | broken fault source => exact .some (.fault fault)

/-- A reader to which a line end is the end of the text cuts both spellings alike. -/
theorem StopsAtEnd.agrees {read : List Char → Piece × List Char} (h : StopsAtEnd read)
    (front : List Char) (hs : ∀ cs, (read cs).1.source ++ (read cs).2 = front ++ cs)
    (hfront : '\n' ∉ front) (hk : ∀ cs a t b, (read cs).1 ≠ .token .text a t b) (depth : Nat)
    (cs : List Char) : Agrees (one depth (read cs)) (one depth (read (crlf cs))) := by
  have hrest (cs : List Char) (hn : '\n' ∉ cs) : '\n' ∉ (read cs).2 := by
    have happend : '\n' ∉ front ++ cs := by simp [hfront, hn]
    rw [← hs cs, List.mem_append, not_or] at happend
    exact happend.2
  have hread := h.read_crlf hrest cs
  have hsource := hs (crlf cs)
  rw [hread] at hsource ⊢
  have hline : '\n' ∉ (read cs).1.source := lineFeed_notMem (hs cs) hsource hfront
  exact one_agrees depth (rel_self (hk cs) hline) (.inl rfl)

theorem ne_text_of_isPlain {kind : TokenKind} (h : kind.IsPlain) (text a t b : List Char) :
    Piece.plain kind text ≠ .token .text a t b := by
  rintro heq
  cases heq
  exact h

theorem tag_ne_text (cs a t b : List Char) : (tag cs).1 ≠ .token .text a t b := by
  unfold tag
  split <;> exact nofun

theorem punctuation_agrees (depth : Nat) (hc : c ≠ '\n') (cs : List Char) :
    Agrees (punctuation depth c cs) (punctuation depth c (crlf cs)) := by
  have hone : '\n' ∉ [c] := by simpa using hc.symm
  have hmark := mark?_crlf hc cs
  unfold punctuation
  cases opening? c with
  | some b => exact ⟨.cons (rel_self nofun hone) .nil, rfl, rfl⟩
  | none =>
    cases closing? c with
    | some b => exact ⟨.cons (rel_self nofun hone) .nil, rfl, rfl⟩
    | none =>
      cases hm : mark? c cs with
      | some m =>
        rw [hm, Option.map_some] at hmark
        rw [hmark]
        have hsource : m.2.1 ++ m.2.2 = [c] ++ cs := mark?_source hm
        have hcrlf : m.2.1 ++ crlf m.2.2 = [c] ++ crlf cs := mark?_source hmark
        have hline : '\n' ∉ m.2.1 := lineFeed_notMem hsource hcrlf hone
        refine one_agrees depth (rel_self (ne_text_of_isPlain (mark?_isPlain hm) _) ?_) (.inl rfl)
        rwa [source_plain]
      | none =>
        rw [hm, Option.map_none] at hmark
        rw [hmark]
        exact one_agrees depth (.some (.fault _)) (.inl rfl)

/-! ### The choice of a cut -/

namespace Choice

/-- The choice in the spelling with carriage returns. -/
def returned : Choice → Choice
  | join _ => join 2
  | choice => choice

theorem ofChars_crlf (hr : '\r' ∉ cs) (c : Char) :
    ofChars c (crlf cs) = (ofChars c cs).returned := by
  have hline : ['\n'].isPrefixOf (crlf cs) = false := by
    refine Bool.eq_false_iff.2 fun h => ?_
    obtain ⟨rest, hrest⟩ := List.isPrefixOf_iff_prefix.1 h
    exact crlf_ne_lineFeed_cons cs rest hrest.symm
  have hquote : ((crlf cs).head?.map isQuote).getD false = (cs.head?.map isQuote).getD false :=
    head?_crlf (by decide) (by decide) cs
  have hdigit : ((crlf cs).head?.map Char.isDigit).getD false =
      (cs.head?.map Char.isDigit).getD false := head?_crlf (by decide) (by decide) cs
  unfold ofChars
  simp only [hline, isPrefixOf_crlf_lineEnd hr, isPrefixOf_return hr, hquote, hdigit,
    Bool.and_false, apply_ite returned]
  rfl

/-- A text without carriage returns is continued behind a line feed. -/
theorem eq_lineFeed_cons_of_join {n : Nat} (hr : '\r' ∉ cs) (h : ofChars c cs = join n) :
    n = 1 ∧ ∃ more, cs = '\n' :: more := by
  unfold ofChars at h
  simp only [isPrefixOf_return hr, Bool.and_false, Bool.false_eq_true, if_false] at h
  split_ifs at h with _ _ _ hjoin
  obtain ⟨more, hmore⟩ := List.isPrefixOf_iff_prefix.1 (Bool.and_eq_true_iff.1 hjoin).2
  exact ⟨(join.inj h).symm, more, hmore.symm⟩

end Choice

theorem dropWhile_resumes (cs : List Char) :
    Resumes (cs.dropWhile (· != '\n')) ((crlf cs).dropWhile (· != '\n')) := by
  induction cs with
  | nil => exact .inl rfl
  | cons c cs ih =>
    by_cases hc : c = '\n'
    · subst hc
      exact .inr ⟨cs, rfl, rfl⟩
    · have hne : (c != '\n') = true := bne_iff_ne.2 hc
      rw [crlf_cons hc, List.dropWhile_cons, List.dropWhile_cons, if_pos hne, if_pos hne]
      exact ih

/-- Inside a line both spellings are cut alike. -/
theorem inLine_agrees (depth : Nat) (hr : '\r' ∉ cs)
    (hw : ∀ p ∈ (inLine depth c cs).pieces, p.wraps = false) :
    Agrees (inLine depth c cs) (inLine depth c (crlf cs)) := by
  by_cases hc : c = '\n'
  · subst hc
    cases depth with
    | zero => exact ⟨.cons (.some (.same nofun (by decide))) .nil, rfl, rfl⟩
    | succ depth => exact ⟨.cons .none .nil, rfl, rfl⟩
  have hfits := Choice.ofChars_fits c cs
  rw [inLine_eq_cut] at hw
  rw [inLine_eq_cut, inLine_eq_cut, Choice.ofChars_crlf hr]
  cases hk : Choice.ofChars c cs with rw [hk] at hfits hw
  | lineEnd => exact absurd hfits hc
  | blank => exact one_agrees depth .none (.inl rfl)
  | comment => exact one_agrees depth .none (dropWhile_resumes cs)
  | join n =>
    obtain ⟨rfl, more, rfl⟩ := Choice.eq_lineFeed_cons_of_join hr hk
    exact one_agrees depth .none (.inl rfl)
  | rawText =>
    obtain ⟨quote, rest, rfl, hq⟩ := hfits
    have hn : quote ≠ '\n' := by
      rintro rfl
      exact absurd hq (by decide)
    have hw := hw _ (List.mem_cons_of_mem _ List.mem_cons_self)
    obtain ⟨hp, hrest⟩ := textLiteral_crlf true hq hw
    rw [crlf_cons hn]
    exact ⟨.cons .none (.cons hp .nil), rfl, hrest.views_eq depth⟩
  | word =>
    have hk (cs a t b : List Char) : (word cs).1 ≠ .token .text a t b :=
      ne_text_of_isPlain (word_isPlain cs) _ a t b
    have h := word_stopsAtEnd.agrees [] word_source (by simp) hk depth (c :: cs)
    rwa [crlf_cons hc] at h
  | numeral =>
    have hk (cs a t b : List Char) : (numeral cs).1 ≠ .token .text a t b :=
      ne_text_of_isPlain (number_isPlain cs) _ a t b
    have h := numeral_stopsAtEnd.agrees [] numeral_source (by simp) hk depth (c :: cs)
    rwa [crlf_cons hc] at h
  | text =>
    obtain ⟨hp, hrest⟩ := textLiteral_crlf false hfits (hw _ (List.mem_singleton.2 rfl))
    exact one_agrees depth hp hrest
  | tag => exact tag_stopsAtEnd.agrees ['@'] tag_source (by decide) tag_ne_text depth cs
  | sign => exact punctuation_agrees depth hc cs

theorem comment_resumes (cs : List Char) : Resumes (comment cs).2 (comment (crlf cs)).2 := by
  match cs with
  | [] => exact .inl rfl
  | c :: cs =>
    by_cases hc : c = '#'
    · subst hc
      exact dropWhile_resumes ('#' :: cs)
    · left
      by_cases hn : c = '\n'
      · subst hn
        rfl
      · rw [crlf_cons hn]
        simp [comment, hc, crlf_cons hn]

/-- The carriage return of a line end is taken with the margin before it. -/
theorem carriageReturn_of_resumes (h : Resumes rest rest') :
    (carriageReturn rest').2 = (carriageReturn (crlf rest)).2 := by
  rcases h with rfl | ⟨more, rfl, rfl⟩ <;> rfl

theorem carriageReturn_of_ne {d : Char} (hd : d ≠ '\r') (ds : List Char) :
    carriageReturn (d :: ds) = ([], d :: ds) := by
  simp [carriageReturn, hd]

theorem mem_of_mem_margin {d : Char} (h : d ∈ (margin cs).2) : d ∈ cs := by
  rw [← margin_source cs]
  exact List.mem_append_right _ h

/-- What a margin leaves of the spelling with carriage returns. -/
theorem margin_crlf (hr : '\r' ∉ cs) :
    (margin (crlf cs)).2 = (carriageReturn (crlf (margin cs).2)).2 := by
  have hbody : '\r' ∉ (comment (cs.dropWhile isBlank)).2 := fun h => by
    have hsource := comment_source (cs.dropWhile isBlank)
    have hmem : '\r' ∈ cs.dropWhile isBlank := hsource ▸ List.mem_append_right _ h
    exact hr ((List.dropWhile_sublist isBlank).mem hmem)
  have hself : (carriageReturn (comment (cs.dropWhile isBlank)).2).2 =
      (comment (cs.dropWhile isBlank)).2 := by
    cases hd : (comment (cs.dropWhile isBlank)).2 with
    | nil => rfl
    | cons d ds =>
      rw [hd] at hbody
      rw [carriageReturn_of_ne fun h => hbody (h ▸ List.mem_cons_self)]
  simp only [margin]
  rw [dropWhile_crlf (by decide) (by decide), carriageReturn_of_resumes (comment_resumes _), hself]

theorem enter_of_ne {d : Char} (hd : d ≠ '\n') (indented : Bool) (margin ds : List Char) :
    enter indented margin (d :: ds) =
      ⟨[if indented then .token .indent margin [] [] else .gap margin], .inLine 0, d :: ds⟩ := by
  simp [enter, hd]

theorem enter_agrees (indented : Bool) (margin margin' : List Char) (hr : '\r' ∉ cs) :
    Agrees (enter indented margin cs)
      (enter indented margin' (carriageReturn (crlf cs)).2) := by
  match cs with
  | [] => exact ⟨.cons .none .nil, rfl, rfl⟩
  | d :: ds =>
    by_cases hn : d = '\n'
    · subst hn
      exact ⟨.cons .none .nil, rfl, rfl⟩
    · have hd : d ≠ '\r' := fun h => hr (h ▸ List.mem_cons_self)
      rw [crlf_cons hn, carriageReturn_of_ne hd, enter_of_ne hn, enter_of_ne hn]
      refine ⟨.cons ?_ .nil, rfl, ?_⟩
      · cases indented with
        | true => exact .some (.same nofun (by decide))
        | false => exact .none
      · rw [crlf_cons hn]

theorem atLineStart_agrees (hr : '\r' ∉ cs) : Agrees (atLineStart cs) (atLineStart (crlf cs)) := by
  have hrest : '\r' ∉ (margin cs).2 := fun h => hr (mem_of_mem_margin h)
  rw [atLineStart, atLineStart, takeWhile_crlf (by decide) (by decide), margin_crlf hr]
  exact enter_agrees _ _ _ hrest

end Cut

/-! ### The whole text -/

theorem forall₂_views {ps ps' : List Piece}
    (h : List.Forall₂ (fun p p' => Option.Rel Returns p.view p'.view) ps ps') :
    List.Forall₂ Returns (ps.filterMap Piece.view) (ps'.filterMap Piece.view) := by
  induction h with
  | nil => exact .nil
  | @cons p p' ps ps' hp _ ih =>
    rw [List.filterMap_cons, List.filterMap_cons]
    generalize p.view = v at hp
    generalize p'.view = v' at hp
    cases hp with
    | none => exact ih
    | some hv => exact .cons hv ih

/-- Both spellings of a text without carriage returns yield the same but for the line ends in
literals. -/
theorem views_returns (stand : Stand) (hr : '\r' ∉ cs)
    (hw : ∀ p ∈ (cutAll stand cs).1, p.wraps = false) :
    List.Forall₂ Returns (views stand cs) (views stand (crlf cs)) := by
  fun_induction cutAll stand cs with
  | case1 stand =>
    rw [views, views, crlf_nil, cutAll]
    exact .nil
  | case2 c cs k r ih =>
    have hk : Cut.Agrees k (Cut.atLineStart (crlf (c :: cs))) := Cut.atLineStart_agrees hr
    have hrest : '\r' ∉ k.rest := Cut.not_mem_rest (Cut.text_atLineStart (c :: cs)) hr
    have hcrlf : crlf (c :: cs) ≠ [] := mt crlf_eq_nil_iff.1 (List.cons_ne_nil c cs)
    rw [views_atLineStart (List.cons_ne_nil c cs), views_atLineStart hcrlf, hk.stand, hk.rest]
    exact List.rel_append (forall₂_views hk.pieces)
      (ih hrest fun p hp => hw p (List.mem_append_right _ hp))
  | case3 depth c cs k r ih =>
    have hcs : '\r' ∉ cs := fun h => hr (List.mem_cons_of_mem c h)
    have hk : Cut.Agrees k (Cut.inLine depth c (crlf cs)) :=
      Cut.inLine_agrees depth hcs fun p hp => hw p (List.mem_append_left _ hp)
    have hrest : '\r' ∉ k.rest := Cut.not_mem_rest (Cut.text_inLine depth c cs) hr
    rw [views_crlf_cons, views_inLine, views_inLine, hk.stand, hk.rest]
    exact List.rel_append (forall₂_views hk.pieces)
      (ih hrest fun p hp => hw p (List.mem_append_right _ hp))

/-! ### The class of the text -/

/-- The respelling that writes line ends with carriage returns. -/
def Respelling.returns : Respelling where
  spell := crlfText
  spell_append a b := by
    rw [crlfText, String.toList_append, crlf_append, String.ofList_append]
    rfl
  spell_injective a b h := String.toList_inj.1 (crlf_injective (String.ofList_inj.1 h))
  spell_line h := by rw [crlfText, crlf_eq_self h, String.ofList_toList]

namespace Returns

variable {v v' : Token ⊕ Fault} {vs vs' : List (Token ⊕ Fault)}

/-- Only the texts of literals change. -/
theorem eq_map_returned (h : Returns v v') : v' = v.map Token.returned id := by
  cases h with
  | same hk =>
    rw [Sum.map_inl, Token.returned, if_neg hk]
  | text | fault => rfl

/-- Every text is respelled, because other texts hold no line end. -/
theorem eq_map_token (h : Returns v v') : v' = v.map Respelling.returns.token id := by
  cases h with
  | @same kind text hk h =>
    have htext : Respelling.returns.spell text = text := Respelling.returns.spell_line h
    rw [Sum.map_inl, Respelling.token, htext]
  | text | fault => rfl

theorem eq_map {f : Token → Token} (hf : ∀ {v v'}, Returns v v' → v' = v.map f id)
    (h : List.Forall₂ Returns vs vs') : vs' = vs.map (Sum.map f id) := by
  induction h with
  | nil => rfl
  | cons hv _ ih => rw [List.map_cons, ← hf hv, ← ih]

end Returns

/-! Views under a change of their tokens. -/

section

variable (f : Token → Token) (vs : List (Token ⊕ Fault))

theorem filterMap_getLeft?_map :
    (vs.map (Sum.map f id)).filterMap Sum.getLeft? = (vs.filterMap Sum.getLeft?).map f := by
  rw [List.filterMap_map, List.map_filterMap]
  congr 1
  funext v
  cases v <;> rfl

theorem filterMap_getRight?_map :
    (vs.map (Sum.map f id)).filterMap Sum.getRight? = vs.filterMap Sum.getRight? := by
  rw [List.filterMap_map]
  congr 1
  funext v
  cases v <;> rfl

/-- The tokens of a script under a change that keeps kinds and ends. -/
theorem script_map (hk : ∀ t, (f t).kind = t.kind)
    (hn : f { kind := .newline } = { kind := .newline }) (he : f .endOfFile = .endOfFile)
    (ts : List Token) :
    ts.map f ++ (closingLine {} (ts.map f) ++ [Token.endOfFile]) =
      (ts ++ (closingLine {} ts ++ [Token.endOfFile])).map f := by
  rw [closingLine_map f hk hn, List.map_append, List.map_append, List.map_singleton, he]

end

theorem Respelling.code_fault (φ : Respelling) (f : Fault) : (φ.fault f).code = f.code := by
  cases f <;> rfl

namespace ScriptClass

/-- The class of respelled views is respelled, and what is at fault has the same codes. -/
theorem ofViews_map_token (φ : Respelling) (path : String) (vs : List (Token ⊕ Fault)) :
    (ofViews path (vs.map (Sum.map φ.token id))).1 = (ofViews path vs).1.map φ.scriptClass ∧
      (ofViews path (vs.map (Sum.map φ.token id))).2.map Fault.code =
        (ofViews path vs).2.map Fault.code := by
  let ts := vs.filterMap Sum.getLeft?
  obtain ⟨c, hc⟩ : ∃ c, c = ofTokens path (ts ++ (closingLine {} ts ++ [Token.endOfFile])) :=
    ⟨_, rfl⟩
  have hline : φ.token { kind := .newline } = { kind := .newline } := by
    rw [Respelling.token, φ.spell_empty]
  have hread : ofTokens path
      (ts.map φ.token ++ (closingLine {} (ts.map φ.token) ++ [Token.endOfFile])) =
        (φ.scriptClass c.1, c.2.map φ.located) := by
    rw [script_map φ.token (fun _ => rfl) hline φ.token_endOfFile, hc]
    exact φ.ofTokens_tokens path _
  have hname : ((φ.scriptClass c.1).name != "") = (c.1.name != "") :=
    congrArg not (φ.spell_beq_empty c.1.name)
  have hcode (f : LocatedFault) : (φ.located f).fault.code = f.fault.code := φ.code_fault f.fault
  have hempty (fs : List Fault) : (fs ++ (c.2.map φ.located).map LocatedFault.fault).isEmpty =
      (fs ++ c.2.map LocatedFault.fault).isEmpty := by
    cases fs with
    | nil => simp only [List.nil_append, List.isEmpty_map]
    | cons => rfl
  simp only [ofViews, filterMap_getLeft?_map, filterMap_getRight?_map, ts] at hread hc ⊢
  rw [hread, ← hc]
  constructor
  · simp only [hname, hempty]
    split_ifs <;> rfl
  · simp only [List.map_append, List.map_map, Function.comp_def, hcode]

variable {source : String}

theorem ofViews_crlfText (path : String) (hr : '\r' ∉ source.toList)
    (hw : ∀ p ∈ (cutAll .lineStart source.toList).1, p.wraps = false) :
    (ofViews path (views .lineStart (crlfText source).toList)).1 =
        (ofViews path (views .lineStart source.toList)).1.map Respelling.returns.scriptClass ∧
      (ofViews path (views .lineStart (crlfText source).toList)).2.map Fault.code =
        (ofViews path (views .lineStart source.toList)).2.map Fault.code := by
  have h := views_returns .lineStart hr hw
  rw [crlfText, String.toList_ofList, Returns.eq_map Returns.eq_map_token h]
  exact ofViews_map_token Respelling.returns path _

/-- Writing each line end with a carriage return changes the texts of literals only. The class
is declared by both spellings or by neither, and the faults are the same. -/
theorem ofSource_crlfText (path : String) (hr : '\r' ∉ source.toList)
    (hw : ∀ p ∈ (cutAll .lineStart source.toList).1, p.wraps = false) :
    bareTokens (Lexed.ofText (crlfText source)).tokens =
        (bareTokens (Lexed.ofText source).tokens).map Token.returned ∧
      (Lexed.ofText (crlfText source)).faults.map LocatedFault.fault =
        (Lexed.ofText source).faults.map LocatedFault.fault ∧
      (ofSource path (crlfText source)).1.isSome = (ofSource path source).1.isSome ∧
      (ofSource path (crlfText source)).2.map (·.fault.code) =
        (ofSource path source).2.map (·.fault.code) := by
  have h := Returns.eq_map Returns.eq_map_returned (views_returns .lineStart hr hw)
  have hkind (t : Token) : t.returned.kind = t.kind := by
    unfold Token.returned
    split_ifs <;> rfl
  obtain ⟨hclass, hcodes⟩ := ofViews_crlfText path hr hw
  rw [← ofSource_eq_ofViews, ← ofSource_eq_ofViews] at hclass hcodes
  refine ⟨?_, ?_, ?_, ?_⟩
  · rw [bareTokens_ofText, bareTokens_ofText, crlfText, String.toList_ofList, h,
      filterMap_getLeft?_map]
    exact script_map Token.returned hkind rfl rfl _
  · rw [map_fault_ofText, map_fault_ofText, crlfText, String.toList_ofList, h,
      filterMap_getRight?_map]
  · have hsome := congrArg Option.isSome hclass
    simpa only [Option.isSome_map] using hsome
  · rw [List.map_map, List.map_map] at hcodes
    exact hcodes

/-- A literal in three marks runs over a line end in both spellings, and a backslash joins the
lines behind it. -/
theorem ofSource_crlfText_threeMarks :
    let source := "class_name A\nvar a = \"\"\"x\\\ny\"\"\" \\\n\t# z\n"
    '\r' ∉ source.toList ∧
      (∀ p ∈ (cutAll .lineStart source.toList).1, p.wraps = false) ∧
      bareTokens (Lexed.ofText (crlfText source)).tokens =
        (bareTokens (Lexed.ofText source).tokens).map Token.returned ∧
      (Lexed.ofText (crlfText source)).faults.map LocatedFault.fault =
        (Lexed.ofText source).faults.map LocatedFault.fault ∧
      (ofSource "" (crlfText source)).1.isSome = (ofSource "" source).1.isSome ∧
      (ofSource "" (crlfText source)).2.map (·.fault.code) =
        (ofSource "" source).2.map (·.fault.code) := by
  intro source
  have hr : '\r' ∉ source.toList := by decide +kernel
  have hall : ((cutAll .lineStart source.toList).1.all fun p => !p.wraps) = true := by cbv
  have hw : ∀ p ∈ (cutAll .lineStart source.toList).1, p.wraps = false := by
    simpa only [List.all_eq_true, Bool.not_eq_true'] using hall
  exact ⟨hr, hw, ofSource_crlfText "" hr hw⟩

/-- A literal in one pair of marks may run over a line feed behind a backslash, and it breaks
off at a line feed behind a backslash and a carriage return. -/
theorem ofSource_crlfText_oneMark :
    let source := "class_name A\nvar a = \"x\\\ny\"\n"
    '\r' ∉ source.toList ∧ (Lexed.ofText source).faults = [] ∧
      (Lexed.ofText (crlfText source)).faults.map LocatedFault.fault =
        [.unterminatedString, .unterminatedString] ∧
      (ofSource "" source).1.isSome ∧ (ofSource "" (crlfText source)).1 = none := by
  intro source
  have hfaults : (Lexed.ofText (crlfText source)).faults.map LocatedFault.fault =
      [.unterminatedString, .unterminatedString] := by cbv
  have hne : (Lexed.ofText (crlfText source)).faults ≠ [] := fun hnil => by
    rw [hnil] at hfaults
    cases hfaults
  refine ⟨by decide +kernel, by cbv, hfaults, by cbv, ?_⟩
  simp [ofSource, hne]

end ScriptClass

end ScriptBridge
