import ScriptBridge.Proofs.Script.IndentedLines

/-! Blanks and comments at the end of a line. A cut of a text without carriage returns sees at
most one character behind the text, and to it a blank or the mark of a comment is what the line
end is. What is left when only blanks and a comment are left is blank matter, with more of it
or without.
Proved: blanks and a comment in front of a line end change neither the tokens nor the faults of
a text but for their places, if nothing before them is at fault. -/

namespace ScriptBridge

variable {c e : Char} {cs ds : List Char}

/-- Blanks, and perhaps a comment behind them. -/
inductive Trailing : List Char → Prop where
  | none : Trailing []
  | blank {c : Char} {cs : List Char} (hc : Cut.isBlank c) (h : Trailing cs) : Trailing (c :: cs)
  | comment {text : List Char} (h : '\n' ∉ text) : Trailing ('#' :: text)

namespace Trailing

theorem notMem (h : Trailing cs) : '\n' ∉ cs := by
  induction h with
  | none => exact List.not_mem_nil
  | @blank c cs hc _ ih =>
    have hn : '\n' ≠ c := by
      rintro rfl
      exact absurd hc (by decide)
    simp [hn, ih]
  | comment h => simp [h]

theorem append (h : Trailing cs) (k : Trailing ds) : Trailing (cs ++ ds) := by
  induction h with
  | none => exact k
  | blank hc _ ih => exact .blank hc ih
  | comment h => exact .comment (by simp [h, k.notMem])

/-- What is trailing begins with an end, and so does the line end behind it. -/
theorem exists_cons (h : Trailing cs) (back : List Char) :
    ∃ e ∈ Cut.ends, ∃ more, cs ++ '\n' :: back = e :: more := by
  cases h with
  | none => exact ⟨'\n', by decide, back, rfl⟩
  | @blank c cs hc _ =>
    refine ⟨c, ?_, _, rfl⟩
    by_contra h
    exact Cut.isBlank_of_notMem_ends h hc
  | comment => exact ⟨'#', by decide, _, rfl⟩

end Trailing

namespace Cut

/-! ### Blank matter in front of a line end -/

theorem dropWhile_lineEnd (h : '\n' ∉ cs) (back : List Char) :
    (cs ++ '\n' :: back).dropWhile (· != '\n') = '\n' :: back := by
  have hcs : ∀ c ∈ cs, (c != '\n') = true := fun c hc => bne_iff_ne.2 fun hn => h (hn ▸ hc)
  rw [List.dropWhile_append_of_pos hcs]
  rfl

/-- Up to its line end such a line is margin. -/
theorem margin_trailing (h : Trailing cs) (back : List Char) :
    (margin (cs ++ '\n' :: back)).2 = '\n' :: back := by
  induction h with
  | none => rfl
  | @blank c cs hc _ ih =>
    rw [List.cons_append, margin, List.dropWhile_cons_of_pos hc]
    exact ih
  | @comment text h =>
    have hdrop : ('#' :: text ++ '\n' :: back).dropWhile (· != '\n') = '\n' :: back :=
      dropWhile_lineEnd (by simp [h]) back
    have hcomment : (comment ('#' :: text ++ '\n' :: back)).2 = '\n' :: back := hdrop
    have hblank : ('#' :: text ++ '\n' :: back).dropWhile isBlank =
        '#' :: text ++ '\n' :: back := rfl
    rw [margin, hblank, hcomment]
    rfl

end Cut

/-- A line of margin is taken with its line end. -/
theorem views_of_margin {back : List Char} (h : (Cut.margin cs).2 = '\n' :: back) :
    views .lineStart cs = views .lineStart back := by
  have hcs : cs ≠ [] := by
    rintro rfl
    cases h
  rw [views_atLineStart hcs, Cut.atLineStart, h]
  rfl

theorem views_isBlank (depth : Nat) (hc : Cut.isBlank c) (cs : List Char) :
    views (.inLine depth) (c :: cs) = views (.inLine depth) cs := by
  rcases (by simpa [Cut.isBlank] using hc : c = ' ' ∨ c = '\t') with rfl | rfl
  · exact views_blank depth cs
  · rw [views_inLine]
    rfl

theorem views_comment (depth : Nat) (cs : List Char) :
    views (.inLine depth) ('#' :: cs) = views (.inLine depth) (cs.dropWhile (· != '\n')) := by
  rw [views_inLine]
  rfl

/-- In front of a line end, blanks and a comment yield nothing. -/
theorem views_trailing (h : Trailing cs) (stand : Stand) (back : List Char) :
    views stand (cs ++ '\n' :: back) = views stand ('\n' :: back) := by
  cases stand with
  | lineStart =>
    have hline : views .lineStart ('\n' :: back) = views .lineStart back := views_of_margin rfl
    rw [views_of_margin (Cut.margin_trailing h back), hline]
  | inLine depth =>
    induction h with
    | none => rfl
    | blank hc _ ih => rw [List.cons_append, views_isBlank depth hc, ih]
    | comment h => rw [List.cons_append, views_comment, Cut.dropWhile_lineEnd h]

/-! ### Cuts before it -/

/-- A line that holds more than that has a first character. -/
theorem exists_first_of_not_trailing (hn : '\n' ∉ cs) (hr : '\r' ∉ cs) (h : ¬ Trailing cs) :
    ∃ blanks d rest, cs = blanks ++ d :: rest ∧ (∀ b ∈ blanks, Cut.isBlank b) ∧ d ∉ Cut.ends := by
  induction cs with
  | nil => exact absurd .none h
  | cons c cs ih =>
    simp only [List.mem_cons, not_or] at hn hr
    by_cases hc : Cut.isBlank c
    · obtain ⟨blanks, d, rest, rfl, hblanks, hd⟩ := ih hn.2 hr.2 fun ht => h (.blank hc ht)
      exact ⟨c :: blanks, d, rest, rfl, List.forall_mem_cons.2 ⟨hc, hblanks⟩, hd⟩
    · have hmark : c ≠ '#' := by
        rintro rfl
        exact h (.comment hn.2)
      have hblank : c ≠ ' ' ∧ c ≠ '\t' := by simpa [Cut.isBlank] using hc
      refine ⟨[], c, cs, rfl, by simp, ?_⟩
      simp [Cut.ends, Ne.symm hn.1, Ne.symm hr.1, hmark, hblank]

namespace Cut

/-- What stands behind the first character of a line is not seen by the cut that enters it. -/
theorem atLineStart_before (hr : '\r' ∉ cs) (h : ¬ Trailing cs) (more : List Char) :
    atLineStart (cs ++ more) = (atLineStart cs).before more := by
  by_cases hn : '\n' ∈ cs
  · exact atLineStart_append_of_mem hn more
  · obtain ⟨blanks, d, rest, rfl, hblanks, hd⟩ := exists_first_of_not_trailing hn hr h
    rw [List.append_assoc, List.cons_append, atLineStart_append blanks hblanks hd,
      atLineStart_append blanks hblanks hd]
    rfl

namespace Choice

theorem eq_of_comment (h : ofChars c cs = comment) : c = '#' := by
  unfold ofChars at h
  split_ifs at h with _ _ hc
  exact beq_iff_eq.1 hc

/-- To the choice of a cut, an end behind the text is what the end of the text is. Only a
backslash looks for a line end. -/
theorem ofChars_end (hr : '\r' ∉ cs) (hc : c = '\\' → cs ≠ []) (he : e ∈ ends)
    (more : List Char) : ofChars c (cs ++ e :: more) = ofChars c cs := by
  match cs with
  | [] =>
    have hbackslash : (c == '\\') = false := beq_eq_false_iff_ne.2 fun h => hc h rfl
    simp [ofChars, hbackslash, isQuote_of_mem_ends he, isDigit_of_mem_ends he]
  | d :: ds =>
    have hd : ('\r' == d) = false := beq_eq_false_iff_ne.2 fun h => hr (h ▸ List.mem_cons_self)
    simp only [ofChars, List.cons_append, List.head?_cons, List.isPrefixOf_cons_cons,
      List.isPrefixOf_nil_left, hd, Bool.false_and]
    rfl

end Choice

/-- Inside a line, a cut that takes nothing broken sees no more of what stands behind the text
than that it begins with an end. -/
theorem inLine_end (depth : Nat) (hr : '\r' ∉ cs) (h : ¬ Trailing (c :: cs))
    (hb : ∀ p ∈ (inLine depth c cs).pieces, p.isBroken = false) (he : e ∈ ends)
    (more : List Char) : inLine depth c (cs ++ e :: more) = (inLine depth c cs).before (e :: more) := by
  by_cases hc : c = '\n'
  · subst hc
    cases depth <;> rfl
  -- A backslash at the end of the text is a fault.
  have hbackslash : c = '\\' → cs ≠ [] := by
    rintro rfl rfl
    exact absurd (hb _ (List.mem_singleton.2 rfl)) (by decide)
  have hcomment : Choice.ofChars c cs = .comment → '\n' ∈ cs := fun hk => by
    by_contra hn
    obtain rfl := Choice.eq_of_comment hk
    exact h (.comment hn)
  exact inLine_before depth hc (.inr ⟨e, rfl, he⟩) (Choice.ofChars_end hr hbackslash he more)
    hcomment hb

end Cut

/-! ### The whole text -/

/-- A text without carriage returns and without a fault yields the same before a line end with
blanks and a comment in front as before the line end alone. -/
theorem views_append_trailing (stand : Stand) (hr : '\r' ∉ cs)
    (hb : ∀ p ∈ (cutAll stand cs).1, p.isBroken = false) (ht : Trailing ds) (back : List Char) :
    views stand (cs ++ (ds ++ '\n' :: back)) = views stand (cs ++ '\n' :: back) := by
  obtain ⟨e, he, more, hmore⟩ := ht.exists_cons back
  -- The induction follows the cuts up to where nothing but blanks and a comment is left.
  have hleft {cs : List Char} (h : Trailing cs) (stand : Stand) :
      views stand (cs ++ (ds ++ '\n' :: back)) = views stand (cs ++ '\n' :: back) := by
    rw [← List.append_assoc, views_trailing (h.append ht), views_trailing h]
  fun_induction cutAll stand cs with
  | case1 stand => exact hleft .none stand
  | case2 c cs k r ih =>
    by_cases h : Trailing (c :: cs)
    · exact hleft h _
    have hk (more : List Char) : Cut.atLineStart (c :: cs ++ more) = k.before more :=
      Cut.atLineStart_before hr h more
    have hrest : '\r' ∉ k.rest := Cut.not_mem_rest (Cut.text_atLineStart (c :: cs)) hr
    have ih := ih hrest fun p hp => hb p (List.mem_append_right _ hp)
    rw [views_atLineStart (by simp), views_atLineStart (by simp), hk, hk]
    exact congrArg _ ih
  | case3 depth c cs k r ih =>
    by_cases h : Trailing (c :: cs)
    · exact hleft h _
    have hcs : '\r' ∉ cs := fun hmem => hr (List.mem_cons_of_mem c hmem)
    have hk {e : Char} (he : e ∈ Cut.ends) (more : List Char) :
        Cut.inLine depth c (cs ++ e :: more) = k.before (e :: more) :=
      Cut.inLine_end depth hcs h (fun p hp => hb p (List.mem_append_left _ hp)) he more
    have hrest : '\r' ∉ k.rest := Cut.not_mem_rest (Cut.text_inLine depth c cs) hr
    have ih := ih hrest fun p hp => hb p (List.mem_append_right _ hp)
    rw [hmore] at ih ⊢
    rw [List.cons_append, List.cons_append, views_inLine, views_inLine, hk he,
      hk (by decide : '\n' ∈ Cut.ends)]
    exact congrArg _ ih

namespace Lexed

/-- Blanks and a comment in front of a line end change neither tokens nor faults. -/
theorem ofText_trailing {front trailing : String} (hr : '\r' ∉ front.toList)
    (hfaultless : (ofText front).faults = []) (ht : Trailing trailing.toList) (back : String) :
    bareTokens (ofText (front ++ trailing ++ "\n" ++ back)).tokens =
        bareTokens (ofText (front ++ "\n" ++ back)).tokens ∧
      (ofText (front ++ trailing ++ "\n" ++ back)).faults.map LocatedFault.fault =
        (ofText (front ++ "\n" ++ back)).faults.map LocatedFault.fault := by
  have hviews : views .lineStart (front ++ trailing ++ "\n" ++ back).toList =
      views .lineStart (front ++ "\n" ++ back).toList := by
    simp only [String.toList_append, List.append_assoc]
    exact views_append_trailing .lineStart hr (isBroken_of_layOut hfaultless) ht back.toList
  rw [bareTokens_ofText, bareTokens_ofText, map_fault_ofText, map_fault_ofText, hviews]
  exact ⟨rfl, rfl⟩

/-- A number that ends with its point, within open brackets, in front of a comment that holds a
quote and a carriage return. -/
theorem ofText_trailing_openBracket :
    let front := "var x = [1."
    let trailing := "\t # \" \r"
    let back := "]"
    '\r' ∉ front.toList ∧ (ofText front).faults = [] ∧ Trailing trailing.toList ∧
      bareTokens (ofText (front ++ trailing ++ "\n" ++ back)).tokens =
        bareTokens (ofText (front ++ "\n" ++ back)).tokens ∧
      (ofText (front ++ trailing ++ "\n" ++ back)).faults.map LocatedFault.fault =
        (ofText (front ++ "\n" ++ back)).faults.map LocatedFault.fault := by
  intro front trailing back
  have hr : '\r' ∉ front.toList := by decide +kernel
  have hfaultless : (ofText front).faults = [] := by cbv
  have htext : trailing.toList = ['\t', ' ', '#', ' ', '"', ' ', '\r'] := by decide +kernel
  have ht : Trailing trailing.toList :=
    htext ▸ .blank rfl (.blank rfl (.comment (by decide)))
  exact ⟨hr, hfaultless, ht, ofText_trailing hr hfaultless ht back⟩

end Lexed

end ScriptBridge
