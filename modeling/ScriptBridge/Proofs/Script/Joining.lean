import ScriptBridge.Proofs.Script.Cutting
import ScriptBridge.Proofs.Script.LineBreaks

/-! Cutting whole lines. No piece but a text literal or a gap within brackets goes past a
line end, so what stands behind a text that ends a line is not seen by the cuts in it. A cut of
a text with an end behind it sees no more than that end.
Proved: if nothing in a text of whole lines is at fault, its pieces open every longer text, and
the rest is cut from the stand at which it ends. -/

namespace ScriptBridge

variable {c : Char} {cs more : List Char}

/-- Text that is no token. -/
def Piece.isBroken : Piece → Bool
  | broken .. => true
  | _ => false

namespace Cut

/-- A cut of a text with more text behind it. -/
def before (k : Cut) (more : List Char) : Cut := { k with rest := k.rest ++ more }

/-! ### Up to a line end -/

theorem takeWhile_append {p : Char → Bool} (hp : p '\n' = false) (h : '\n' ∈ cs)
    (more : List Char) : (cs ++ more).takeWhile p = cs.takeWhile p := by
  induction cs with
  | nil => exact absurd h List.not_mem_nil
  | cons c cs ih =>
    rw [List.cons_append, List.takeWhile_cons, List.takeWhile_cons]
    rcases List.mem_cons.1 h with rfl | h
    · rw [hp]
      rfl
    · rw [ih h]

theorem dropWhile_append {p : Char → Bool} (hp : p '\n' = false) (h : '\n' ∈ cs)
    (more : List Char) : (cs ++ more).dropWhile p = cs.dropWhile p ++ more := by
  induction cs with
  | nil => exact absurd h List.not_mem_nil
  | cons c cs ih =>
    rw [List.cons_append, List.dropWhile_cons, List.dropWhile_cons]
    rcases List.mem_cons.1 h with rfl | h
    · rw [hp]
      rfl
    · rw [ih h]
      split <;> rfl

theorem mem_dropWhile {p : Char → Bool} (hp : p '\n' = false) (h : '\n' ∈ cs) :
    '\n' ∈ cs.dropWhile p := by
  induction cs with
  | nil => exact absurd h List.not_mem_nil
  | cons c cs ih =>
    rw [List.dropWhile_cons]
    split_ifs with hc
    · refine ih ((List.mem_cons.1 h).resolve_left ?_)
      rintro rfl
      exact absurd hc (by simp [hp])
    · exact h

/-- A reader that leaves the line end of its text, and sees nothing behind it. -/
def StopsAtLine {α : Type} (read : List Char → α × List Char) : Prop :=
  ∀ cs, '\n' ∈ cs →
    '\n' ∈ (read cs).2 ∧ ∀ more, read (cs ++ more) = ((read cs).1, (read cs).2 ++ more)

/-! ### Text literals -/

/-- A prefix that has no line end but at its end is found in the first line or not at all. -/
theorem isPrefixOf_append {pre : List Char} (hpre : '\n' ∉ pre.dropLast) (h : '\n' ∈ cs)
    (more : List Char) : pre.isPrefixOf (cs ++ more) = pre.isPrefixOf cs := by
  induction pre generalizing cs with
  | nil => rfl
  | cons a pre ih =>
    match cs, h with
    | c :: cs, h =>
      cases pre with
      | nil => rfl
      | cons b pre =>
        rw [List.dropLast_cons_cons, List.mem_cons, not_or] at hpre
        rw [List.cons_append, List.isPrefixOf_cons_cons, List.isPrefixOf_cons_cons]
        by_cases hc : c = '\n'
        · have ha : (a == c) = false := beq_eq_false_iff_ne.2 fun hac => hpre.1 (hc ▸ hac.symm)
          rw [ha, Bool.false_and, Bool.false_and]
        · rw [ih hpre.2 (List.mem_of_ne_of_mem (Ne.symm hc) h)]

theorem isPrefixOf_append_of_le {pre : List Char} (h : pre.length ≤ cs.length)
    (more : List Char) : pre.isPrefixOf (cs ++ more) = pre.isPrefixOf cs := by
  rw [Bool.eq_iff_iff, List.isPrefixOf_iff_prefix, List.isPrefixOf_iff_prefix]
  refine ⟨fun hp => ?_, fun hp => hp.trans (List.prefix_append cs more)⟩
  exact List.prefix_of_prefix_length_le hp (List.prefix_append cs more) h

/-- A content that is closed is the same whatever stands behind its closing mark. -/
theorem content_append {mark : List Char} {raw : Bool} (hmark : mark ≠ [])
    (h : mark.isPrefixOf (content mark raw cs).2) (more : List Char) :
    content mark raw (cs ++ more) =
      ((content mark raw cs).1, (content mark raw cs).2 ++ more) := by
  -- A mark that is found later cannot lie across the end of the text.
  have hprefix {ds es : List Char} (hd : mark.isPrefixOf (content mark raw ds).2)
      (he : ds.length ≤ es.length) : mark.isPrefixOf (es ++ more) = mark.isPrefixOf es := by
    have hlength : mark.length ≤ (content mark raw ds).2.length :=
      (List.isPrefixOf_iff_prefix.1 hd).length_le
    have hds := content_length mark raw ds
    exact isPrefixOf_append_of_le (by omega) more
  have hnil : ¬ mark.isPrefixOf [] := fun hn =>
    hmark (List.prefix_nil.1 (List.isPrefixOf_iff_prefix.1 hn))
  fun_induction content mark raw cs with
  | case1 => exact absurd h hnil
  | case2 c cs hc =>
    have hp := isPrefixOf_append_of_le (List.isPrefixOf_iff_prefix.1 h).length_le more
    rw [← hp] at hc
    rw [List.cons_append] at hc ⊢
    exact content_stop hc
  | case3 => exact absurd h hnil
  | case4 c he d ds hc ih =>
    have hp : mark.isPrefixOf (c :: d :: ds ++ more) = mark.isPrefixOf (c :: d :: ds) :=
      hprefix h (by simp only [List.length_cons]; omega)
    rw [← hp] at hc
    rw [List.cons_append, List.cons_append] at hc ⊢
    rw [content_hidden hc he, ih h]
  | case5 c cs hc he ih =>
    have hp : mark.isPrefixOf (c :: cs ++ more) = mark.isPrefixOf (c :: cs) :=
      hprefix h (by simp)
    rw [← hp] at hc
    rw [List.cons_append] at hc ⊢
    rw [content_kept hc he, ih h]

/-- A prefix without an end is not completed by what stands behind a closed text. -/
theorem isPrefixOf_append_of_closedBy {pre : List Char} (hpre : ∀ a ∈ pre, a ∉ ends)
    (h : ClosedBy more cs) : pre.isPrefixOf (cs ++ more) = pre.isPrefixOf cs := by
  induction pre generalizing cs with
  | nil => rfl
  | cons a pre ih =>
    obtain ⟨ha, hpre⟩ := List.forall_mem_cons.1 hpre
    match cs, h with
    | [], .inr ⟨c, hc, hend⟩ =>
      obtain ⟨rest, rfl⟩ := List.head?_eq_some_iff.1 hc
      have hac : (a == c) = false := beq_eq_false_iff_ne.2 (ne_of_mem_ends hend ha).symm
      rw [List.nil_append, List.isPrefixOf_cons_cons, hac]
      rfl
    | c :: cs, h =>
      rw [List.cons_append, List.isPrefixOf_cons_cons, List.isPrefixOf_cons_cons]
      by_cases hc : c = '\n'
      · have hac : (a == c) = false := beq_eq_false_iff_ne.2 fun hac => ha (hac ▸ hc ▸ by decide)
        rw [hac, Bool.false_and, Bool.false_and]
      · rw [ih hpre (h.tail hc)]

theorem markOf_append {quote : Char} (hq : isQuote quote) (h : ClosedBy more cs) :
    markOf quote (cs ++ more) = markOf quote cs := by
  have hend : quote ∉ ends := fun hend => absurd hq (by simp [isQuote_of_mem_ends hend])
  rw [markOf, markOf, isPrefixOf_append_of_closedBy (by simp [hend]) h]

theorem textLiteral_append {raw : Bool} {quote : Char} (hq : isQuote quote)
    (h : ClosedBy more cs) (hb : (textLiteral raw quote cs).1.isBroken = false) :
    textLiteral raw quote (cs ++ more) =
      ((textLiteral raw quote cs).1, (textLiteral raw quote cs).2 ++ more) := by
  have hsource := congrArg List.length (markOf_append_drop quote cs)
  simp only [List.length_append, List.length_drop, List.length_cons] at hsource
  have hmark : markOf quote cs ≠ [] := by
    unfold markOf
    split_ifs <;> exact List.cons_ne_nil _ _
  by_cases hclosed : (markOf quote cs).isPrefixOf
      (content (markOf quote cs) raw (cs.drop ((markOf quote cs).length - 1))).2
  · have hlength := (List.isPrefixOf_iff_prefix.1 hclosed).length_le
    simp only [textLiteral, markOf_append hq h]
    rw [List.drop_append_of_le_length (by omega), content_append hmark hclosed,
      isPrefixOf_append_of_le hlength, if_pos hclosed, if_pos hclosed,
      List.drop_append_of_le_length hlength]
  · simp only [textLiteral, if_neg hclosed] at hb
    cases hb

/-! ### Signs -/

theorem mark?_append (h : ClosedBy more cs) :
    mark? c (cs ++ more) = (mark? c cs).map fun m => (m.1, m.2.1, m.2.2 ++ more) := by
  rcases h with h | ⟨d, hd, hend⟩
  · obtain ⟨front, rest, rfl⟩ := List.append_of_mem h
    rw [List.append_assoc, List.cons_append, mark?_end c front (by decide),
      mark?_end c front (by decide), Option.map_map]
    simp only [Function.comp_def, List.append_assoc, List.cons_append]
  · obtain ⟨rest, rfl⟩ := List.head?_eq_some_iff.1 hd
    exact mark?_end c cs hend rest

theorem punctuation_append (depth : Nat) (h : ClosedBy more cs) :
    punctuation depth c (cs ++ more) = (punctuation depth c cs).before more := by
  unfold punctuation
  rw [mark?_append h]
  cases opening? c with
  | some b => rfl
  | none =>
    cases closing? c with
    | some b => rfl
    | none => cases mark? c cs <;> rfl

/-! ### Cuts -/

theorem head?_append (h : '\n' ∈ cs) (more : List Char) : (cs ++ more).head? = cs.head? := by
  match cs, h with
  | _ :: _, _ => rfl

theorem Choice.ofChars_append (h : '\n' ∈ cs) (more : List Char) :
    Choice.ofChars c (cs ++ more) = Choice.ofChars c cs := by
  unfold Choice.ofChars
  rw [head?_append h, isPrefixOf_append (by decide) h, isPrefixOf_append (by decide) h]

/-- A cut that chooses the same with more text behind it takes the same, if it takes nothing
broken and an end stands there. A comment goes up to the next line end. -/
theorem inLine_before (depth : Nat) (hc : c ≠ '\n') (h : ClosedBy more cs)
    (hchoice : Choice.ofChars c (cs ++ more) = Choice.ofChars c cs)
    (hcomment : Choice.ofChars c cs = .comment → '\n' ∈ cs)
    (hb : ∀ p ∈ (inLine depth c cs).pieces, p.isBroken = false) :
    inLine depth c (cs ++ more) = (inLine depth c cs).before more := by
  have hfits := Choice.ofChars_fits c cs
  rw [inLine_eq_cut] at hb
  rw [inLine_eq_cut, inLine_eq_cut, hchoice]
  cases hk : Choice.ofChars c cs with rw [hk] at hfits hb
  | lineEnd => exact absurd hfits hc
  | blank => rfl
  | comment =>
    have hcs := hcomment hk
    simp only [Choice.cut]
    rw [takeWhile_append (by decide) hcs, dropWhile_append (by decide) hcs]
    rfl
  | join n =>
    have hn : n ≤ cs.length := hfits
    simp only [Choice.cut, List.take_append_of_le_length hn, List.drop_append_of_le_length hn]
    rfl
  | rawText =>
    obtain ⟨quote, rest, rfl, hq⟩ := hfits
    have hclosed : (textLiteral true quote rest).1.isBroken = false :=
      hb _ (by simp [Choice.cut])
    have hrest := h.tail (by rintro rfl; exact absurd hq (by decide))
    have hl := textLiteral_append hq hrest hclosed
    simp only [Choice.cut, List.cons_append, List.headD_cons, List.tail_cons, hl]
    rfl
  | word =>
    have hw := word_stopsAtEnd.append (h.cons c)
    rw [List.cons_append] at hw
    rw [Choice.cut, hw]
    rfl
  | numeral =>
    have hw := numeral_stopsAtEnd.append (h.cons c)
    rw [List.cons_append] at hw
    rw [Choice.cut, hw]
    rfl
  | text =>
    have hl := textLiteral_append hfits h (hb _ (List.mem_singleton.2 rfl))
    rw [Choice.cut, hl]
    rfl
  | tag =>
    rw [Choice.cut, tag_stopsAtEnd.append h]
    rfl
  | sign => exact punctuation_append depth h

/-- A cut that takes nothing broken from the text before a line end sees nothing behind it. -/
theorem inLine_append (depth : Nat) (h : '\n' ∈ c :: cs)
    (hb : ∀ p ∈ (inLine depth c cs).pieces, p.isBroken = false) (more : List Char) :
    inLine depth c (cs ++ more) = (inLine depth c cs).before more := by
  by_cases hc : c = '\n'
  · subst hc
    cases depth <;> rfl
  have hcs := List.mem_of_ne_of_mem (Ne.symm hc) h
  exact inLine_before depth hc (.inl hcs) (Choice.ofChars_append hcs more) (fun _ => hcs) hb

theorem comment_stopsAtLine : StopsAtLine comment := by
  intro cs h
  simp only [comment, head?_append h]
  split_ifs
  · refine ⟨mem_dropWhile (by decide) h, fun more => ?_⟩
    rw [takeWhile_append (by decide) h, dropWhile_append (by decide) h]
  · exact ⟨h, fun _ => rfl⟩

theorem carriageReturn_stopsAtLine : StopsAtLine carriageReturn := by
  intro cs h
  match cs, h with
  | c :: cs, h =>
    by_cases hc : c = '\r'
    · subst hc
      exact ⟨List.mem_of_ne_of_mem (by decide) h, fun _ => rfl⟩
    · simp [carriageReturn, hc, h]

theorem margin_stopsAtLine : StopsAtLine margin := by
  intro cs h
  have hblank : '\n' ∈ cs.dropWhile isBlank := mem_dropWhile (by decide) h
  obtain ⟨hc, hcomment⟩ := comment_stopsAtLine _ hblank
  obtain ⟨hr, hreturn⟩ := carriageReturn_stopsAtLine _ hc
  refine ⟨hr, fun more => ?_⟩
  simp only [margin]
  rw [takeWhile_append (by decide) h, dropWhile_append (by decide) h, hcomment, hreturn]

theorem enter_append (indented : Bool) (margin : List Char) (h : cs ≠ []) (more : List Char) :
    enter indented margin (cs ++ more) = (enter indented margin cs).before more := by
  match cs, h with
  | c :: cs, _ =>
    by_cases hc : c = '\n'
    · subst hc
      rfl
    · simp [enter, hc, before]

theorem atLineStart_append_of_mem (h : '\n' ∈ cs) (more : List Char) :
    atLineStart (cs ++ more) = (atLineStart cs).before more := by
  obtain ⟨hm, hmargin⟩ := margin_stopsAtLine cs h
  unfold atLineStart
  rw [takeWhile_append (by decide) h, hmargin, enter_append _ _ (List.ne_nil_of_mem hm)]

end Cut

/-! ### The whole text -/

/-- A text that is empty or ends with a line end. -/
def EndsLine (cs : List Char) : Prop := ∀ c ∈ cs.getLast?, c = '\n'

theorem endsLine_iff : cs.getLast?.all (· == '\n') = true ↔ EndsLine cs := by
  rw [EndsLine]
  cases cs.getLast? <;> simp

instance (cs : List Char) : Decidable (EndsLine cs) := decidable_of_iff _ endsLine_iff

theorem EndsLine.mem (h : EndsLine cs) (hcs : cs ≠ []) : '\n' ∈ cs := by
  have hl := List.getLast?_eq_some_getLast hcs
  have hc := h _ hl
  exact hc ▸ List.getLast_mem hcs

theorem EndsLine.of_append {front : List Char} (h : EndsLine (front ++ cs)) : EndsLine cs := by
  intro c hc
  refine h c ?_
  rw [List.getLast?_append, Option.mem_def.1 hc]
  rfl

/-- What a cut leaves of a text that ends with a line end. -/
theorem Cut.rest_endsLine {k : Cut} (hk : k.text = cs) (h : EndsLine cs) : EndsLine k.rest := by
  rw [← hk, Cut.text] at h
  exact h.of_append

/-- Whole lines without a fault are cut alike whatever stands behind them, and that is cut
from the stand at which they end. -/
theorem cutAll_append (stand : Stand) (h : EndsLine cs)
    (hb : ∀ p ∈ (cutAll stand cs).1, p.isBroken = false) (more : List Char) :
    cutAll stand (cs ++ more) =
      ((cutAll stand cs).1 ++ (cutAll (cutAll stand cs).2 more).1,
        (cutAll (cutAll stand cs).2 more).2) := by
  fun_induction cutAll stand cs with
  | case1 stand => rfl
  | case2 c cs k r ih =>
    have hk : Cut.atLineStart (c :: cs ++ more) = k.before more :=
      Cut.atLineStart_append_of_mem (h.mem (List.cons_ne_nil c cs)) more
    have hrest : EndsLine k.rest := Cut.rest_endsLine (Cut.text_atLineStart (c :: cs)) h
    have ih := ih hrest fun p hp => hb p (List.mem_append_right _ hp)
    rw [List.cons_append] at hk ⊢
    rw [cutAll, hk]
    simp only [Cut.before, ih, List.append_assoc]
    rfl
  | case3 depth c cs k r ih =>
    have hpieces : ∀ p ∈ k.pieces, p.isBroken = false :=
      fun p hp => hb p (List.mem_append_left _ hp)
    have hk : Cut.inLine depth c (cs ++ more) = k.before more :=
      Cut.inLine_append depth (h.mem (List.cons_ne_nil c cs)) hpieces more
    have hrest : EndsLine k.rest := Cut.rest_endsLine (Cut.text_inLine depth c cs) h
    have ih := ih hrest fun p hp => hb p (List.mem_append_right _ hp)
    rw [List.cons_append, cutAll, hk]
    simp only [Cut.before, ih, List.append_assoc]
    rfl

theorem views_append (stand : Stand) (h : EndsLine cs)
    (hb : ∀ p ∈ (cutAll stand cs).1, p.isBroken = false) (more : List Char) :
    views stand (cs ++ more) = views stand cs ++ views (cutAll stand cs).2 more := by
  rw [views, cutAll_append stand h hb, List.filterMap_append]
  rfl

end ScriptBridge
