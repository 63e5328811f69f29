import ScriptBridge.Proofs.Script.Walk

/-! The steps of a walk. As long as the end of the script is among what is left of the tokens, the
cursor stands inside the list, and what comes next is the head of what is left. Proved: what each
step brings is a function of what is left, and so is the outcome of a loop in which every turn
takes tokens or ends the loop, within a limit that is above the number of tokens. -/

namespace ScriptBridge.Walk

open Tokens (next starts endsLine faultHere Leaves)

variable {α β σ : Type} {tokens ts us : List Token} {limit : Nat}

/-! ### Cursors and what is left -/

/-- What is left of the tokens before the end of a script. -/
structure Left (tokens ts : List Token) : Prop where
  suffix : ts <:+ tokens
  ended : ∃ t ∈ ts, t.kind = .endOfFile

/-- The place of the cursor when so much is left. -/
def placeOf (tokens ts : List Token) : Nat := tokens.length - ts.length

/-- The outcome of a walk with the cursor before the tokens that are left. -/
def runOn (w : Walk α) (tokens ts : List Token) : Except Halt (Passage α) :=
  w.run tokens (placeOf tokens ts)

/-- The outcome of a walk that brings what a reading does. -/
def outcome (tokens : List Token) (r : Reading α) : Except Halt (Passage α) :=
  .ok { value := r.value, place := placeOf tokens r.rest, faults := r.faults }

/-- A kind of which a token can be taken. The token that ends the script is never taken. -/
class Takable (kind : TokenKind) : Prop where
  ne_endOfFile : kind ≠ .endOfFile

namespace Takable

instance : Takable .newline := ⟨nofun⟩
instance : Takable .indent := ⟨nofun⟩
instance : Takable .identifier := ⟨nofun⟩
instance : Takable .text := ⟨nofun⟩
instance : Takable .tag := ⟨nofun⟩
instance (k : Keyword) : Takable (.keyword k) := ⟨nofun⟩
instance (b : Bracket) : Takable (.opening b) := ⟨nofun⟩
instance (b : Bracket) : Takable (.closing b) := ⟨nofun⟩
instance : Takable .comma := ⟨nofun⟩
instance : Takable .colon := ⟨nofun⟩
instance : Takable .colonEquals := ⟨nofun⟩
instance : Takable .equals := ⟨nofun⟩
instance : Takable .arrow := ⟨nofun⟩
instance : Takable .dot := ⟨nofun⟩
instance : Takable .operator := ⟨nofun⟩

end Takable

theorem kind_of_starts {kind : TokenKind} {t : Token} (hs : starts kind (t :: ts)) :
    t.kind = kind := beq_iff_eq.1 hs

namespace Left

theorem cons (h : Left tokens ts) : ∃ t us, ts = t :: us := by
  obtain ⟨t, ht, -⟩ := h.ended
  exact List.exists_cons_of_ne_nil (List.ne_nil_of_mem ht)

theorem length_pos (h : Left tokens ts) : 0 < ts.length := by
  obtain ⟨t, us, rfl⟩ := h.cons
  exact Nat.succ_pos _

theorem length_le (h : Left tokens ts) : ts.length ≤ tokens.length := h.suffix.length_le

theorem length_lt (h : Left tokens ts) (hlimit : tokens.length < limit) : ts.length < limit :=
  Nat.lt_of_le_of_lt h.length_le hlimit

theorem of_leaves (h : Left tokens ts) (hl : Leaves ts us) : Left tokens us := by
  induction hl with
  | all => exact h
  | step hk _ ih =>
    refine ih ⟨(List.suffix_cons _ _).trans h.suffix, ?_⟩
    obtain ⟨t, ht, he⟩ := h.ended
    rcases List.mem_cons.1 ht with rfl | ht
    · exact absurd he hk
    · exact ⟨t, ht, he⟩

theorem tail {kind : TokenKind} [Takable kind] (h : Left tokens ts) (hs : starts kind ts) :
    Left tokens ts.tail := h.of_leaves (.tail hs Takable.ne_endOfFile)

theorem behind {t : Token} (h : Left tokens (t :: ts)) (ht : t.kind ≠ .endOfFile) :
    Left tokens ts := h.of_leaves (.step ht (.all ts))

theorem tail_of_not_end (h : Left tokens ts) (he : ¬starts .endOfFile ts) :
    Left tokens ts.tail := by
  obtain ⟨t, us, rfl⟩ := h.cons
  exact h.behind (mt beq_iff_eq.2 he)

theorem getElem? (h : Left tokens ts) (n : Nat) : tokens[placeOf tokens ts + n]? = ts[n]? := by
  obtain ⟨front, rfl⟩ := h.suffix
  have hplace : placeOf (front ++ ts) ts = front.length := by
    rw [placeOf, List.length_append, Nat.add_sub_cancel]
  rw [hplace, List.getElem?_append_right (Nat.le_add_right _ _), Nat.add_sub_cancel_left]

theorem placeOf_tail (h : Left tokens ts) : placeOf tokens ts + 1 = placeOf tokens ts.tail := by
  have hpos := h.length_pos
  have hle := h.length_le
  rw [placeOf, placeOf, List.length_tail]
  omega

end Left

/-! ### Walks in sequence -/

theorem before_nil (x : Except Halt (Passage α)) : before [] x = x := by
  cases x <;> rfl

theorem before_outcome (faults : List LocatedFault) (r : Reading α) :
    before faults (outcome tokens r) =
      outcome tokens { value := r.value, rest := r.rest, faults := faults ++ r.faults } := rfl

theorem runOn_pure (v : α) :
    (pure v : Walk α).runOn tokens ts = outcome tokens { value := v, rest := ts } := rfl

/-- A walk goes on behind what it has brought so far. -/
theorem runOn_bind {w : Walk α} {r : Reading α} (h : w.runOn tokens ts = outcome tokens r)
    (f : α → Walk β) :
    (w >>= f).runOn tokens ts = before r.faults ((f r.value).runOn tokens r.rest) := by
  have hrun : w.run tokens (placeOf tokens ts) = outcome tokens r := h
  simp only [runOn, bind, hrun, outcome]

/-- Nothing follows a halt. -/
theorem runOn_bind_error {w : Walk α} {halt : Halt} (h : w.runOn tokens ts = .error halt)
    {f : α → Walk β} : (w >>= f).runOn tokens ts = .error halt := by
  have hrun : w.run tokens (placeOf tokens ts) = .error halt := h
  simp only [runOn, bind, hrun]

/-- A part of a walk in which nothing is at fault. -/
theorem runOn_bind_clean {w : Walk α} {v : α}
    (h : w.runOn tokens ts = outcome tokens { value := v, rest := us }) (f : α → Walk β) :
    (w >>= f).runOn tokens ts = (f v).runOn tokens us :=
  (runOn_bind h f).trans (before_nil _)

/-- What is brought may be put in another form. -/
theorem runOn_bind_pure {w : Walk α} {r : Reading α} (h : w.runOn tokens ts = outcome tokens r)
    {f : α → β} :
    (w >>= fun v => pure (f v)).runOn tokens ts = outcome tokens (Statement.map f r) := by
  rw [runOn_bind h, runOn_pure, before_outcome, List.append_nil]
  rfl

/-! ### What comes next -/

section Next
variable {kind : TokenKind} [Takable kind] {fault : Fault}

theorem tokenAt_eq {t : Token} {place : Nat} (ht : tokens[place]? = some t) :
    tokenAt tokens place (placeOf tokens ts) = outcome tokens { value := t, rest := ts } := by
  simp only [tokenAt, ht]
  rfl

theorem runOn_peek (h : Left tokens ts) :
    peek.runOn tokens ts = outcome tokens { value := next ts, rest := ts } := by
  refine tokenAt_eq ?_
  obtain ⟨t, us, rfl⟩ := h.cons
  exact h.getElem? 0

theorem runOn_previous {t : Token} (h : Left tokens (t :: ts)) :
    previous.runOn tokens ts = outcome tokens { value := t, rest := ts } := by
  have hplace : placeOf tokens ts - 1 = placeOf tokens (t :: ts) := by
    have hnext : placeOf tokens (t :: ts) + 1 = placeOf tokens ts := h.placeOf_tail
    omega
  refine tokenAt_eq ?_
  rw [hplace]
  exact h.getElem? 0

theorem runOn_ahead (h : Left tokens ts) (n : Nat) :
    (ahead n).runOn tokens ts = outcome tokens { value := Tokens.ahead ts n, rest := ts } := by
  have hle := h.length_le
  have hpos := h.length_pos
  refine tokenAt_eq ?_
  unfold Tokens.ahead
  by_cases hn : n < ts.length
  · have hlt : placeOf tokens ts + n < tokens.length := by
      rw [placeOf]
      omega
    rw [if_pos hlt, h.getElem?, List.getElem?_eq_getElem hn]
  · have hlt : ¬placeOf tokens ts + n < tokens.length := by
      rw [placeOf]
      omega
    have hlast : tokens.length - 1 = placeOf tokens ts + (ts.length - 1) := by
      rw [placeOf]
      omega
    rw [if_neg hlt, hlast, h.getElem?, List.getElem?_eq_none (Nat.le_of_not_lt hn)]
    obtain ⟨t, us, rfl⟩ := h.cons
    simp [List.getLastD, List.getLast_eq_getElem]

variable {f g : Token → Walk β} {k : Bool → Walk β}

theorem peek_bind (h : Left tokens ts) :
    (peek >>= f).runOn tokens ts = (f (next ts)).runOn tokens ts :=
  runOn_bind_clean (runOn_peek h) f

theorem previous_bind {t : Token} (h : Left tokens (t :: ts)) :
    (previous >>= f).runOn tokens ts = (f t).runOn tokens ts :=
  runOn_bind_clean (runOn_previous h) f

theorem ahead_bind (h : Left tokens ts) (n : Nat) :
    (ahead n >>= f).runOn tokens ts = (f (Tokens.ahead ts n)).runOn tokens ts :=
  runOn_bind_clean (runOn_ahead h n) f

theorem runOn_atEnd (h : Left tokens ts) :
    atEnd.runOn tokens ts = outcome tokens { value := starts .endOfFile ts, rest := ts } :=
  peek_bind h

theorem atEnd_bind (h : Left tokens ts) :
    (atEnd >>= k).runOn tokens ts = (k (starts .endOfFile ts)).runOn tokens ts :=
  runOn_bind_clean (runOn_atEnd h) k

theorem runOn_atLineEnd (h : Left tokens ts) :
    atLineEnd.runOn tokens ts = outcome tokens { value := endsLine ts, rest := ts } :=
  peek_bind h

theorem atLineEnd_bind (h : Left tokens ts) :
    (atLineEnd >>= k).runOn tokens ts = (k (endsLine ts)).runOn tokens ts :=
  runOn_bind_clean (runOn_atLineEnd h) k

theorem runOn_atSemicolon (h : Left tokens ts) :
    atSemicolon.runOn tokens ts = outcome tokens { value := (next ts).isSemicolon, rest := ts } :=
  peek_bind h

theorem atSemicolon_bind (h : Left tokens ts) :
    (atSemicolon >>= k).runOn tokens ts = (k (next ts).isSemicolon).runOn tokens ts :=
  runOn_bind_clean (runOn_atSemicolon h) k

theorem runOn_check (h : Left tokens ts) :
    (check kind).runOn tokens ts = outcome tokens { value := starts kind ts, rest := ts } := by
  rw [check, atEnd_bind h]
  by_cases he : starts .endOfFile ts
  · have hne : kind ≠ .endOfFile := Takable.ne_endOfFile
    have hkind : (next ts).kind = .endOfFile := by simpa [starts] using he
    have hs : starts kind ts = false := by simpa [starts, hkind] using hne.symm
    rw [if_pos he, hs]
    rfl
  · rw [if_neg he]
    exact peek_bind h

/-- The end of the script is not checked for. -/
theorem check_bind (h : Left tokens ts) :
    (check kind >>= k).runOn tokens ts = (k (starts kind ts)).runOn tokens ts :=
  runOn_bind_clean (runOn_check h) k

/-! ### Taking a token -/

theorem not_starts_endOfFile (hs : starts kind ts) :
    ¬starts .endOfFile ts := by
  simp only [starts, beq_iff_eq] at hs ⊢
  rw [hs]
  exact Takable.ne_endOfFile

theorem kind_ne_of_starts {t : Token} (hs : starts kind (t :: ts)) :
    t.kind ≠ .endOfFile := mt beq_iff_eq.2 (not_starts_endOfFile hs)

theorem runOn_advance (h : Left tokens ts) (he : ¬starts .endOfFile ts) :
    advance.runOn tokens ts = outcome tokens { value := next ts, rest := ts.tail } := by
  obtain ⟨t, us, rfl⟩ := h.cons
  have hmove : move.runOn tokens (t :: us) = outcome tokens { value := (), rest := us } := by
    have hplace : placeOf tokens (t :: us) + 1 = placeOf tokens us := h.placeOf_tail
    simp only [runOn, move, outcome, hplace]
  rw [advance, atEnd_bind h, if_neg he, runOn_bind_clean hmove]
  exact runOn_previous h

theorem advance_bind (h : Left tokens ts) (he : ¬starts .endOfFile ts) :
    (advance >>= f).runOn tokens ts = (f (next ts)).runOn tokens ts.tail :=
  runOn_bind_clean (runOn_advance h he) f

theorem advance_cons_bind {t : Token} (h : Left tokens (t :: ts)) (ht : t.kind ≠ .endOfFile) :
    (advance >>= f).runOn tokens (t :: ts) = (f t).runOn tokens ts :=
  advance_bind h (mt beq_iff_eq.1 ht)

theorem runOn_accept_true (h : Left tokens ts) (hs : starts kind ts) :
    (accept kind).runOn tokens ts = outcome tokens { value := true, rest := ts.tail } := by
  rw [accept, check_bind h, if_pos hs, advance_bind h (not_starts_endOfFile hs)]
  rfl

theorem runOn_accept_false (h : Left tokens ts) (hs : ¬starts kind ts) :
    (accept kind).runOn tokens ts = outcome tokens { value := false, rest := ts } := by
  rw [accept, check_bind h, if_neg hs]
  rfl

theorem accept_bind_true (h : Left tokens ts) (hs : starts kind ts) :
    (accept kind >>= k).runOn tokens ts = (k true).runOn tokens ts.tail :=
  runOn_bind_clean (runOn_accept_true h hs) k

theorem accept_bind_false (h : Left tokens ts) (hs : ¬starts kind ts) :
    (accept kind >>= k).runOn tokens ts = (k false).runOn tokens ts :=
  runOn_bind_clean (runOn_accept_false h hs) k

/-- A walk that goes on in one of two ways, as there is a token to take or not. -/
theorem accept_if_true {w v : Walk β} (h : Left tokens ts) (hs : starts kind ts) :
    (accept kind >>= fun taken => if taken then w else v).runOn tokens ts =
      w.runOn tokens ts.tail := by
  rw [accept_bind_true h hs, if_pos rfl]

theorem accept_if_false {w v : Walk β} (h : Left tokens ts) (hs : ¬starts kind ts) :
    (accept kind >>= fun taken => if taken then w else v).runOn tokens ts = v.runOn tokens ts := by
  rw [accept_bind_false h hs, if_neg Bool.false_ne_true]

theorem report_bind (fault : Fault) (span : Span) (f : Unit → Walk β) :
    (report fault span >>= f).runOn tokens ts =
      before [⟨fault, span⟩] ((f ()).runOn tokens ts) :=
  runOn_bind (r := { value := (), rest := ts, faults := [⟨fault, span⟩] }) rfl f

theorem reportHere_bind (h : Left tokens ts) (fault : Fault) (f : Unit → Walk β) :
    (reportHere fault >>= f).runOn tokens ts =
      before [faultHere fault ts] ((f ()).runOn tokens ts) :=
  runOn_bind (r := { value := (), rest := ts, faults := [faultHere fault ts] }) (peek_bind h) f

theorem consume_bind_true (h : Left tokens ts) (hs : starts kind ts) :
    (consume kind fault >>= f).runOn tokens ts = (f (next ts)).runOn tokens ts.tail := by
  refine runOn_bind_clean ?_ f
  rw [consume, check_bind h, if_pos hs]
  exact runOn_advance h (not_starts_endOfFile hs)

theorem consume_bind_false (h : Left tokens ts) (hs : ¬starts kind ts) :
    (consume kind fault >>= f).runOn tokens ts =
      before [faultHere fault ts] ((f (next ts)).runOn tokens ts) := by
  refine runOn_bind (r := { value := next ts, rest := ts, faults := [faultHere fault ts] }) ?_ f
  rw [consume, check_bind h, if_neg hs, peek_bind h, report_bind]
  rfl

/-- A walk that goes on only with a token of the kind that has to stand here. -/
theorem consume_if_true (h : Left tokens ts) (hs : starts kind ts) :
    (consume kind fault >>= fun t => if t.kind == kind then f t else g t).runOn tokens ts =
      (f (next ts)).runOn tokens ts.tail := by
  have hkind : (next ts).kind == kind := hs
  rw [consume_bind_true h hs, if_pos hkind]

theorem consume_if_false (h : Left tokens ts) (hs : ¬starts kind ts) :
    (consume kind fault >>= fun t => if t.kind == kind then f t else g t).runOn tokens ts =
      before [faultHere fault ts] ((g (next ts)).runOn tokens ts) := by
  have hkind : ¬(next ts).kind == kind := hs
  rw [consume_bind_false h hs, if_neg hkind]

end Next

/-! ### Loops -/

section Loops
variable {turn : σ → Walk (Turn σ β)} {P : σ → List Token → Reading β → Prop}
  {I : σ → List Token → Prop} {s : σ}

/-- What a turn leads to: the end of the loop, or another turn that has less left. What the loop
brings has the property `P` if it has it from the next turn on. -/
inductive Leads (tokens : List Token) (P : σ → List Token → Reading β → Prop)
    (I : σ → List Token → Prop) (s : σ) (ts : List Token) (w : Walk (Turn σ β)) : Prop where
  | done {r : Reading β}
      (hrun : w.runOn tokens ts =
        outcome tokens { value := .done r.value, rest := r.rest, faults := r.faults })
      (hr : P s ts r)
  | again (s' : σ) (us : List Token) (faults : List LocatedFault)
      (hrun : w.runOn tokens ts = outcome tokens { value := .again s', rest := us, faults })
      (hlength : us.length < ts.length) (hleft : Left tokens us) (hi : I s' us)
      (hr : ∀ r, P s' us r → P s ts { r with faults := faults ++ r.faults })

/-- A loop ends if each of its turns ends it or leads on. -/
theorem exists_runOn_loop (hturn : ∀ s ts, I s ts → Left tokens ts → Leads tokens P I s ts (turn s))
    (hi : I s ts) (h : Left tokens ts) (hlimit : ts.length < limit) :
    ∃ r, (loop limit turn s).runOn tokens ts = outcome tokens r ∧ P s ts r := by
  induction limit generalizing s ts with
  | zero => exact absurd hlimit (Nat.not_lt_zero _)
  | succ limit ih =>
    rw [loop]
    cases hturn s ts hi h with
    | @done r hrun hr =>
      refine ⟨r, ?_, hr⟩
      rw [runOn_bind hrun]
      change before _ ((pure _ : Walk β).runOn tokens _) = _
      rw [runOn_pure, before_outcome, List.append_nil]
    | again s' us faults hrun hlength hleft hi hr =>
      have hlimit : us.length < limit := by omega
      obtain ⟨r, hrest, hp⟩ := ih hi hleft hlimit
      refine ⟨_, ?_, hr r hp⟩
      rw [runOn_bind hrun]
      change before _ ((loop limit turn s').runOn tokens us) = _
      rw [hrest, before_outcome]

/-- A loop brings what is read. -/
theorem runOn_loop {R : σ → List Token → Reading β}
    (hturn : ∀ s ts, I s ts → Left tokens ts →
      Leads tokens (fun s ts r => R s ts = r) I s ts (turn s))
    (hi : I s ts) (h : Left tokens ts) (hlimit : ts.length < limit) :
    (loop limit turn s).runOn tokens ts = outcome tokens (R s ts) := by
  obtain ⟨r, hrun, rfl⟩ := exists_runOn_loop hturn hi h hlimit
  exact hrun

end Loops

end ScriptBridge.Walk
