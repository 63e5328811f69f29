import ScriptBridge.Proofs.Script.LineByLine
import ScriptBridge.Proofs.Script.TypeReading

/-! Brackets among tokens. They are balanced if each closing bracket has the kind of the innermost
open one, and none is open at the end. Matched tokens change nothing about the brackets that are
open around them, so they can be put together and into one another. Proved: what is read as a
type, as the head of a class or as the end of a statement is balanced, if no fault is found. -/

namespace ScriptBridge

namespace Tokens

variable {t : Token} {ts us rest front : List Token} {b : Bracket} {stack : List Bracket}

/-! ### Open brackets -/

/-- The open brackets after one more token, the innermost one first. A closing bracket has to be
of the kind of the innermost one. -/
def bracketStep (stack : List Bracket) (t : Token) : Option (List Bracket) :=
  match t.kind with
  | .opening b => some (b :: stack)
  | .closing b => if stack.head? = some b then some stack.tail else none
  | _ => some stack

/-- The brackets that are open behind the tokens. -/
def openAfter (stack : List Bracket) (ts : List Token) : Option (List Bracket) :=
  ts.foldlM bracketStep stack

/-- Every bracket that is opened is closed by one of its kind, the last one opened first, and no
other one is closed. -/
def Matched (ts : List Token) : Prop := openAfter [] ts = some []

instance (ts : List Token) : Decidable (Matched ts) :=
  inferInstanceAs (Decidable (openAfter [] ts = some []))

theorem openAfter_cons (stack : List Bracket) (t : Token) (ts : List Token) :
    openAfter stack (t :: ts) = (bracketStep stack t).bind fun s => openAfter s ts := rfl

theorem openAfter_append (stack : List Bracket) (ts us : List Token) :
    openAfter stack (ts ++ us) = (openAfter stack ts).bind fun s => openAfter s us := by
  simp only [openAfter, List.foldlM_append]
  rfl

theorem bracketStep_flat (h : nesting t = 0) (stack : List Bracket) :
    bracketStep stack t = some stack := by
  unfold nesting at h
  unfold bracketStep
  split at h <;> simp_all

/-- Brackets further out make no difference. -/
theorem bracketStep_append {above : List Bracket} (h : bracketStep stack t = some above)
    (below : List Bracket) : bracketStep (stack ++ below) t = some (above ++ below) := by
  unfold bracketStep at h ⊢
  split at h
  · cases h
    rfl
  · split_ifs at h with hhead
    cases h
    cases stack with
    | nil => cases hhead
    | cons c stack => simpa using hhead
  · cases h
    rfl

theorem openAfter_below {above : List Bracket} (h : openAfter stack ts = some above)
    (below : List Bracket) : openAfter (stack ++ below) ts = some (above ++ below) := by
  induction ts generalizing stack with
  | nil =>
    cases h
    rfl
  | cons t ts ih =>
    obtain ⟨next, hnext, h⟩ := Option.bind_eq_some_iff.1 h
    rw [openAfter_cons, bracketStep_append hnext]
    exact ih h

/-! ### Tokens that change nothing -/

/-- Behind the tokens the same brackets are open as before. -/
def Neat (ts : List Token) : Prop := ∀ stack, openAfter stack ts = some stack

theorem neat_iff_matched : Neat ts ↔ Matched ts :=
  ⟨fun h => h [], fun h stack => openAfter_below h stack⟩

theorem Neat.append (h : Neat ts) (k : Neat us) : Neat (ts ++ us) := by
  intro stack
  rw [openAfter_append, h stack]
  exact k stack

/-- The tokens in front of the rest are balanced. -/
def Passes (ts rest : List Token) : Prop := ∃ front, ts = front ++ rest ∧ Neat front

/-- The tokens in front of the rest are balanced but for the bracket that closes `b`. -/
def Closes (b : Bracket) (ts rest : List Token) : Prop :=
  ∃ front, ts = front ++ rest ∧ ∀ stack, openAfter (b :: stack) front = some stack

namespace Passes

theorem refl (ts : List Token) : Passes ts ts := ⟨[], rfl, fun _ => rfl⟩

theorem trans (h : Passes ts us) (k : Passes us rest) : Passes ts rest := by
  obtain ⟨front, rfl, hfront⟩ := h
  obtain ⟨more, rfl, hmore⟩ := k
  exact ⟨front ++ more, (List.append_assoc ..).symm, hfront.append hmore⟩

theorem step (ht : nesting t = 0) (h : Passes ts rest) : Passes (t :: ts) rest := by
  obtain ⟨front, rfl, hfront⟩ := h
  refine ⟨t :: front, rfl, fun stack => ?_⟩
  rw [openAfter_cons, bracketStep_flat ht]
  exact hfront stack

theorem tail (ht : nesting (next ts) = 0) : Passes ts ts.tail := by
  cases ts with
  | nil => exact refl []
  | cons t ts => exact step ht (refl ts)

end Passes

namespace Closes

theorem here (h : t.kind = .closing b) : Closes b (t :: ts) ts := by
  refine ⟨[t], rfl, fun stack => ?_⟩
  simp [openAfter, bracketStep, h]

theorem after (h : Passes ts us) (k : Closes b us rest) : Closes b ts rest := by
  obtain ⟨front, rfl, hfront⟩ := h
  obtain ⟨more, rfl, hmore⟩ := k
  refine ⟨front ++ more, (List.append_assoc ..).symm, fun stack => ?_⟩
  rw [openAfter_append, hfront]
  exact hmore stack

theorem trans (h : Closes b ts us) (k : Passes us rest) : Closes b ts rest := by
  obtain ⟨front, rfl, hfront⟩ := h
  obtain ⟨more, rfl, hmore⟩ := k
  refine ⟨front ++ more, (List.append_assoc ..).symm, fun stack => ?_⟩
  rw [openAfter_append, hfront]
  exact hmore stack

/-- A bracket that is opened and closed. -/
theorem passes (ht : t.kind = .opening b) (h : Closes b ts rest) : Passes (t :: ts) rest := by
  obtain ⟨front, rfl, hfront⟩ := h
  refine ⟨t :: front, rfl, fun stack => ?_⟩
  have hstep : bracketStep stack t = some (b :: stack) := by simp [bracketStep, ht]
  rw [openAfter_cons, hstep]
  exact hfront stack

end Closes

/-- A kind of token that is no bracket. -/
theorem nesting_of_starts {kind : TokenKind} (h : starts kind ts)
    (hk : nesting { kind := kind } = 0) : nesting (next ts) = 0 := by
  have hkind : (next ts).kind = kind := beq_iff_eq.1 h
  rw [← hk, nesting, nesting, hkind]

theorem Passes.tail_of_starts {kind : TokenKind} (h : starts kind ts)
    (hk : nesting { kind := kind } = 0) : Passes ts ts.tail :=
  .tail (nesting_of_starts h hk)

/-! ### The end of a statement -/

theorem endStatement_passes (h : (next ts).isSemicolon || endsLine ts) :
    Passes ts (endStatement ts) := by
  unfold endStatement
  split
  · next hs =>
    have hk : (next ts).kind = .operator := by
      simp only [Token.isSemicolon, Bool.and_eq_true, beq_iff_eq] at hs
      exact hs.1
    exact .tail (by simp [nesting, hk])
  · next hs =>
    rw [Bool.eq_false_iff.2 hs, Bool.false_or] at h
    cases ts with
    | nil => exact .refl []
    | cons t ts =>
      rw [skipLine]
      split_ifs with he hn
      · exact .refl _
      · exact .step (by simp [nesting, hn]) (.refl ts)
      · exact absurd h (by simp [endsLine, next, Token.endsLine, he, hn])

theorem finish_passes (h : (finish ts).faults = []) : Passes ts (finish ts).rest := by
  refine endStatement_passes ?_
  by_contra hs
  rw [finish, if_neg hs] at h
  cases h

end Tokens

open Tokens

/-! ### Types -/

namespace TypeExpr

variable {ts : List Token}

theorem segments_passes (path : String) (span : Span) (ts : List Token) :
    Passes ts (segments path span ts).2 := by
  fun_induction segments path span ts with
  | case1 path span dot t ts h ih =>
    simp only [Bool.and_eq_true, decide_eq_true_eq] at h
    exact .step (by simp [nesting, h.1]) (.step (by simp [nesting, h.2]) ih)
  | case2 => exact .refl _
  | case3 => exact .refl _

/-- A list of arguments that was read goes up to the bracket that closes it. -/
def ClosesList (ts : List Token) (r : Reading (Option (List TypeExpr × Span))) : Prop :=
  r.value.isSome → Closes .square ts r.rest

theorem endArguments_closes (ts : List Token) : ClosesList ts (endArguments ts) := by
  intro h
  rw [endArguments, Option.isSome_map] at h
  unfold endArguments
  dsimp only
  cases ts with
  | nil => cases h
  | cons t ts =>
    rw [closeArguments] at h ⊢
    split_ifs at h ⊢ with hk
    · exact .here hk
    · cases h

theorem consArgument_closes (hread : (read ts).value.isSome → Passes ts (read ts).rest)
    (hmore : ClosesList (read ts).rest (moreArguments (read ts).rest)) :
    ClosesList ts (consArgument ts) := by
  intro h
  unfold consArgument at h ⊢
  split at h
  · cases h
  · next v hv =>
    rw [Option.isSome_map] at h
    exact (hmore h).after (hread (by rw [hv]; rfl))

theorem read_cons_passes (t : Token) (ts : List Token)
    (hargs : ∀ us, us.length ≤ ts.length → ClosesList us (argumentList us)) :
    (read (t :: ts)).value.isSome → Passes (t :: ts) (read (t :: ts)).rest := by
  intro h
  rw [read_cons] at h ⊢
  by_cases hk : t.kind = .identifier
  · have hpath : Passes (t :: ts) (segments t.text t.span ts).2 :=
      .step (by simp [nesting, hk]) (segments_passes _ _ _)
    have hleaves := segments_leaves t.text t.span ts
    rw [if_pos hk] at h ⊢
    dsimp only at h ⊢
    generalize (segments t.text t.span ts).2 = us at *
    split_ifs at h ⊢ with hopen
    · rw [Option.isSome_map] at h
      cases us with
      | nil => cases hopen
      | cons u us =>
        have hbracket : u.kind = .opening .square := beq_iff_eq.1 hopen
        exact hpath.trans (Closes.passes hbracket
          (hargs us (Nat.le_of_succ_le hleaves.length_le) h))
    · exact hpath
  · rw [if_neg hk] at h
    cases h

/-- What is read as a type is balanced, and a list of arguments but for its closing bracket. -/
theorem reading_passes :
    (∀ ts, (read ts).value.isSome → Passes ts (read ts).rest) ∧
    (∀ ts, ClosesList ts (argumentList ts)) ∧ ∀ ts, ClosesList ts (moreArguments ts) := by
  apply reading_induction
  case nil =>
    intro h
    rw [read_nil] at h
    cases h
  case cons => exact read_cons_passes
  case list =>
    intro ts hread ih
    rw [argumentList_eq]
    split_ifs
    · exact endArguments_closes ts
    · exact consArgument_closes hread (ih _ (read_leaves ts).length_le)
  case more_nil =>
    rw [moreArguments_eq]
    split_ifs
    · exact endArguments_closes []
    · exact nofun
  case more_cons =>
    intro t ts hread ih
    rw [moreArguments_eq]
    split_ifs
    · exact endArguments_closes _
    · dsimp only
      split_ifs with hcomma
      · intro h
        exact (consArgument_closes hread (ih _ (read_leaves ts).length_le) h).after
          (.step (by simp [nesting, hcomma]) (.refl ts))
      · exact nofun

theorem read_passes (h : (read ts).value.isSome) : Passes ts (read ts).rest :=
  reading_passes.1 ts h

end TypeExpr

/-! ### The head of a class -/

namespace Statement

variable {ts : List Token}

/-- Without a fault, the tokens that a reading takes are balanced. -/
def PassesClean {α : Type} (ts : List Token) (r : Reading α) : Prop :=
  r.faults = [] → Passes ts r.rest

theorem baseSegments_passes (path : String) (span : Span) (ts : List Token) :
    PassesClean ts (baseSegments path span ts) := by
  fun_induction baseSegments path span ts with
  | case1 path span dot t ts hdot ht ih =>
    exact fun h => .step (by simp [nesting, hdot]) (.step (by simp [nesting, ht]) (ih h))
  | case2 | case4 => exact fun h => absurd h (by simp)
  | case3 | case5 | case6 => exact fun _ => .refl _

theorem finishBase_passes (toBase : String → Base) (first : Token) (ts : List Token) :
    PassesClean ts (finishBase toBase first ts) := by
  intro h
  obtain ⟨hbase, hend⟩ := List.append_eq_nil_iff.1 h
  exact (baseSegments_passes _ _ _ hbase).trans (finish_passes hend)

theorem readBase_passes (hasBase : Bool) (keyword : Token) (ts : List Token) :
    PassesClean ts (readBase hasBase keyword ts) := by
  unfold readBase
  split
  · exact nofun
  · split
    · split_ifs with htext hname
      · exact fun h => .step (by simp [nesting, htext]) (finishBase_passes _ _ _ h)
      · exact fun h => .step (by simp [nesting, hname]) (finishBase_passes _ _ _ h)
      · exact nofun
    · exact nofun

theorem readIcon_passes (ts : List Token) : PassesClean ts (readIcon ts) := by
  unfold readIcon
  split_ifs with hcomma
  · have ht : Passes ts ts.tail := .tail_of_starts hcomma rfl
    split
    · next t r heq =>
      rw [heq] at ht
      split_ifs with htext
      · exact fun _ => ht.trans (.step (by simp [nesting, htext]) (.refl r))
      · exact nofun
    · exact nofun
  · exact fun _ => .refl ts

theorem readHeaderEnd_passes (hasBase : Bool) (ts : List Token) :
    PassesClean ts (readHeaderEnd hasBase ts) := by
  unfold readHeaderEnd
  split
  · split_ifs with hextends
    · exact fun h => .step (by simp [nesting, hextends]) (readBase_passes _ _ _ h)
    · exact fun h => finish_passes h
  · exact fun _ => .refl []

theorem readHeader_passes (hasName hasBase : Bool) (keyword : Token) (ts : List Token) :
    PassesClean ts (readHeader hasName hasBase keyword ts) := by
  unfold readHeader
  split
  · exact nofun
  · split
    · split_ifs with hname
      · intro h
        obtain ⟨hicon, hend⟩ := List.append_eq_nil_iff.1 h
        exact .step (by simp [nesting, hname])
          ((readIcon_passes _ hicon).trans (readHeaderEnd_passes _ _ hend))
      · exact nofun
    · exact nofun

theorem readReturnType_passes (ts : List Token) : PassesClean ts (readReturnType ts) := by
  unfold readReturnType
  split_ifs with harrow
  · dsimp only
    split
    · next htype =>
      exact fun _ => (Passes.tail_of_starts harrow rfl).trans
        (TypeExpr.read_passes (by rw [htype]; rfl))
    · intro h
      exact absurd (List.append_eq_nil_iff.1 h).2 nofun
  · exact fun _ => .refl ts

end Statement

end ScriptBridge
