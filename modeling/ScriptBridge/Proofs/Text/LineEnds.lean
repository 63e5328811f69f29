import Mathlib.Tactic.SplitIfs
import ScriptBridge.Text.Position

/-! Line ends of two characters. In the other spelling of a text a carriage return stands
before each line feed. Proved: a text of one line is its own spelling and no other text is,
two texts have two spellings, and a test that stops at both characters reads both alike. -/

namespace ScriptBridge

/-- The text with a carriage return before each line feed. -/
def crlf (cs : List Char) : List Char := cs.flatMap fun c => if c = '\n' then ['\r', '\n'] else [c]

variable {c : Char} {cs ds : List Char}

@[simp] theorem crlf_nil : crlf [] = [] := rfl

@[simp] theorem crlf_lineFeed (cs : List Char) : crlf ('\n' :: cs) = '\r' :: '\n' :: crlf cs := rfl

theorem crlf_cons (hc : c ≠ '\n') (cs : List Char) : crlf (c :: cs) = c :: crlf cs := by
  rw [crlf, List.flatMap_cons, if_neg hc]
  rfl

@[simp] theorem crlf_append (cs ds : List Char) : crlf (cs ++ ds) = crlf cs ++ crlf ds :=
  List.flatMap_append

@[simp] theorem crlf_eq_nil_iff : crlf cs = [] ↔ cs = [] := by
  cases cs with
  | nil => simp
  | cons c cs => by_cases hc : c = '\n' <;> simp [crlf_cons, hc]

theorem crlf_eq_self (h : '\n' ∉ cs) : crlf cs = cs := by
  induction cs with
  | nil => rfl
  | cons c cs ih =>
    obtain ⟨hc, hcs⟩ := not_or.1 (mt List.mem_cons.2 h)
    rw [crlf_cons (Ne.symm hc), ih hcs]

/-- Each line feed makes the text longer. -/
theorem length_crlf (cs : List Char) : (crlf cs).length = cs.length + cs.count '\n' := by
  induction cs with
  | nil => rfl
  | cons c cs ih =>
    by_cases hc : c = '\n'
    · subst hc
      rw [crlf_lineFeed, List.length_cons, List.length_cons, ih, List.length_cons,
        List.count_cons_self]
      omega
    · rw [crlf_cons hc, List.length_cons, ih, List.length_cons, List.count_cons_of_ne hc]
      omega

theorem crlf_eq_self_iff : crlf cs = cs ↔ '\n' ∉ cs := by
  refine ⟨fun h => ?_, crlf_eq_self⟩
  have hlength := length_crlf cs
  rw [h] at hlength
  exact List.count_eq_zero.1 (by omega)

/-- No line feed stands at the front. -/
theorem crlf_ne_lineFeed_cons (cs ds : List Char) : crlf cs ≠ '\n' :: ds := by
  intro h
  cases cs with
  | nil => cases h
  | cons c cs =>
    by_cases hc : c = '\n'
    · subst hc
      exact absurd (List.cons.inj h).1 (by decide)
    · rw [crlf_cons hc] at h
      exact hc (List.cons.inj h).1

theorem crlf_injective : Function.Injective crlf := by
  intro cs ds h
  induction cs generalizing ds with
  | nil => exact (crlf_eq_nil_iff.1 h.symm).symm
  | cons c cs ih =>
    cases ds with
    | nil => exact crlf_eq_nil_iff.1 h
    | cons d ds =>
      by_cases hc : c = '\n' <;> by_cases hd : d = '\n'
      · subst hc hd
        rw [ih (List.cons.inj (List.cons.inj h).2).2]
      · subst hc
        rw [crlf_cons hd] at h
        exact absurd (List.cons.inj h).2.symm (crlf_ne_lineFeed_cons ds _)
      · subst hd
        rw [crlf_cons hc] at h
        exact absurd (List.cons.inj h).2 (crlf_ne_lineFeed_cons cs _)
      · rw [crlf_cons hc, crlf_cons hd] at h
        obtain ⟨rfl, htail⟩ := List.cons.inj h
        rw [ih htail]

/-! ### Reading both spellings -/

section Tests

variable {p : Char → Bool} (hn : p '\n' = false) (hr : p '\r' = false)

include hn hr

theorem takeWhile_crlf (cs : List Char) : (crlf cs).takeWhile p = cs.takeWhile p := by
  induction cs with
  | nil => rfl
  | cons c cs ih =>
    by_cases hc : c = '\n'
    · subst hc
      simp [hn, hr]
    · rw [crlf_cons hc, List.takeWhile_cons, List.takeWhile_cons, ih]

theorem dropWhile_crlf (cs : List Char) : (crlf cs).dropWhile p = crlf (cs.dropWhile p) := by
  induction cs with
  | nil => rfl
  | cons c cs ih =>
    by_cases hc : c = '\n'
    · subst hc
      simp [hn, hr]
    · rw [crlf_cons hc, List.dropWhile_cons, List.dropWhile_cons, ih]
      split_ifs
      · rfl
      · rw [crlf_cons hc]

theorem head?_crlf (cs : List Char) :
    ((crlf cs).head?.map p).getD false = (cs.head?.map p).getD false := by
  match cs with
  | [] => rfl
  | c :: cs =>
    by_cases hc : c = '\n'
    · subst hc
      simp [hn, hr]
    · rw [crlf_cons hc]
      rfl

end Tests

theorem isPrefixOf_crlf {front : List Char} (hn : '\n' ∉ front) (hr : '\r' ∉ front)
    (cs : List Char) : front.isPrefixOf (crlf cs) = front.isPrefixOf cs := by
  induction front generalizing cs with
  | nil => simp
  | cons a front ih =>
    obtain ⟨han, hn⟩ := not_or.1 (mt List.mem_cons.2 hn)
    obtain ⟨har, hr⟩ := not_or.1 (mt List.mem_cons.2 hr)
    cases cs with
    | nil => rfl
    | cons c cs =>
      by_cases hc : c = '\n'
      · subst hc
        rw [crlf_lineFeed, List.isPrefixOf_cons_cons, List.isPrefixOf_cons_cons,
          beq_eq_false_iff_ne.2 (Ne.symm har), beq_eq_false_iff_ne.2 (Ne.symm han),
          Bool.false_and, Bool.false_and]
      · rw [crlf_cons hc, List.isPrefixOf_cons_cons, List.isPrefixOf_cons_cons, ih hn hr]

theorem isPrefixOf_return (hr : '\r' ∉ cs) (front : List Char) :
    ('\r' :: front).isPrefixOf cs = false := by
  refine Bool.eq_false_iff.2 fun h => hr ?_
  exact (List.isPrefixOf_iff_prefix.1 h).subset List.mem_cons_self

/-- The carriage return behind which a line feed stands belongs to the line end. -/
theorem isPrefixOf_crlf_lineEnd (hr : '\r' ∉ cs) :
    ['\r', '\n'].isPrefixOf (crlf cs) = ['\n'].isPrefixOf cs := by
  match cs with
  | [] => rfl
  | d :: ds =>
    by_cases hd : d = '\n'
    · subst hd
      rfl
    · have hreturn : ('\r' == d) = false :=
        beq_eq_false_iff_ne.2 fun h => hr (h ▸ List.mem_cons_self)
      have hfeed : ('\n' == d) = false := beq_eq_false_iff_ne.2 (Ne.symm hd)
      rw [crlf_cons hd, List.isPrefixOf_cons_cons, List.isPrefixOf_cons_cons, hreturn, hfeed,
        Bool.false_and, Bool.false_and]

end ScriptBridge
