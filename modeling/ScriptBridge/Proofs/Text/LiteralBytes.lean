import Mathlib.Algebra.Group.Nat.Even
import Mathlib.Data.List.DropRight
import ScriptBridge.Proofs.Text.ByteOffsets
import ScriptBridge.Proofs.Text.LiteralValues

/-! Quoted literals byte by byte. What is quoted need not be text, so that literals are read and
written here as bytes. Proved: the bytes of a quoted text are its bytes quoted; a mark among the
escaped bytes stands behind an odd run of backslashes and the bytes end in an even one, so that
the literal ends at its last byte; and undoing the sequences from left to right gives the bytes
back. -/

namespace ScriptBridge

/-! ### Texts rewritten character by character -/

/-- What a rewriting of characters makes of a byte: in ASCII what it makes of the character, and
beyond it the byte itself. -/
def bytewise (f : Char → List Char) (b : UInt8) : List UInt8 :=
  if b < 0x80 then utf8 (f (Char.ofUInt8 b)) else [b]

theorem utf8_ofUInt8 {b : UInt8} (h : b < 0x80) : utf8 [Char.ofUInt8 b] = [b] := by
  have hb : b.toNat ≤ 127 := Nat.le_of_lt_succ (UInt8.lt_iff_toNat_lt.1 h)
  simp [utf8, String.utf8EncodeChar, Char.ofUInt8, hb]

theorem eq_toUInt8_of_ofUInt8 {b : UInt8} {c : Char} (h : Char.ofUInt8 b = c) : b = c.toUInt8 := by
  subst h
  exact (UInt8.toUInt8_toUInt32 b).symm

/-- A text whose characters beyond ASCII stay as they are is rewritten byte by byte. -/
theorem utf8_flatMap {f : Char → List Char} (hf : ∀ c, ¬c.val < 0x80 → f c = [c])
    (cs : List Char) : utf8 (cs.flatMap f) = (utf8 cs).flatMap (bytewise f) := by
  induction cs with
  | nil => rfl
  | cons c cs ih =>
    have hc : utf8 (f c) = (utf8 [c]).flatMap (bytewise f) := by
      by_cases hc : c.val < 0x80
      · have hb : c.val.toUInt8 < 0x80 := by
          rw [UInt8.lt_iff_toNat_lt, UInt32.toNat_toUInt8]
          exact Nat.lt_of_le_of_lt (Nat.mod_le _ _) (UInt32.lt_iff_toNat_lt.1 hc)
        rw [utf8_of_lt hc, List.flatMap_singleton, bytewise, if_pos hb, ofUInt8_toUInt8 hc]
      · have hbytes : ∀ b ∈ utf8 [c], bytewise f b = [b] := fun b hb =>
          if_neg (UInt8.not_lt.2 (le_of_mem_utf8 hc hb))
        rw [hf c hc, List.flatMap_def, List.map_congr_left hbytes, ← List.flatMap_def,
          List.flatMap_singleton']
    rw [List.flatMap_cons, utf8_append, hc, ih, ← List.flatMap_append, ← utf8_append,
      List.singleton_append]

namespace Literal

/-! ### Bytes of literals -/

def backslash : UInt8 := '\\'.toUInt8

/-- The byte that opens and closes a literal. -/
def mark : UInt8 := '"'.toUInt8

/-- The bytes that a literal cannot hold as they are: line feed, carriage return and tab. -/
def layout : List UInt8 := ['\n'.toUInt8, '\r'.toUInt8, '\t'.toUInt8]

def escapeByte (b : UInt8) : List UInt8 := bytewise escapeChar b

def escapeBytes (t : List UInt8) : List UInt8 := t.flatMap escapeByte

def quotedBytes (t : List UInt8) : List UInt8 := mark :: (escapeBytes t ++ [mark])

/-- The number of backslashes at the end. -/
def backslashesAtEnd (bs : List UInt8) : Nat := (bs.rtakeWhile (· == backslash)).length

/-- A literal behind its opening mark, up to and with the mark that closes it, and what follows.
A backslash hides the byte behind it. -/
def close? : List UInt8 → Option (List UInt8 × List UInt8)
  | [] => none
  | b :: bs =>
    if b = mark then some ([mark], bs)
    else if b = backslash then
      match bs with
      | [] => none
      | e :: bs => (close? bs).map fun r => (b :: e :: r.1, r.2)
    else (close? bs).map fun r => (b :: r.1, r.2)

/-- The byte that a backslash and a byte stand for. -/
def unescapeByte? (e : UInt8) : Option UInt8 := (unescape (Char.ofUInt8 e)).map Char.toUInt8

/-- The bytes with each sequence replaced by what it stands for, from left to right. -/
def undo : List UInt8 → List UInt8
  | [] => []
  | [b] => [b]
  | b :: e :: bs =>
    match if b = backslash then unescapeByte? e else none with
    | some c => c :: undo bs
    | none => b :: undo (e :: bs)

/-! ### One byte -/

/-- A byte that stands for itself. -/
structure IsBare (b : UInt8) : Prop where
  ne_backslash : b ≠ backslash
  ne_mark : b ≠ mark
  notMem_layout : b ∉ layout

/-- A byte is written as it is, or as a backslash and a byte that stand for it. -/
inductive Escapes (b : UInt8) : List UInt8 → Prop where
  | bare (h : IsBare b) : Escapes b [b]
  | hidden {e : UInt8} (h : unescapeByte? e = some b) (he : e ∉ layout) : Escapes b [backslash, e]

theorem escapes_escapeByte (b : UInt8) : Escapes b (escapeByte b) := by
  unfold escapeByte bytewise
  split_ifs with hb
  · unfold escapeChar
    split
    case h_6 hbackslash hmark hfeed hreturn htab =>
      rw [utf8_ofUInt8 hb]
      have hne {c : Char} (h : Char.ofUInt8 b ≠ c) (hc : Char.ofUInt8 c.toUInt8 = c) :
          b ≠ c.toUInt8 := by
        rintro rfl
        exact h hc
      refine .bare ⟨hne hbackslash rfl, hne hmark rfl, ?_⟩
      simp [layout, hne hfeed rfl, hne hreturn rfl, hne htab rfl]
    all_goals
      rw [eq_toUInt8_of_ofUInt8 (b := b) ‹_›]
      exact .hidden (by decide) (by decide)
  · have hne {c : UInt8} (hc : c < 0x80) : b ≠ c := by
      rintro rfl
      exact hb hc
    refine .bare ⟨hne (by decide), hne (by decide), ?_⟩
    simp [layout, hne (show '\n'.toUInt8 < 0x80 by decide),
      hne (show '\r'.toUInt8 < 0x80 by decide), hne (show '\t'.toUInt8 < 0x80 by decide)]

/-- Only a backslash stands before a mark. -/
theorem Escapes.eq_of_append_mark {b : UInt8} {w front back : List UInt8} (h : Escapes b w)
    (hw : w = front ++ mark :: back) : front = [backslash] := by
  cases front with
  | nil =>
    cases h with
    | bare h => exact absurd (List.cons.inj hw).1 h.ne_mark
    | hidden => exact absurd (List.cons.inj hw).1 (by decide)
  | cons c front =>
    cases h with
    | bare => simp at hw
    | hidden =>
      obtain ⟨rfl, hrest⟩ := List.cons.inj hw
      cases front with
      | nil => rfl
      | cons => simp at hrest

/-! ### Runs of backslashes -/

section Runs

variable (bs : List UInt8)

theorem backslashesAtEnd_concat :
    backslashesAtEnd (bs ++ [backslash]) = backslashesAtEnd bs + 1 := by
  rw [backslashesAtEnd, List.rtakeWhile_concat_pos _ _ _ (by decide), List.length_append]
  rfl

theorem backslashesAtEnd_concat_of_ne {b : UInt8} (h : b ≠ backslash) :
    backslashesAtEnd (bs ++ [b]) = 0 := by
  rw [backslashesAtEnd, List.rtakeWhile_concat_neg _ _ _ (by simpa using h)]
  rfl

end Runs

section Escaped

variable (t : List UInt8)

theorem escapeBytes_append (s t : List UInt8) :
    escapeBytes (s ++ t) = escapeBytes s ++ escapeBytes t := List.flatMap_append

theorem escapeBytes_concat (b : UInt8) :
    escapeBytes (t ++ [b]) = escapeBytes t ++ escapeByte b := by
  rw [escapeBytes_append, escapeBytes, escapeBytes, List.flatMap_singleton]

/-- Escaped bytes end in an even run, so that a byte behind them is not hidden. -/
theorem even_backslashesAtEnd : Even (backslashesAtEnd (escapeBytes t)) := by
  induction t using List.reverseRecOn with
  | nil => exact Even.zero
  | append_singleton t b ih =>
    have hb := escapes_escapeByte b
    rw [escapeBytes_concat]
    generalize escapeByte b = w at hb ⊢
    cases hb with
    | bare h =>
      rw [backslashesAtEnd_concat_of_ne _ h.ne_backslash]
      exact Even.zero
    | @hidden e =>
      rw [← List.singleton_append, ← List.append_assoc]
      by_cases he : e = backslash
      · rw [he, backslashesAtEnd_concat, backslashesAtEnd_concat]
        exact ih.add even_two
      · rw [backslashesAtEnd_concat_of_ne _ he]
        exact Even.zero

/-- A mark among escaped bytes is hidden. -/
theorem odd_backslashesAtEnd {front back : List UInt8}
    (h : escapeBytes t = front ++ mark :: back) : Odd (backslashesAtEnd front) := by
  induction t using List.reverseRecOn generalizing back with
  | nil => simp [escapeBytes] at h
  | append_singleton t b ih =>
    rw [escapeBytes_concat] at h
    rcases List.append_eq_append_iff.1 h with ⟨between, rfl, hlast⟩ | ⟨between, hfront, hlast⟩
    · obtain rfl := (escapes_escapeByte b).eq_of_append_mark hlast
      rw [backslashesAtEnd_concat]
      exact (even_backslashesAtEnd t).add_one
    · cases between with
      | nil =>
        have hescaped : escapeByte b = [] ++ mark :: back := hlast.symm
        cases (escapes_escapeByte b).eq_of_append_mark hescaped
      | cons c between =>
        obtain ⟨rfl, -⟩ := List.cons.inj hlast
        exact ih hfront

/-- No byte of the layout is left. -/
theorem notMem_layout {b : UInt8} (h : b ∈ escapeBytes t) : b ∉ layout := by
  obtain ⟨c, -, hb⟩ := List.mem_flatMap.1 h
  have hc := escapes_escapeByte c
  generalize escapeByte c = w at hb hc
  cases hc with
  | bare hc =>
    rw [List.mem_singleton.1 hb]
    exact hc.notMem_layout
  | hidden _ he =>
    rcases List.mem_cons.1 hb with rfl | hb
    · decide
    · rw [List.mem_singleton.1 hb]
      exact he

end Escaped

/-! ### Reading -/

section Reading

variable {b e : UInt8} {bs : List UInt8}

theorem close?_escapes {w : List UInt8} (h : Escapes b w) :
    close? (w ++ bs) = (close? bs).map fun r => (w ++ r.1, r.2) := by
  cases h with
  | bare h =>
    rw [List.singleton_append, close?.eq_def]
    simp only [if_neg h.ne_mark, if_neg h.ne_backslash]
    rfl
  | hidden =>
    have hne : backslash ≠ mark := by decide
    rw [List.cons_append, close?.eq_def]
    simp only [if_neg hne, if_true]
    rfl

theorem close?_escapeBytes (t rest : List UInt8) :
    close? (escapeBytes t ++ mark :: rest) = some (escapeBytes t ++ [mark], rest) := by
  induction t with
  | nil =>
    rw [escapeBytes, List.flatMap_nil, List.nil_append, close?.eq_def]
    exact if_pos rfl
  | cons b t ih =>
    rw [escapeBytes, List.flatMap_cons, List.append_assoc, close?_escapes (escapes_escapeByte b),
      ← escapeBytes, ih, Option.map_some, List.append_assoc]

theorem undo_cons_of_ne (h : b ≠ backslash) : undo (b :: bs) = b :: undo bs := by
  cases bs with
  | nil => rfl
  | cons e bs => rw [undo, if_neg h]

theorem undo_escapes {w : List UInt8} (h : Escapes b w) : undo (w ++ bs) = b :: undo bs := by
  cases h with
  | bare h => exact undo_cons_of_ne h.ne_backslash
  | hidden h => rw [List.cons_append, List.singleton_append, undo, if_pos rfl, h]

theorem undo_escapeBytes (t : List UInt8) : undo (escapeBytes t) = t := by
  induction t with
  | nil => rfl
  | cons b t ih =>
    rw [escapeBytes, List.flatMap_cons, undo_escapes (escapes_escapeByte b), ← escapeBytes, ih]

end Reading

/-! ### Texts -/

/-- Beyond ASCII nothing is escaped. -/
theorem escapeChar_of_not_lt {c : Char} (hc : ¬c.val < 0x80) : escapeChar c = [c] := by
  unfold escapeChar
  split <;> first | rfl | exact absurd (by decide) hc

/-- The characters of a text are escaped as its bytes are. -/
theorem utf8_escape (text : String) :
    utf8 (escape text).toList = escapeBytes (utf8 text.toList) := by
  rw [escape, String.toList_ofList]
  exact utf8_flatMap (fun _ hc => escapeChar_of_not_lt hc) text.toList

theorem escapeChar_ofUInt8 (b : UInt8) :
    escapeChar (Char.ofUInt8 b) = (escapeByte b).map Char.ofUInt8 := by
  unfold escapeByte bytewise escapeChar
  split
  case h_6 =>
    split_ifs with hb
    · rw [utf8_ofUInt8 hb]
      rfl
    · rfl
  all_goals
    rw [eq_toUInt8_of_ofUInt8 (b := b) ‹_›]
    decide

/-- Bytes may be given as a text with a character for each of them. -/
theorem escape_ofUInt8 (t : List UInt8) :
    escape (String.ofList (t.map Char.ofUInt8)) =
      String.ofList ((escapeBytes t).map Char.ofUInt8) := by
  rw [escape, String.toList_ofList, escapeBytes, List.flatMap_map, List.map_flatMap]
  exact congrArg _ (List.flatMap_congr fun b _ => escapeChar_ofUInt8 b)

/-- Quoted bytes are one literal, and it has the bytes as its value. A text is quoted as its bytes
are, and so are bytes of no text. Among escaped bytes there is no layout, each mark stands behind
an odd run of backslashes, and the last run is even, so that the mark behind them is the one that
closes. Undoing the sequences gives the bytes back, so different bytes are escaped differently;
and bytes are escaped one by one. -/
theorem quotedBytes_literal (t : List UInt8) :
    (∀ text : String, utf8 (escape text).toList = escapeBytes (utf8 text.toList) ∧
      utf8 (quoted text).toList = quotedBytes (utf8 text.toList)) ∧
    escape (String.ofList (t.map Char.ofUInt8)) =
      String.ofList ((escapeBytes t).map Char.ofUInt8) ∧
    (∀ b ∈ escapeBytes t, b ∉ layout) ∧
    (∀ front back, escapeBytes t = front ++ mark :: back → Odd (backslashesAtEnd front)) ∧
    Even (backslashesAtEnd (escapeBytes t)) ∧
    (∃ inside, quotedBytes t = mark :: inside ∧
      ∀ rest, close? (inside ++ rest) = some (inside, rest)) ∧
    undo (escapeBytes t) = t ∧
    Function.Injective escapeBytes ∧
    ∀ a b, escapeBytes (a ++ b) = escapeBytes a ++ escapeBytes b := by
  refine ⟨?_, escape_ofUInt8 t, fun b hb => notMem_layout t hb, fun _ _ => odd_backslashesAtEnd t,
    even_backslashesAtEnd t, ?_, undo_escapeBytes t, ?_, escapeBytes_append⟩
  · intro text
    have hmark : utf8 "\"".toList = [mark] := by decide
    refine ⟨utf8_escape text, ?_⟩
    rw [quoted, String.toList_append, String.toList_append, utf8_append, utf8_append, utf8_escape,
      hmark, quotedBytes]
    rfl
  · refine ⟨escapeBytes t ++ [mark], rfl, fun rest => ?_⟩
    rw [List.append_assoc]
    exact close?_escapeBytes t rest
  · exact Function.LeftInverse.injective undo_escapeBytes

end Literal

end ScriptBridge
