import ScriptBridge.Proofs.Script.CutCases
import ScriptBridge.Proofs.Script.Written
import ScriptBridge.Proofs.Text.ByteOffsets
import ScriptBridge.Script.Lexed

/-! Names among the tokens of a script. A name is described on its bytes in UTF-8, by what may
begin it and what may follow, and it is no keyword. Proved: the text of each identifier that is
cut from a script is a name, whatever the script is. -/

namespace ScriptBridge

/-! ### Names -/

/-- A letter, an underscore or a byte beyond ASCII. -/
def StartsName (b : UInt8) : Prop :=
  (0x41 ≤ b ∧ b ≤ 0x5A) ∨ (0x61 ≤ b ∧ b ≤ 0x7A) ∨ b = 0x5F ∨ 0x80 ≤ b

/-- Behind its first byte a name may also have digits. -/
def ContinuesName (b : UInt8) : Prop := StartsName b ∨ (0x30 ≤ b ∧ b ≤ 0x39)

/-- A text of such bytes that is no keyword. -/
def IsName (text : String) : Prop :=
  (∃ b bs, utf8 text.toList = b :: bs ∧ StartsName b ∧ ∀ d ∈ bs, ContinuesName d) ∧
    ∀ k : Keyword, k.word ≠ text

/-- A character of ASCII has one byte, which is compared as the character is. -/
theorem mem_utf8_of_lt {c : Char} (h : c.val < 0x80) {b : UInt8} (hb : b ∈ utf8 [c]) :
    b.toNat = c.val.toNat := by
  rw [utf8_of_lt h, List.mem_singleton] at hb
  have hval : c.val.toNat < 128 := UInt32.lt_iff_toNat_lt.1 h
  rw [hb, UInt32.toNat_toUInt8]
  omega

theorem startsName_of_isNameStart {c : Char} (h : Cut.isNameStart c) :
    ∀ b ∈ utf8 [c], StartsName b := by
  intro b hb
  by_cases hc : c.val < 0x80
  · have hval := mem_utf8_of_lt hc hb
    have hbeyond : ¬0x80 ≤ c.val := UInt32.not_le.2 hc
    simp only [Cut.isNameStart, Char.isAlpha, Char.isUpper, Char.isLower, Bool.or_eq_true,
      Bool.and_eq_true, decide_eq_true_eq, beq_iff_eq, hbeyond, or_false] at h
    simp only [StartsName, UInt8.le_iff_toNat_le, ← UInt8.toNat_inj, hval]
    rcases h with (⟨hl, hu⟩ | ⟨hl, hu⟩) | rfl
    · exact .inl ⟨UInt32.le_iff_toNat_le.1 hl, UInt32.le_iff_toNat_le.1 hu⟩
    · exact .inr (.inl ⟨UInt32.le_iff_toNat_le.1 hl, UInt32.le_iff_toNat_le.1 hu⟩)
    · exact .inr (.inr (.inl rfl))
  · exact .inr (.inr (.inr (le_of_mem_utf8 hc hb)))

theorem continuesName_of_isNamePart {c : Char} (h : Cut.isNamePart c) :
    ∀ b ∈ utf8 [c], ContinuesName b := by
  intro b hb
  by_cases hstart : Cut.isNameStart c
  · exact .inl (startsName_of_isNameStart hstart b hb)
  · have hdigit : c.isDigit := by
      simp only [Cut.isNamePart, Char.isAlphanum, Bool.or_eq_true] at h
      simp only [Cut.isNameStart, Bool.or_eq_true] at hstart
      tauto
    simp only [Char.isDigit, Bool.and_eq_true, decide_eq_true_eq] at hdigit
    have hc : c.val < 0x80 := UInt32.lt_of_le_of_lt hdigit.2 (by decide)
    have hval := mem_utf8_of_lt hc hb
    simp only [ContinuesName, UInt8.le_iff_toNat_le, hval]
    exact .inr ⟨UInt32.le_iff_toNat_le.1 hdigit.1, UInt32.le_iff_toNat_le.1 hdigit.2⟩

theorem ofWord?_eq_none_iff {text : String} :
    Keyword.ofWord? text = none ↔ ∀ k : Keyword, k.word ≠ text := by
  have hall (k : Keyword) : k ∈ Keyword.all := by cases k <;> decide
  simp only [Keyword.ofWord?, List.find?_eq_none, beq_iff_eq]
  exact ⟨fun h k => h k (hall k), fun h k _ => h k⟩

/-- A word that is no keyword is a name. -/
theorem IsWord.isName {text : String} (h : IsWord text) (hk : Keyword.ofWord? text = none) :
    IsName text := by
  obtain ⟨c, cs, htext, hc, hcs⟩ := h
  refine ⟨?_, ofWord?_eq_none_iff.1 hk⟩
  have hstart := startsName_of_isNameStart hc
  have hrest : ∀ d ∈ utf8 cs, ContinuesName d := by
    intro d hd
    obtain ⟨e, he, hd⟩ := List.mem_flatMap.1 hd
    exact continuesName_of_isNamePart (hcs e he) d (List.mem_flatMap.2 ⟨e, by simp, hd⟩)
  obtain ⟨b, bs, hbytes⟩ : ∃ b bs, utf8 [c] = b :: bs :=
    List.exists_cons_of_length_pos (by
      rw [utf8, List.flatMap_singleton, String.length_utf8EncodeChar]
      exact Char.utf8Size_pos c)
  rw [hbytes, List.forall_mem_cons] at hstart
  refine ⟨b, bs ++ utf8 cs, ?_, hstart.1, ?_⟩
  · rw [htext, ← List.singleton_append, utf8_append, hbytes, List.cons_append]
  · exact List.forall_mem_append.2 ⟨fun d hd => .inl (hstart.2 d hd), hrest⟩

/-! ### Identifiers -/

/-- Each identifier among tokens is a name. -/
def Named (ts : List Token) : Prop := ∀ t ∈ ts, t.kind = .identifier → IsName t.text

namespace Piece

/-- A piece is no identifier, or its text is a name. -/
def IsNamed : Piece → Prop
  | token .identifier _ text _ => IsName (String.ofList text)
  | _ => True

theorem IsNamed.token {p : Piece} (h : p.IsNamed) {q : Position} {t : Token}
    (ht : p.token? q = some t) (hk : t.kind = .identifier) : IsName t.text := by
  cases p with
  | gap | broken => cases ht
  | lineEnd =>
    cases ht
    cases hk
  | token kind a text b =>
    cases ht
    cases hk
    exact h

end Piece

namespace Cut

theorem word_isNamed {c : Char} (h : isNameStart c) (cs : List Char) :
    (word (c :: cs)).1.IsNamed := by
  have htext : (c :: cs).takeWhile isNamePart = c :: cs.takeWhile isNamePart :=
    List.takeWhile_cons_of_pos (isNamePart_of_isNameStart h)
  have hpart : ∀ d ∈ cs.takeWhile isNamePart, isNamePart d :=
    List.all_eq_true.1 List.all_takeWhile
  simp only [word, htext]
  cases hk : Keyword.ofWord? (String.ofList (c :: cs.takeWhile isNamePart)) with
  | none => exact IsWord.isName ⟨c, _, String.toList_ofList, h, hpart⟩ hk
  | some k => trivial

theorem number_ne_identifier (cs : List Char) : (number cs).1 ≠ .identifier := by
  unfold number
  split
  · split_ifs
    · simp
    · simp
    · simp only [decimal]
      split_ifs <;> simp
  · simp only [decimal]
    split_ifs <;> simp

theorem plain_isNamed {kind : TokenKind} (h : kind ≠ .identifier) (text : List Char) :
    (Piece.plain kind text).IsNamed := by
  cases kind with
  | identifier => exact absurd rfl h
  | _ => trivial

theorem textLiteral_isNamed (raw : Bool) (quote : Char) (cs : List Char) :
    (textLiteral raw quote cs).1.IsNamed := by
  simp only [textLiteral]
  split_ifs <;> trivial

theorem tag_isNamed (cs : List Char) : (tag cs).1.IsNamed := by
  unfold tag
  split <;> trivial

theorem punctuation_isNamed (depth : Nat) (c : Char) (cs : List Char) :
    ∀ p ∈ (punctuation depth c cs).pieces, p.IsNamed := by
  unfold punctuation
  split <;> refine List.forall_mem_singleton.2 ?_
  · trivial
  · trivial
  · next hm =>
    refine plain_isNamed (fun hk => ?_) _
    have hsign := mark?_isSign hm
    rw [hk] at hsign
    exact hsign
  · trivial

/-- Only where a name starts an identifier is cut. -/
theorem inLine_isNamed (depth : Nat) (c : Char) (cs : List Char) :
    ∀ p ∈ (inLine depth c cs).pieces, p.IsNamed := by
  have hfits := Choice.ofChars_fits c cs
  rw [inLine_eq_cut]
  cases hk : Choice.ofChars c cs with rw [hk] at hfits
  | lineEnd =>
    rw [Choice.cut]
    split_ifs <;> exact List.forall_mem_singleton.2 trivial
  | blank | comment | join => exact List.forall_mem_singleton.2 trivial
  | rawText =>
    exact List.forall_mem_cons.2 ⟨trivial, List.forall_mem_singleton.2 (textLiteral_isNamed ..)⟩
  | word => exact List.forall_mem_singleton.2 (word_isNamed hfits cs)
  | numeral => exact List.forall_mem_singleton.2 (plain_isNamed (number_ne_identifier _) _)
  | text => exact List.forall_mem_singleton.2 (textLiteral_isNamed ..)
  | tag => exact List.forall_mem_singleton.2 (tag_isNamed cs)
  | sign => exact punctuation_isNamed depth c cs

theorem atLineStart_isNamed (cs : List Char) : ∀ p ∈ (atLineStart cs).pieces, p.IsNamed := by
  unfold atLineStart enter
  split
  · exact List.forall_mem_singleton.2 trivial
  · exact List.forall_mem_singleton.2 trivial
  · dsimp only
    split_ifs <;> exact List.forall_mem_singleton.2 trivial

end Cut

theorem cutAll_isNamed (stand : Stand) (cs : List Char) : ∀ p ∈ (cutAll stand cs).1, p.IsNamed := by
  fun_induction cutAll stand cs with
  | case1 => exact List.forall_mem_nil _
  | case2 c cs k r ih => exact List.forall_mem_append.2 ⟨Cut.atLineStart_isNamed (c :: cs), ih⟩
  | case3 depth c cs k r ih => exact List.forall_mem_append.2 ⟨Cut.inLine_isNamed depth c cs, ih⟩

theorem named_layOut {ps : List Piece} (h : ∀ p ∈ ps, p.IsNamed) (q : Position) :
    Named (layOut Piece.token? q ps) := by
  induction ps generalizing q with
  | nil => exact nofun
  | cons p ps ih =>
    obtain ⟨hp, hps⟩ := List.forall_mem_cons.1 h
    refine List.forall_mem_append.2 ⟨fun t ht hk => ?_, ih hps _⟩
    exact hp.token (Option.mem_toList.1 ht) hk

/-- Each identifier of a script is a name. -/
theorem Lexed.named_ofText (source : String) : Named (ofText source).tokens := by
  have hpieces := named_layOut (cutAll_isNamed .lineStart source.toList) {}
  refine List.forall_mem_append.2 ⟨List.forall_mem_append.2 ⟨hpieces, ?_⟩, ?_⟩
  · unfold closingLine
    split
    · split_ifs
      · exact nofun
      · exact List.forall_mem_singleton.2 nofun
    · exact nofun
  · exact List.forall_mem_singleton.2 nofun

end ScriptBridge
