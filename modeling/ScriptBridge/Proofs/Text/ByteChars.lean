import Mathlib.Data.List.DropRight
import ScriptBridge.Proofs.Text.ByteOffsets

/-! Texts by bytes. A text that is read by bytes has a character for each byte. Proved: characters
of ASCII are their own bytes, and a sort of characters that tells no characters beyond ASCII apart
divides the bytes of a text where it divides the text. -/

namespace ScriptBridge

/-- The bytes of a text, each as a character of its own. -/
def byteChars (cs : List Char) : List Char := (utf8 cs).map Char.ofUInt8

@[simp] theorem byteChars_nil : byteChars [] = [] := rfl

@[simp] theorem byteChars_append (cs ds : List Char) :
    byteChars (cs ++ ds) = byteChars cs ++ byteChars ds := by
  rw [byteChars, utf8_append, List.map_append]
  rfl

theorem byteChars_cons (c : Char) (cs : List Char) :
    byteChars (c :: cs) = byteChars [c] ++ byteChars cs := byteChars_append [c] cs

theorem byteChars_of_lt {c : Char} (h : c.val < 0x80) : byteChars [c] = [c] := by
  rw [byteChars, utf8_of_lt h, List.map_singleton, ofUInt8_toUInt8 h]

theorem byteChars_ne_nil (c : Char) : byteChars [c] ≠ [] := by
  have hlength : 0 < (byteChars [c]).length := by
    rw [byteChars, List.length_map, utf8, List.flatMap_singleton, String.length_utf8EncodeChar]
    exact c.utf8Size_pos
  exact List.ne_nil_of_length_pos hlength

theorem ofUInt8_injective {a b : UInt8} (h : Char.ofUInt8 a = Char.ofUInt8 b) : a = b := by
  have hval : (Char.ofUInt8 a).val.toNat = (Char.ofUInt8 b).val.toNat := by rw [h]
  exact UInt8.toNat_inj.1 (by simpa [Char.ofUInt8] using hval)

theorem byteChars_injective : Function.Injective byteChars := by
  intro cs ds h
  have hmap : Function.Injective Char.ofUInt8 := fun _ _ => ofUInt8_injective
  exact utf8_injective (hmap.list_map h)

/-- A character of ASCII is among the bytes of a character only if it is that character. -/
theorem eq_of_mem_byteChars {c d : Char} (hd : d.val < 0x80) (h : d ∈ byteChars [c]) : d = c := by
  by_cases hc : c.val < 0x80
  · rw [byteChars_of_lt hc] at h
    exact List.mem_singleton.1 h
  · obtain ⟨b, hb, rfl⟩ := List.mem_map.1 h
    have hle := UInt8.le_iff_toNat_le.1 (le_of_mem_utf8 hc hb)
    have hlt := UInt32.lt_iff_toNat_lt.1 hd
    simp [Char.ofUInt8] at hle hlt
    omega

/-- The bytes of a character beyond ASCII are beyond ASCII. -/
theorem not_lt_of_mem_byteChars {c d : Char} (hc : ¬c.val < 0x80) (h : d ∈ byteChars [c]) :
    ¬d.val < 0x80 := fun hd => hc (eq_of_mem_byteChars hd h ▸ hd)

/-- Behind its first byte a character has none of ASCII. -/
theorem not_lt_of_mem_tail {c d : Char} {ds : List Char} (h : byteChars [c] = d :: ds) :
    ∀ x ∈ ds, ¬x.val < 0x80 := by
  intro x hx
  by_cases hc : c.val < 0x80
  · rw [byteChars_of_lt hc] at h
    cases h
    cases hx
  · exact not_lt_of_mem_byteChars hc (h ▸ List.mem_cons_of_mem d hx)

theorem byteChars_cons_of_lt {c : Char} (h : c.val < 0x80) (cs : List Char) :
    byteChars (c :: cs) = c :: byteChars cs := by
  rw [byteChars_cons, byteChars_of_lt h, List.singleton_append]

/-! ### Sorts of characters -/

/-- A sort of characters that the bytes of a character are of if the character is. -/
def Uniform (p : Char → Bool) : Prop := ∀ c, ∀ d ∈ byteChars [c], p d = p c

/-- A sort that all characters beyond ASCII are of, or none. -/
theorem Uniform.of_forall {p : Char → Bool} (b : Bool) (h : ∀ c, ¬c.val < 0x80 → p c = b) :
    Uniform p := by
  intro c d hd
  by_cases hc : c.val < 0x80
  · rw [byteChars_of_lt hc, List.mem_singleton] at hd
    rw [hd]
  · rw [h c hc, h d (not_lt_of_mem_byteChars hc hd)]

/-- A sort of characters of ASCII. -/
theorem Uniform.of_ascii {p : Char → Bool} (h : ∀ c, p c = true → c.val < 0x80) : Uniform p :=
  .of_forall false fun c hc => Bool.eq_false_iff.2 (mt (h c) hc)

theorem Uniform.or {p q : Char → Bool} (hp : Uniform p) (hq : Uniform q) :
    Uniform fun c => p c || q c := fun c d hd => congrArg₂ _ (hp c d hd) (hq c d hd)

theorem Uniform.not {p : Char → Bool} (hp : Uniform p) : Uniform fun c => !p c :=
  fun c d hd => congrArg _ (hp c d hd)

theorem Uniform.beq {d : Char} (hd : d.val < 0x80) : Uniform (· == d) :=
  .of_ascii fun _ h => beq_iff_eq.1 h ▸ hd

/-- The first byte of a text is of each sort that its first character is of. -/
theorem exists_byteChars_cons (c : Char) (cs : List Char) :
    ∃ d ds, byteChars (c :: cs) = d :: ds ∧ ∀ p, Uniform p → p d = p c := by
  obtain ⟨d, ds, hds⟩ := List.exists_cons_of_ne_nil (byteChars_ne_nil c)
  refine ⟨d, ds ++ byteChars cs, by rw [byteChars_cons, hds, List.cons_append], fun p hp => ?_⟩
  exact hp c d (hds ▸ List.mem_cons_self)

section Uniform

variable {p : Char → Bool} (hp : Uniform p)

include hp

theorem takeWhile_byteChars (cs : List Char) :
    (byteChars cs).takeWhile p = byteChars (cs.takeWhile p) := by
  induction cs with
  | nil => rfl
  | cons c cs ih =>
    by_cases hc : p c = true
    · rw [byteChars_cons, List.takeWhile_append_of_pos fun d hd => (hp c d hd).trans hc, ih,
        List.takeWhile_cons_of_pos hc, byteChars_cons c (cs.takeWhile p)]
    · obtain ⟨d, ds, hds, hd⟩ := exists_byteChars_cons c cs
      rw [hds, List.takeWhile_cons_of_neg (hd p hp ▸ hc), List.takeWhile_cons_of_neg hc]
      rfl

theorem dropWhile_byteChars (cs : List Char) :
    (byteChars cs).dropWhile p = byteChars (cs.dropWhile p) := by
  induction cs with
  | nil => rfl
  | cons c cs ih =>
    by_cases hc : p c = true
    · rw [byteChars_cons, List.dropWhile_append_of_pos fun d hd => (hp c d hd).trans hc, ih,
        List.dropWhile_cons_of_pos hc]
    · obtain ⟨d, ds, hds, hd⟩ := exists_byteChars_cons c cs
      rw [hds, List.dropWhile_cons_of_neg (hd p hp ▸ hc), List.dropWhile_cons_of_neg hc, ← hds]

theorem rdropWhile_byteChars (cs : List Char) :
    (byteChars cs).rdropWhile p = byteChars (cs.rdropWhile p) := by
  induction cs using List.reverseRecOn with
  | nil => rfl
  | append_singleton cs c ih =>
    rw [byteChars_append]
    by_cases hc : p c = true
    · have hall : ∀ d ∈ (byteChars [c]).reverse, p d = true := fun d hd =>
        (hp c d (List.mem_reverse.1 hd)).trans hc
      rw [List.rdropWhile_concat_pos _ _ _ hc, ← ih, List.rdropWhile, List.rdropWhile,
        List.reverse_append, List.dropWhile_append_of_pos hall]
    · obtain ⟨bs, b, hbs⟩ :=
        (List.eq_nil_or_concat' (byteChars [c])).resolve_left (byteChars_ne_nil c)
      have hb : ¬p b = true := by
        rw [hp c b (hbs ▸ List.mem_concat_self)]
        exact hc
      rw [List.rdropWhile_concat_neg _ _ _ hc, byteChars_append, hbs, ← List.append_assoc,
        List.rdropWhile_concat_neg _ _ _ hb]

end Uniform

/-! ### Characters of ASCII -/

theorem mem_byteChars_iff {c : Char} (hc : c.val < 0x80) {cs : List Char} :
    c ∈ byteChars cs ↔ c ∈ cs := by
  induction cs with
  | nil => exact Iff.rfl
  | cons d cs ih =>
    rw [byteChars_cons, List.mem_append, List.mem_cons, ih]
    refine or_congr_left ⟨eq_of_mem_byteChars hc, ?_⟩
    rintro rfl
    rw [byteChars_of_lt hc]
    exact List.mem_singleton_self c

/-- A text read by bytes. -/
def byByte (text : String) : String := String.ofList (byteChars text.toList)

theorem byByte_injective : Function.Injective byByte := fun _ _ h =>
  String.toList_inj.1 (byteChars_injective (String.ofList_inj.1 h))

theorem byteChars_of_forall {cs : List Char} (h : ∀ c ∈ cs, c.val < 0x80) : byteChars cs = cs := by
  induction cs with
  | nil => rfl
  | cons c cs ih =>
    obtain ⟨hc, hcs⟩ := List.forall_mem_cons.1 h
    rw [byteChars_cons, byteChars_of_lt hc, ih hcs, List.singleton_append]

/-- Whether every character of a text is one byte. -/
def isAscii (text : String) : Bool := text.toList.all fun c => c.val < 0x80

theorem byByte_of_isAscii (text : String) (h : isAscii text = true) : byByte text = text := by
  rw [byByte, byteChars_of_forall (by simpa [isAscii] using h), String.ofList_toList]

theorem byByte_append (a b : String) : byByte (a ++ b) = byByte a ++ byByte b := by
  rw [byByte, String.toList_append, byteChars_append, String.ofList_append]
  rfl

/-- A text of ASCII is what a text is by bytes only if it is that text. -/
theorem byByte_eq_iff (word : String) (h : isAscii word = true) {text : String} :
    byByte text = word ↔ text = word := by
  constructor
  · intro heq
    exact byByte_injective (heq.trans (byByte_of_isAscii word h).symm)
  · rintro rfl
    exact byByte_of_isAscii _ h

end ScriptBridge
