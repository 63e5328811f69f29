import Mathlib
import ScriptBridge.Text.Position

/-! Positions and byte offsets. A position is a function of the text before it; here it is
counted on the bytes of the text in UTF-8. Proved: the position behind a part of a text is
that of the part's number of bytes, where the line counts the line feeds before the offset and
the column the bytes behind the last of them. -/

namespace ScriptBridge

/-- The bytes of a text in UTF-8. -/
def utf8 (cs : List Char) : List UInt8 := cs.flatMap String.utf8EncodeChar

@[simp] theorem utf8_nil : utf8 [] = [] := rfl

@[simp] theorem utf8_append (cs ds : List Char) : utf8 (cs ++ ds) = utf8 cs ++ utf8 ds :=
  List.flatMap_append

theorem utf8_toList (text : String) : utf8 text.toList = text.toUTF8.data.toList := by
  rw [← String.ofList_toList (s := text)]
  simp only [String.toUTF8_eq_toByteArray, String.toByteArray_ofList, String.toList_ofList, utf8,
    List.utf8Encode, List.toList_data_toByteArray]

/-- Different texts have different bytes. -/
theorem utf8_injective {cs ds : List Char} (h : utf8 cs = utf8 ds) : cs = ds := by
  have htexts := utf8_toList (String.ofList cs)
  have hbytes := utf8_toList (String.ofList ds)
  rw [String.toList_ofList] at htexts hbytes
  rw [htexts, hbytes, Array.toList_inj] at h
  exact String.ofList_inj.1 (String.toByteArray_inj.1 (ByteArray.ext h))

/-- A character of ASCII is one byte. -/
theorem utf8_of_lt {c : Char} (h : c.val < 0x80) : utf8 [c] = [c.val.toUInt8] := by
  have hval : c.val.toNat ≤ 127 := Nat.le_of_lt_succ (UInt32.lt_iff_toNat_lt.1 h)
  have hbytes : String.utf8EncodeChar c = [UInt8.ofNat c.val.toNat] := if_pos hval
  rw [utf8, List.flatMap_singleton, hbytes]
  rfl

theorem ofUInt8_toUInt8 {c : Char} (h : c.val < 0x80) : Char.ofUInt8 c.val.toUInt8 = c := by
  have hval : c.val.toNat < 128 := UInt32.lt_iff_toNat_lt.1 h
  apply Char.ext
  apply UInt32.toNat_inj.1
  rw [Char.ofUInt8, UInt8.toNat_toUInt32, UInt32.toNat_toUInt8]
  omega

/-- The bytes of a character beyond ASCII are beyond ASCII. -/
theorem le_of_mem_utf8 {c : Char} (h : ¬c.val < 0x80) {b : UInt8} (hb : b ∈ utf8 [c]) :
    0x80 ≤ b := by
  have hval : 128 ≤ c.val.toNat := Nat.le_of_not_lt fun hlt => h (UInt32.lt_iff_toNat_lt.2 hlt)
  have hbyte {n : Nat} (hn : 128 ≤ n % 256) : 0x80 ≤ UInt8.ofNat n := by
    rw [UInt8.le_iff_toNat_le, UInt8.toNat_ofNat']
    exact hn
  simp only [utf8, List.flatMap_singleton, String.utf8EncodeChar] at hb
  split_ifs at hb
  · omega
  · simp only [List.mem_cons, List.not_mem_nil, or_false] at hb
    rcases hb with rfl | rfl <;> exact hbyte (by omega)
  · simp only [List.mem_cons, List.not_mem_nil, or_false] at hb
    rcases hb with rfl | rfl | rfl <;> exact hbyte (by omega)
  · simp only [List.mem_cons, List.not_mem_nil, or_false] at hb
    rcases hb with rfl | rfl | rfl | rfl <;> exact hbyte (by omega)

/-- The byte of a line feed. -/
def lineFeed : UInt8 := 0x0A

/-- A line feed is no part of the encoding of another character. -/
theorem lineFeed_not_mem_utf8EncodeChar {c : Char} (hc : c ≠ '\n') :
    lineFeed ∉ String.utf8EncodeChar c := by
  have hval : c.val.toNat ≠ 10 := fun h => hc (Char.toNat_inj.1 h)
  have hbyte (n : Nat) : lineFeed = UInt8.ofNat n ↔ n % 256 = 10 := by
    rw [← UInt8.toNat_inj, UInt8.toNat_ofNat']
    exact eq_comm
  simp only [String.utf8EncodeChar]
  split_ifs <;> simp only [List.mem_cons, List.not_mem_nil, or_false, hbyte] <;> omega

namespace Position

/-- The position behind so many bytes: one line for each line feed among them, and one column
for each byte behind the last line feed. -/
def atByte (bytes : List UInt8) (offset : Nat) : Position where
  line := 1 + (bytes.take offset).count lineFeed
  column := 1 + ((bytes.take offset).reverse.takeWhile (· != lineFeed)).length

/-- The position behind one more byte. -/
theorem atByte_concat (bytes : List UInt8) (b : UInt8) :
    atByte (bytes ++ [b]) (bytes.length + 1) =
      if b = lineFeed then ⟨(atByte bytes bytes.length).line + 1, 1⟩
      else ⟨(atByte bytes bytes.length).line, (atByte bytes bytes.length).column + 1⟩ := by
  have htake : (bytes ++ [b]).take (bytes.length + 1) = bytes ++ [b] :=
    List.take_of_length_le (List.length_append.le)
  rw [atByte, atByte, htake, List.take_length, List.count_append, List.reverse_append,
    List.reverse_singleton, List.singleton_append]
  split_ifs with hb
  · subst hb
    simp [Nat.add_assoc]
  · rw [List.takeWhile_cons_of_pos (by simpa using hb), List.count_singleton]
    simp [hb, Nat.add_assoc]

/-- The position behind a text, counted on its bytes. -/
theorem after_start (cs : List Char) :
    ({} : Position).after cs =
      { line := 1 + (utf8 cs).count lineFeed
        column := 1 + ((utf8 cs).reverse.takeWhile (· != lineFeed)).length } := by
  induction cs using List.reverseRecOn with
  | nil => rfl
  | append_singleton cs c ih =>
    rw [after_append, ih, after_cons, after_nil, utf8_append]
    by_cases hc : c = '\n'
    · subst hc
      have hbytes : utf8 ['\n'] = [lineFeed] := by decide
      simp [advance, hbytes]
      omega
    · have hfeed := lineFeed_not_mem_utf8EncodeChar hc
      have hbytes : utf8 [c] = String.utf8EncodeChar c := List.append_nil _
      rw [hbytes, List.count_append, List.count_eq_zero_of_not_mem hfeed, List.reverse_append,
        List.takeWhile_append_of_pos, List.length_append, List.length_reverse,
        String.length_utf8EncodeChar, advance, if_neg hc]
      · congr 1
        dsimp only
        omega
      · intro b hb
        rw [bne_iff_ne]
        rintro rfl
        exact hfeed (List.mem_reverse.1 hb)

/-- The position behind a part of a text is that of the part's number of bytes. -/
theorem after_eq_atByte (cs ds : List Char) :
    ({} : Position).after cs = atByte (utf8 (cs ++ ds)) (utf8 cs).length := by
  rw [after_start, atByte, utf8_append, List.take_left]

end Position

end ScriptBridge
