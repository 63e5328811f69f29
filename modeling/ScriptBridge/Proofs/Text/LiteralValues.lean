import ScriptBridge.Text.Code

/-! Values of quoted literals. A literal is read from its opening mark: a backslash stands with
the character behind it for one character, and the first mark that no backslash hides closes
the literal. Proved: a quoted text is one literal, and the text is its value. -/

namespace ScriptBridge.Literal

/-- The character that a backslash and a character stand for. -/
def unescape : Char → Option Char
  | '\\' => some '\\'
  | '"' => some '"'
  | 'n' => some '\n'
  | 'r' => some '\r'
  | 't' => some '\t'
  | _ => none

/-- The value of a literal behind its opening mark, and what follows its closing mark. A
literal holds no line end. -/
def readValue : List Char → Option (List Char × List Char)
  | [] => none
  | '"' :: cs => some ([], cs)
  | '\\' :: c :: cs => do
    let v ← readValue cs
    return ((← unescape c) :: v.1, v.2)
  | c :: cs =>
    if c == '\\' || c == '\n' || c == '\r' then none
    else (readValue cs).map fun v => (c :: v.1, v.2)

/-- The value of a text that is one literal. -/
def value? (text : String) : Option String :=
  match text.toList with
  | '"' :: cs =>
    match readValue cs with
    | some (v, []) => some (String.ofList v)
    | _ => none
  | _ => none

/-- Reading a character as it is written in a literal gives the character. -/
theorem readValue_escapeChar (c : Char) {cs : List Char} {v : List Char × List Char}
    (h : readValue cs = some v) : readValue (escapeChar c ++ cs) = some (c :: v.1, v.2) := by
  unfold escapeChar
  split
  case h_6 hbackslash hquote hfeed hreturn htab =>
    rw [List.singleton_append, readValue.eq_def]
    split
    · contradiction
    · exact absurd (List.cons.inj ‹_›).1 hquote
    · exact absurd (List.cons.inj ‹_›).1 hbackslash
    · next d ds _ _ heq =>
      obtain ⟨rfl, rfl⟩ := List.cons.inj heq
      have hplain : (c == '\\' || c == '\n' || c == '\r') = false := by
        simpa using ⟨⟨hbackslash, hfeed⟩, hreturn⟩
      rw [hplain, h]
      rfl
  all_goals simp [readValue, unescape, h]

theorem readValue_escape (cs rest : List Char) :
    readValue (cs.flatMap escapeChar ++ '"' :: rest) = some (cs, rest) := by
  induction cs with
  | nil => rfl
  | cons c cs ih =>
    rw [List.flatMap_cons, List.append_assoc]
    exact readValue_escapeChar c ih

theorem toList_quoted (text : String) :
    (quoted text).toList = '"' :: (text.toList.flatMap escapeChar ++ ['"']) := by
  simp [quoted, escape, String.toList_append]

/-- A quoted text is a literal of the text. -/
theorem value?_quoted (text : String) : value? (quoted text) = some text := by
  rw [value?, toList_quoted]
  simp only [readValue_escape, String.ofList_toList]

theorem lineFeed_notMem_escapeChar (c : Char) : '\n' ∉ escapeChar c := by
  unfold escapeChar
  split
  case h_6 _ _ hfeed _ _ => simpa using Ne.symm hfeed
  all_goals decide

/-- A literal stands on one line. -/
theorem lineFeed_notMem_quoted (text : String) : '\n' ∉ (quoted text).toList := by
  rw [toList_quoted]
  simp [lineFeed_notMem_escapeChar]

end ScriptBridge.Literal
