import Mathlib.Data.List.TakeWhile
import ScriptBridge.Proofs.Text.ByteOffsets

/-! Reading JSON from bytes. Bytes beyond ASCII stand for themselves in texts, so any bytes may
be the value of a text. A reader takes a value from the start of the bytes, blanks before it
included, and leaves what follows. There are no numbers. Proved: what a list or an object in
brackets stands for, with any blanks between its parts. -/

namespace ScriptBridge

abbrev Bytes := List UInt8

inductive Json where
  | null
  | flag (b : Bool)
  | text (value : Bytes)
  | list (items : List Json)
  | object (fields : List (Bytes × Json))

namespace Json

/-! ### Texts -/

def isBlank (b : UInt8) : Bool :=
  b == ' '.toUInt8 || b == '\t'.toUInt8 || b == '\n'.toUInt8 || b == '\r'.toUInt8

def skipBlank (bs : Bytes) : Bytes := bs.dropWhile isBlank

/-- The value of a hexadecimal digit, in either case. -/
def hexValue? (b : UInt8) : Option Nat :=
  if 0x30 ≤ b ∧ b ≤ 0x39 then some (b.toNat - 0x30)
  else if 0x41 ≤ b ∧ b ≤ 0x46 then some (b.toNat - 0x37)
  else if 0x61 ≤ b ∧ b ≤ 0x66 then some (b.toNat - 0x57)
  else none

/-- The bytes of the character with a number of four hexadecimal digits. Surrogates are no
characters. -/
def ofNumber? (digits : List UInt8) : Option Bytes := do
  let values ← digits.mapM hexValue?
  let number := values.foldl (fun n d => 16 * n + d) 0
  if number.isValidChar then some (String.utf8EncodeChar (Char.ofNat number)) else none

/-- The byte that a backslash and a letter or mark stand for. -/
def unescape? (b : UInt8) : Option UInt8 :=
  if b = '"'.toUInt8 ∨ b = '\\'.toUInt8 ∨ b = '/'.toUInt8 then some b
  else if b = 'b'.toUInt8 then some 0x08
  else if b = 'f'.toUInt8 then some 0x0C
  else if b = 'n'.toUInt8 then some 0x0A
  else if b = 'r'.toUInt8 then some 0x0D
  else if b = 't'.toUInt8 then some 0x09
  else none

/-- The value of a text behind its opening mark. Control characters have to be escaped. -/
def readText : Bytes → Option (Bytes × Bytes)
  | [] => none
  | b :: bs =>
    if b = '"'.toUInt8 then some ([], bs)
    else if b = '\\'.toUInt8 then
      match bs with
      | [] => none
      | e :: bs =>
        if e = 'u'.toUInt8 then
          match bs with
          | h₁ :: h₂ :: h₃ :: h₄ :: bs => do
            let c ← ofNumber? [h₁, h₂, h₃, h₄]
            let r ← readText bs
            some (c ++ r.1, r.2)
          | _ => none
        else do
          let c ← unescape? e
          let r ← readText bs
          some (c :: r.1, r.2)
    else if b < 0x20 then none
    else (readText bs).map fun r => (b :: r.1, r.2)

section ReadText
variable {b e : UInt8} {bs c : Bytes} {r : Bytes × Bytes}

theorem readText_close (bs : Bytes) : readText ('"'.toUInt8 :: bs) = some ([], bs) := by
  rw [readText.eq_def]
  rfl

/-- A byte that is no mark, backslash or control character stands for itself. -/
theorem readText_plain (hclose : b ≠ '"'.toUInt8) (hescape : b ≠ '\\'.toUInt8) (hb : ¬b < 0x20)
    (h : readText bs = some r) : readText (b :: bs) = some (b :: r.1, r.2) := by
  rw [readText.eq_def]
  simp only [if_neg hclose, if_neg hescape, if_neg hb, h, Option.map_some]

theorem readText_unescape (he : e ≠ 'u'.toUInt8) (hb : unescape? e = some b)
    (h : readText bs = some r) :
    readText ('\\'.toUInt8 :: e :: bs) = some (b :: r.1, r.2) := by
  have hne : '\\'.toUInt8 ≠ '"'.toUInt8 := by decide
  rw [readText.eq_def]
  simp only [if_neg hne, if_true, if_neg he, hb, h, Option.bind_eq_bind, Option.bind_some]

theorem readText_number {digits : Bytes} (hlength : digits.length = 4)
    (hc : ofNumber? digits = some c) (h : readText bs = some r) :
    readText ('\\'.toUInt8 :: 'u'.toUInt8 :: (digits ++ bs)) = some (c ++ r.1, r.2) := by
  have hne : '\\'.toUInt8 ≠ '"'.toUInt8 := by decide
  match digits, hlength with
  | [_, _, _, _], _ =>
    rw [readText.eq_def]
    simp only [if_neg hne, if_true, List.cons_append, List.nil_append, hc, h, Option.bind_eq_bind,
      Option.bind_some]

end ReadText

/-! ### Values -/

section Series
variable {α : Type}

/-- One thing after another up to a closing bracket, with commas between them; no more than
`bound` of them. -/
def readMore (closing : UInt8) (one : Bytes → Option (α × Bytes)) :
    Nat → Bytes → Option (List α × Bytes)
  | 0, _ => none
  | bound + 1, bs => do
    let v ← one bs
    match skipBlank v.2 with
    | [] => none
    | b :: r =>
      if b = ','.toUInt8 then do
        let vs ← readMore closing one bound r
        some (v.1 :: vs.1, vs.2)
      else if b = closing then some ([v.1], r)
      else none

/-- What stands between brackets, behind the opening one. -/
def readSeries (closing : UInt8) (one : Bytes → Option (α × Bytes)) (bs : Bytes) :
    Option (List α × Bytes) :=
  match skipBlank bs with
  | [] => none
  | b :: r => if b = closing then some ([], r) else readMore closing one bs.length bs

end Series

/-- A name in quotes, a colon and a value. -/
def readField (value : Bytes → Option (Json × Bytes)) (bs : Bytes) :
    Option ((Bytes × Json) × Bytes) :=
  match skipBlank bs with
  | [] => none
  | b :: r =>
    if b = '"'.toUInt8 then do
      let name ← readText r
      match skipBlank name.2 with
      | [] => none
      | b :: r =>
        if b = ':'.toUInt8 then do
          let v ← value r
          some ((name.1, v.1), v.2)
        else none
    else none

/-- A value that is a word. -/
def readWord (bs : Bytes) : Option (Json × Bytes) :=
  let words := [(null, "null"), (flag true, "true"), (flag false, "false")]
  (words.find? fun w => (utf8 w.2.toList).isPrefixOf bs).map fun w =>
    (w.1, bs.drop (utf8 w.2.toList).length)

/-- A value in which brackets are nested less than `depth` deep. -/
def readValue : Nat → Bytes → Option (Json × Bytes)
  | 0, _ => none
  | depth + 1, bs =>
    match skipBlank bs with
    | [] => none
    | b :: r =>
      if b = '"'.toUInt8 then (readText r).map fun t => (text t.1, t.2)
      else if b = '['.toUInt8 then
        (readSeries ']'.toUInt8 (readValue depth) r).map fun l => (list l.1, l.2)
      else if b = '{'.toUInt8 then
        (readSeries '}'.toUInt8 (readField (readValue depth)) r).map fun l => (object l.1, l.2)
      else readWord (b :: r)

/-- The value of a document: one value, with blanks around it. -/
def ofBytes (bs : Bytes) : Option Json :=
  match readValue bs.length bs with
  | some (v, r) => if skipBlank r = [] then some v else none
  | none => none

/-! ### What bytes stand for -/

def AllBlank (gap : Bytes) : Prop := ∀ b ∈ gap, isBlank b

instance (gap : Bytes) : Decidable (AllBlank gap) :=
  decidable_of_iff (gap.all isBlank) List.all_eq_true

theorem skipBlank_append {gap : Bytes} (h : AllBlank gap) (bs : Bytes) :
    skipBlank (gap ++ bs) = skipBlank bs := List.dropWhile_append_of_pos h

theorem skipBlank_cons {b : UInt8} (h : isBlank b = false) (bs : Bytes) :
    skipBlank (b :: bs) = b :: bs := List.dropWhile_cons_of_neg (by simp [h])

section Series
variable {α : Type} {one : Bytes → Option (α × Bytes)} {closing : UInt8}

/-- A reader reads `v` off the bytes, whatever follows them and whatever blanks stand before. -/
def Stands (one : Bytes → Option (α × Bytes)) (v : α) (bs : Bytes) : Prop :=
  ∀ gap rest, AllBlank gap → one (gap ++ (bs ++ rest)) = some (v, rest)

theorem Stands.behindGap {v : α} {bs gap : Bytes} (h : Stands one v bs) (hgap : AllBlank gap) :
    Stands one v (gap ++ bs) := by
  intro before rest hbefore
  have hboth : AllBlank (before ++ gap) := List.forall_mem_append.2 ⟨hbefore, hgap⟩
  have := h (before ++ gap) rest hboth
  rwa [List.append_assoc, ← List.append_assoc gap] at this

/-- A bracket that closes a list. -/
structure Closes (closing : UInt8) (one : Bytes → Option (α × Bytes)) : Prop where
  not_blank : isBlank closing = false
  ne_comma : closing ≠ ','.toUInt8
  /-- Nothing that may stand in the list starts with the bracket. -/
  not_read : ∀ bs r, skipBlank bs = closing :: r → one bs = none

/-- The bytes of several things, with commas and blanks between them. -/
def separated (gap : Bytes) (items : List (α × Bytes)) : Bytes :=
  List.intercalate (','.toUInt8 :: gap) (items.map Prod.snd)

theorem readMore_separated (hc : Closes closing one) {gap last : Bytes} (hgap : AllBlank gap)
    (hlast : AllBlank last) {items : List (α × Bytes)} (hne : items ≠ [])
    (hitems : ∀ x ∈ items, Stands one x.1 x.2) {bound : Nat} (hbound : items.length ≤ bound)
    {before : Bytes} (hbefore : AllBlank before) (rest : Bytes) :
    readMore closing one bound
        (before ++ (separated gap items ++ (last ++ closing :: rest))) =
      some (items.map Prod.fst, rest) := by
  induction items generalizing bound before with
  | nil => exact absurd rfl hne
  | cons x items ih =>
    obtain ⟨hx, hitems⟩ := List.forall_mem_cons.1 hitems
    cases bound with
    | zero => exact absurd hbound (Nat.not_succ_le_zero _)
    | succ bound =>
      cases items with
      | nil =>
        have hclosed : skipBlank (last ++ closing :: rest) = closing :: rest := by
          rw [skipBlank_append hlast, skipBlank_cons hc.not_blank]
        simp [separated, readMore, hx _ _ hbefore, hclosed, hc.ne_comma]
      | cons y items =>
        have hcomma (r : Bytes) : skipBlank (','.toUInt8 :: r) = ','.toUInt8 :: r :=
          skipBlank_cons (by decide) r
        have hmore := ih (by simp) hitems (Nat.le_of_succ_le_succ hbound) hgap
        simp only [separated, List.map_cons] at hmore ⊢
        simp only [List.intercalate_cons_cons, List.append_assoc, List.cons_append, readMore,
          hx _ _ hbefore, Option.bind_eq_bind, Option.bind_some, hcomma, if_true, hmore]

/-- There are no more things than bytes, but for the last one. -/
theorem length_le_length_separated (gap : Bytes) (items : List (α × Bytes)) :
    items.length ≤ (separated gap items).length + 1 := by
  induction items with
  | nil => exact Nat.zero_le _
  | cons x items ih =>
    cases items with
    | nil => simp
    | cons y items =>
      simp only [separated, List.map_cons, List.intercalate_cons_cons, List.length_append,
        List.length_cons] at ih ⊢
      omega

theorem readSeries_separated (hc : Closes closing one) {before gap last : Bytes}
    (hbefore : AllBlank before) (hgap : AllBlank gap) (hlast : AllBlank last)
    {items : List (α × Bytes)} (hitems : ∀ x ∈ items, Stands one x.1 x.2) (rest : Bytes) :
    readSeries closing one (before ++ (separated gap items ++ (last ++ closing :: rest))) =
      some (items.map Prod.fst, rest) := by
  let bs := before ++ (separated gap items ++ (last ++ closing :: rest))
  cases items with
  | nil =>
    have hbs : skipBlank bs = closing :: rest := by
      rw [skipBlank_append hbefore, separated, List.map_nil, List.intercalate_nil, List.nil_append,
        skipBlank_append hlast, skipBlank_cons hc.not_blank]
    rw [readSeries, hbs]
    exact if_pos rfl
  | cons x items =>
    have hlength : (x :: items).length ≤ bs.length := by
      have := length_le_length_separated gap (x :: items)
      simp only [bs, List.length_append, List.length_cons] at this ⊢
      omega
    have hread : readMore closing one bs.length bs = some ((x :: items).map Prod.fst, rest) :=
      readMore_separated hc hgap hlast (List.cons_ne_nil _ _) hitems hlength hbefore rest
    -- The bytes do not start with the closing bracket, or the first thing could not be read.
    have hone : one bs ≠ none := by
      intro hnone
      cases hb : bs.length with
      | zero => rw [hb] at hlength; exact absurd hlength (Nat.not_succ_le_zero _)
      | succ bound => simp [hb, readMore, hnone] at hread
    unfold readSeries
    cases hskip : skipBlank bs with
    | nil =>
      have hblank := List.dropWhile_eq_nil_iff.1 hskip closing (by simp [bs])
      rw [hc.not_blank] at hblank
      cases hblank
    | cons b r =>
      have hb : b ≠ closing := by
        rintro rfl
        exact hone (hc.not_read _ _ hskip)
      exact (if_neg hb).trans hread

end Series

/-! ### Values and documents -/

variable {value : Bytes → Option (Json × Bytes)}

theorem closes_list (depth : Nat) : Closes ']'.toUInt8 (readValue depth) where
  not_blank := by decide
  ne_comma := by decide
  not_read bs r h := by
    cases depth with
    | zero => rfl
    | succ depth =>
      rw [readValue, h]
      rfl

theorem closes_object (value : Bytes → Option (Json × Bytes)) :
    Closes '}'.toUInt8 (readField value) where
  not_blank := by decide
  ne_comma := by decide
  not_read bs r h := by
    rw [readField, h]
    rfl

theorem stands_text {t body : Bytes}
    (h : ∀ rest, readText (body ++ '"'.toUInt8 :: rest) = some (t, rest)) (depth : Nat) :
    Stands (readValue (depth + 1)) (text t) ('"'.toUInt8 :: (body ++ ['"'.toUInt8])) := by
  intro gap rest hgap
  have hskip : skipBlank ('"'.toUInt8 :: (body ++ '"'.toUInt8 :: rest)) =
      '"'.toUInt8 :: (body ++ '"'.toUInt8 :: rest) := skipBlank_cons (by decide) _
  rw [readValue, skipBlank_append hgap]
  simp only [List.cons_append, List.append_assoc, List.nil_append, hskip, if_true, h,
    Option.map_some]

theorem stands_flag (b : Bool) (depth : Nat) :
    Stands (readValue (depth + 1)) (flag b) (utf8 (if b then "true" else "false").toList) := by
  intro gap rest hgap
  rw [readValue, skipBlank_append hgap]
  cases b <;> rfl

theorem stands_list (before gap last : Bytes) (hbefore : AllBlank before) (hgap : AllBlank gap)
    (hlast : AllBlank last) {depth : Nat} {items : List (Json × Bytes)}
    (hitems : ∀ x ∈ items, Stands (readValue depth) x.1 x.2) :
    Stands (readValue (depth + 1)) (list (items.map Prod.fst))
      ('['.toUInt8 :: (before ++ (separated gap items ++ (last ++ [']'.toUInt8])))) := by
  intro space rest hspace
  have hread := readSeries_separated (closes_list depth) hbefore hgap hlast hitems rest
  rw [readValue, skipBlank_append hspace, List.cons_append, skipBlank_cons (by decide)]
  simp only [List.append_assoc, List.cons_append, List.nil_append, hread, Option.map_some]
  rfl

theorem stands_object (before gap last : Bytes) (hbefore : AllBlank before) (hgap : AllBlank gap)
    (hlast : AllBlank last) {depth : Nat} {fields : List ((Bytes × Json) × Bytes)}
    (hfields : ∀ x ∈ fields, Stands (readField (readValue depth)) x.1 x.2) :
    Stands (readValue (depth + 1)) (object (fields.map Prod.fst))
      ('{'.toUInt8 :: (before ++ (separated gap fields ++ (last ++ ['}'.toUInt8])))) := by
  intro space rest hspace
  have hread := readSeries_separated (closes_object _) hbefore hgap hlast hfields rest
  rw [readValue, skipBlank_append hspace, List.cons_append, skipBlank_cons (by decide)]
  simp only [List.append_assoc, List.cons_append, List.nil_append, hread, Option.map_some]
  rfl

theorem stands_field {name body gap bs : Bytes} {v : Json}
    (hname : ∀ rest, readText (body ++ '"'.toUInt8 :: rest) = some (name, rest))
    (hgap : AllBlank gap) (hv : Stands value v bs) :
    Stands (readField value) (name, v)
      ('"'.toUInt8 :: (body ++ '"'.toUInt8 :: ':'.toUInt8 :: (gap ++ bs))) := by
  intro space rest hspace
  have hread := hv gap rest hgap
  rw [readField, skipBlank_append hspace, List.cons_append, skipBlank_cons (by decide)]
  simp only [if_true, List.append_assoc, List.cons_append, hname, Option.bind_eq_bind,
    Option.bind_some, skipBlank_cons (show isBlank ':'.toUInt8 = false by decide), hread]

/-- A document is a value with blanks behind it. -/
theorem ofBytes_of_stands {v : Json} {bs last : Bytes} (nesting : Nat)
    (h : ∀ depth, Stands (readValue (depth + nesting)) v bs) (hlast : AllBlank last)
    (hlength : nesting ≤ (bs ++ last).length) : ofBytes (bs ++ last) = some v := by
  obtain ⟨depth, hdepth⟩ := Nat.exists_eq_add_of_le' hlength
  have hread : readValue (bs ++ last).length (bs ++ last) = some (v, last) :=
    hdepth ▸ h depth [] last nofun
  have hblank : skipBlank last = [] := List.dropWhile_eq_nil_iff.2 hlast
  rw [ofBytes, hread]
  exact if_pos hblank

end Json

end ScriptBridge
