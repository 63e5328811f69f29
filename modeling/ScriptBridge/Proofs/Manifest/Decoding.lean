import ScriptBridge.Manifest
import ScriptBridge.Proofs.Text.DigestDigits
import ScriptBridge.Proofs.Text.Json
import ScriptBridge.Proofs.Text.LiteralBytes

/-! Manifests read back. A listing is the data of a manifest with its texts as bytes, any bytes,
and a run has the listing of its texts in UTF-8. Proved: the bytes of a listing are JSON, and
reading them gives the lists in their order with each text as it was. So listings that differ in
what they list, the units' texts counting by their digests, have different manifests. -/

namespace ScriptBridge

namespace Manifest

open Json

/-! ### Texts -/

/-- A byte in a text of the manifest: in ASCII as the character, and beyond it the byte itself. -/
def escapeByte (b : UInt8) : Bytes :=
  if b < 0x80 then utf8 (escapeChar (Char.ofUInt8 b)) else [b]

def quotedBytes (text : Bytes) : Bytes :=
  '"'.toUInt8 :: (text.flatMap escapeByte ++ ['"'.toUInt8])

/-- The digits of a control character, as they are written. -/
def controlDigits (n : Nat) : Bytes :=
  utf8 ['0', '0', Nat.digitChar (n / 16), Nat.digitChar (n % 16)]

/-- The number of a control character is read off its four digits. -/
theorem ofNumber?_controlDigits :
    ∀ n < 32, (controlDigits n).length = 4 ∧
      ofNumber? (controlDigits n) = some [UInt8.ofNat n] := by
  decide

/-- Each byte is read as it was before it was escaped. -/
theorem readText_escapeByte (b : UInt8) {bs : Bytes} {r : Bytes × Bytes}
    (h : readText bs = some r) : readText (escapeByte b ++ bs) = some (b :: r.1, r.2) := by
  unfold escapeByte escapeChar
  split_ifs with hb hc
  · have hn : b.toNat < 32 := by
      rw [Bool.and_eq_true, decide_eq_true_eq] at hc
      simpa [Char.ofUInt8, UInt32.lt_iff_toNat_lt] using hc.1
    obtain ⟨hlength, hnumber⟩ := ofNumber?_controlDigits b.toNat hn
    rw [UInt8.ofNat_toNat] at hnumber
    exact readText_number hlength hnumber h
  · unfold Literal.escapeChar
    split
    case h_6 hbackslash hquote hfeed hreturn htab =>
      rw [utf8_ofUInt8 hb]
      refine readText_plain (fun he => hquote ?_) (fun he => hbackslash ?_) (fun he => ?_) h
      · rw [he]
        rfl
      · rw [he]
        rfl
      · have hval : (Char.ofUInt8 b).val < 0x20 := by
          simpa [Char.ofUInt8, UInt32.lt_iff_toNat_lt, UInt8.lt_iff_toNat_lt] using he
        simp [hval] at hc
        exact htab (hc hfeed hreturn)
    all_goals
      rw [eq_toUInt8_of_ofUInt8 (b := b) ‹_›]
      exact readText_unescape (by decide) (by decide) h
  · have hb : 0x80 ≤ b := UInt8.not_lt.1 hb
    refine readText_plain ?_ ?_ (fun hlt => ?_) h
    · rintro rfl
      exact absurd hb (by decide)
    · rintro rfl
      exact absurd hb (by decide)
    · exact absurd (UInt8.lt_of_lt_of_le hlt (by decide)) (UInt8.not_lt.2 hb)

theorem readText_escaped (text rest : Bytes) :
    readText (text.flatMap escapeByte ++ '"'.toUInt8 :: rest) = some (text, rest) := by
  induction text with
  | nil => exact readText_close rest
  | cons b text ih =>
    rw [List.flatMap_cons, List.append_assoc]
    exact readText_escapeByte b ih

theorem stands_quoted (text : Bytes) (depth : Nat) :
    Stands (readValue (depth + 1)) (.text text) (quotedBytes text) :=
  stands_text (readText_escaped text) depth

/-! ### Listings -/

/-- The bytes of a text in UTF-8. -/
def encode (text : String) : Bytes := utf8 text.toList

/-- What a field of an entry holds. -/
inductive Scalar where
  | text (value : Bytes)
  | flag (b : Bool)

namespace Scalar

def bytes : Scalar → Bytes
  | text value => quotedBytes value
  | flag b => encode (boolean b)

def document : Scalar → Json
  | text value => .text value
  | flag b => .flag b

end Scalar

/-- An entry of a list of objects, by the names and values of its fields. -/
abbrev Entry := List (String × Scalar)

namespace Entry

def bytes (e : Entry) : Bytes :=
  encode "    \x7b\n" ++
    List.intercalate (encode ",\n")
      (e.map fun f => encode ("      \"" ++ f.1 ++ "\": ") ++ f.2.bytes) ++
    encode "\n    \x7d"

def document (e : Entry) : Json := .object (e.map fun f => (encode f.1, f.2.document))

/-- In the names of the fields nothing has to be escaped. -/
def IsPlain (e : Entry) : Prop := ∀ f ∈ e, (encode f.1).flatMap escapeByte = encode f.1

end Entry

/-- A class in a manifest. Its texts may be any bytes. -/
structure ListedClass where
  className : Bytes
  scriptPath : Bytes
  bridgeName : Bytes
  namespaceName : Bytes
  baseName : Bytes
  rootName : Bytes
  status : LineageStatus
  emitted : Bool

def ListedClass.entry (c : ListedClass) : Entry :=
  [("class", .text c.className), ("script", .text c.scriptPath), ("bridge", .text c.bridgeName),
    ("namespace", .text c.namespaceName), ("base", .text c.baseName),
    ("nativeRoot", .text c.rootName), ("status", .text (encode c.status.name)),
    ("emitted", .flag c.emitted)]

/-- A unit in a manifest. Of its text only the digest is listed. -/
structure ListedUnit where
  fileName : Bytes
  kind : UnitKind
  typeName : Bytes
  text : Bytes

namespace ListedUnit

def hash (u : ListedUnit) : String := "0x" ++ Digest.hex (Digest.ofBytes u.text)

def entry (u : ListedUnit) : Entry :=
  [("file", .text u.fileName), ("kind", .text (encode u.kind.name)), ("type", .text u.typeName),
    ("hash", .text (encode u.hash))]

/-- What is listed of a unit. -/
def listed (u : ListedUnit) : Bytes × UnitKind × Bytes × UInt64 :=
  (u.fileName, u.kind, u.typeName, Digest.ofBytes u.text)

end ListedUnit

/-- What a manifest lists. -/
structure Listing where
  classes : List ListedClass
  proxies : List Bytes
  units : List ListedUnit
  skipped : List Bytes

/-- A list of objects, one below the other. -/
def objectsBytes (items : List Entry) : Bytes :=
  encode "[\n" ++
    (if items.isEmpty then []
      else List.intercalate (encode ",\n") (items.map Entry.bytes) ++ encode "\n") ++
    encode "  ]"

/-- A list of texts on one line. -/
def textsBytes (items : List Bytes) : Bytes :=
  encode "[" ++ List.intercalate (encode ", ") (items.map quotedBytes) ++ encode "]"

namespace Listing

def bytes (l : Listing) : Bytes :=
  encode "\x7b\n  \"classes\": " ++ objectsBytes (l.classes.map ListedClass.entry) ++
    (encode ",\n  \"proxies\": " ++ textsBytes l.proxies) ++
    (encode ",\n  \"units\": " ++ objectsBytes (l.units.map ListedUnit.entry)) ++
    (encode ",\n  \"skipped\": " ++ textsBytes l.skipped) ++ encode "\n\x7d\n"

def document (l : Listing) : Json :=
  .object
    [(encode "classes", .list (l.classes.map fun c => c.entry.document)),
      (encode "proxies", .list (l.proxies.map .text)),
      (encode "units", .list (l.units.map fun u => u.entry.document)),
      (encode "skipped", .list (l.skipped.map .text))]

end Listing

/-! ### Reading a listing -/

@[simp] theorem encode_append (s t : String) : encode (s ++ t) = encode s ++ encode t := by
  rw [encode, String.toList_append, utf8_append]
  rfl

theorem Scalar.stands (x : Scalar) (depth : Nat) :
    Stands (readValue (depth + 1)) x.document x.bytes := by
  cases x with
  | text value => exact stands_quoted value depth
  | flag b => exact stands_flag b depth

/-- A field with a name in which nothing has to be escaped. -/
theorem stands_named {name : String} (hname : (encode name).flatMap escapeByte = encode name)
    {depth : Nat} {v : Json} {bs : Bytes} (h : Stands (readValue depth) v bs) :
    Stands (readField (readValue depth)) (encode name, v)
      (encode ("\"" ++ name ++ "\": ") ++ bs) := by
  have hread (rest : Bytes) :
      readText (encode name ++ '"'.toUInt8 :: rest) = some (encode name, rest) := by
    have := readText_escaped (encode name) rest
    rwa [hname] at this
  have hbytes : encode ("\"" ++ name ++ "\": ") ++ bs =
      '"'.toUInt8 :: (encode name ++ '"'.toUInt8 :: ':'.toUInt8 :: (encode " " ++ bs)) := by
    simp only [encode_append, List.append_assoc]
    rfl
  rw [hbytes]
  exact stands_field hread (by decide) h

theorem Entry.stands {e : Entry} (h : e.IsPlain) (depth : Nat) :
    Stands (readValue (depth + 2)) e.document e.bytes := by
  let fields : List ((Bytes × Json) × Bytes) := e.map fun f =>
    ((encode f.1, f.2.document), encode "      " ++ (encode ("\"" ++ f.1 ++ "\": ") ++ f.2.bytes))
  have hfields : ∀ x ∈ fields, Stands (readField (readValue (depth + 1))) x.1 x.2 := by
    intro x hx
    obtain ⟨f, hf, rfl⟩ := List.mem_map.1 hx
    exact (stands_named (h f hf) (f.2.stands depth)).behindGap (by decide)
  have hobject := stands_object (encode "\n") (encode "\n") (encode "\n    ") (by decide)
    (by decide) (by decide) hfields
  have hdocument : e.document = .object (fields.map Prod.fst) := by
    simp [Entry.document, fields]
  have hbytes : e.bytes = encode "    " ++ ('{'.toUInt8 :: (encode "\n" ++
      (separated (encode "\n") fields ++ (encode "\n    " ++ ['}'.toUInt8])))) := by
    have hlines : fields.map Prod.snd =
        e.map fun f => encode ("      \"" ++ f.1 ++ "\": ") ++ f.2.bytes := by
      rw [List.map_map]
      refine List.map_congr_left fun f _ => ?_
      simp only [encode_append, List.append_assoc, Function.comp_apply]
      rfl
    simp only [Entry.bytes, separated, hlines, List.append_assoc]
    rfl
  rw [hdocument, hbytes]
  exact hobject.behindGap (by decide)

theorem stands_objectsBytes {items : List Entry} (h : ∀ e ∈ items, e.IsPlain) (depth : Nat) :
    Stands (readValue (depth + 3)) (.list (items.map Entry.document)) (objectsBytes items) := by
  let values : List (Json × Bytes) := items.map fun e => (e.document, e.bytes)
  have hvalues : ∀ x ∈ values, Stands (readValue (depth + 2)) x.1 x.2 := by
    intro x hx
    obtain ⟨e, he, rfl⟩ := List.mem_map.1 hx
    exact Entry.stands (h e he) depth
  have hlist (last : Bytes) (hlast : AllBlank last) :=
    stands_list (encode "\n") (encode "\n") last (by decide) (by decide) hlast hvalues
  have hdocument : items.map Entry.document = values.map Prod.fst := by simp [values]
  have hlines : values.map Prod.snd = items.map Entry.bytes := by simp [values]
  rw [hdocument]
  -- Without entries the closing bracket stands on the next line, behind fewer blanks.
  cases items with
  | nil => exact hlist (encode "  ") (by decide)
  | cons e items =>
    have hbytes : objectsBytes (e :: items) = '['.toUInt8 :: (encode "\n" ++
        (separated (encode "\n") values ++ (encode "\n  " ++ [']'.toUInt8]))) := by
      simp only [objectsBytes, separated, hlines, List.isEmpty_cons, Bool.false_eq_true, if_false,
        List.append_assoc]
      rfl
    rw [hbytes]
    exact hlist (encode "\n  ") (by decide)

theorem stands_textsBytes (items : List Bytes) (depth : Nat) :
    Stands (readValue (depth + 2)) (.list (items.map .text)) (textsBytes items) := by
  let values : List (Json × Bytes) := items.map fun t => (.text t, quotedBytes t)
  have hvalues : ∀ x ∈ values, Stands (readValue (depth + 1)) x.1 x.2 := by
    intro x hx
    obtain ⟨t, -, rfl⟩ := List.mem_map.1 hx
    exact stands_quoted t depth
  have hlist := stands_list [] (encode " ") [] (by decide) (by decide) (by decide) hvalues
  have hdocument : items.map Json.text = values.map Prod.fst := by simp [values]
  have hlines : values.map Prod.snd = items.map quotedBytes := by simp [values]
  have hbytes : textsBytes items =
      '['.toUInt8 :: ([] ++ (separated (encode " ") values ++ ([] ++ [']'.toUInt8]))) := by
    simp only [textsBytes, separated, hlines, List.append_assoc]
    rfl
  rw [hdocument, hbytes]
  exact hlist

theorem isPlain_of_mem_map {α : Type} {entry : α → Entry} (h : ∀ x, (entry x).IsPlain)
    (l : List α) :
    ∀ e ∈ l.map entry, e.IsPlain := List.forall_mem_map.2 fun x _ => h x

theorem ListedClass.isPlain_entry (c : ListedClass) : c.entry.IsPlain := by
  simp only [Entry.IsPlain, entry, List.forall_mem_cons]
  decide

theorem ListedUnit.isPlain_entry (u : ListedUnit) : u.entry.IsPlain := by
  simp only [Entry.IsPlain, entry, List.forall_mem_cons]
  decide

/-- A listing is read back from its bytes. -/
theorem Listing.ofBytes_bytes (l : Listing) : Json.ofBytes l.bytes = some l.document := by
  let classes := l.classes.map ListedClass.entry
  let units := l.units.map ListedUnit.entry
  let fields : List ((Bytes × Json) × Bytes) :=
    [((encode "classes", .list (classes.map Entry.document)),
        encode "\"classes\": " ++ objectsBytes classes),
      ((encode "proxies", .list (l.proxies.map .text)),
        encode "\"proxies\": " ++ textsBytes l.proxies),
      ((encode "units", .list (units.map Entry.document)),
        encode "\"units\": " ++ objectsBytes units),
      ((encode "skipped", .list (l.skipped.map .text)),
        encode "\"skipped\": " ++ textsBytes l.skipped)]
  have hfields (depth : Nat) :
      ∀ x ∈ fields, Stands (readField (readValue (depth + 3))) x.1 x.2 := by
    simp only [fields, List.forall_mem_cons]
    refine ⟨?_, ?_, ?_, ?_, nofun⟩
    · exact stands_named (by decide)
        (stands_objectsBytes (isPlain_of_mem_map ListedClass.isPlain_entry _) depth)
    · exact stands_named (by decide) (stands_textsBytes _ (depth + 1))
    · exact stands_named (by decide)
        (stands_objectsBytes (isPlain_of_mem_map ListedUnit.isPlain_entry _) depth)
    · exact stands_named (by decide) (stands_textsBytes _ (depth + 1))
  have hobject (depth : Nat) := stands_object (encode "\n  ") (encode "\n  ") (encode "\n")
    (by decide) (by decide) (by decide) (hfields depth)
  have hdocument : l.document = .object (fields.map Prod.fst) := by
    simp [document, fields, classes, units]
  let body := '{'.toUInt8 :: (encode "\n  " ++
    (separated (encode "\n  ") fields ++ (encode "\n" ++ ['}'.toUInt8])))
  have hbytes : l.bytes = body ++ encode "\n" := by
    simp only [bytes, body, separated, fields, classes, units, List.map_cons, List.map_nil,
      List.intercalate_cons_cons, List.intercalate_singleton, List.append_assoc, List.cons_append]
    rfl
  rw [hbytes, hdocument]
  refine ofBytes_of_stands 4 hobject (by decide) ?_
  have hlength : (encode "\n  ").length = 3 := by decide
  simp only [body, List.length_append, List.length_cons, hlength]
  omega

/-! ### Different listings -/

theorem encode_injective : Function.Injective encode := fun _ _ h =>
  String.toList_inj.1 (utf8_injective h)

theorem status_name_injective : Function.Injective LineageStatus.name := by
  intro s t h
  cases s <;> cases t <;> first | rfl | exact absurd h (by decide)

theorem kind_name_injective : Function.Injective UnitKind.name := by
  intro k l h
  cases k <;> cases l <;> first | rfl | exact absurd h (by decide)

theorem ListedClass.eq_of_document {c d : ListedClass}
    (h : c.entry.document = d.entry.document) : c = d := by
  cases c
  cases d
  simp only [entry, Entry.document, List.map_cons, List.map_nil, Scalar.document, Json.object.injEq,
    List.cons.injEq, Prod.mk.injEq, Json.text.injEq, Json.flag.injEq, true_and, and_true] at h
  obtain ⟨hclass, hscript, hbridge, hspace, hbase, hroot, hstatus, hemitted⟩ := h
  rw [hclass, hscript, hbridge, hspace, hbase, hroot, hemitted,
    status_name_injective (encode_injective hstatus)]

theorem ListedUnit.entry_eq_of_listed {u v : ListedUnit} (h : u.listed = v.listed) :
    u.entry = v.entry := by
  simp only [listed, Prod.mk.injEq] at h
  obtain ⟨hfile, hkind, htype, hdigest⟩ := h
  rw [entry, entry, hash, hash, hfile, hkind, htype, hdigest]

theorem ListedUnit.listed_eq_of_document {u v : ListedUnit}
    (h : u.entry.document = v.entry.document) : u.listed = v.listed := by
  simp only [entry, Entry.document, List.map_cons, List.map_nil, Scalar.document, Json.object.injEq,
    List.cons.injEq, Prod.mk.injEq, Json.text.injEq, true_and, and_true] at h
  obtain ⟨hfile, hkind, htype, hhash⟩ := h
  have hdigits := encode_injective hhash
  rw [hash, hash, String.append_right_inj] at hdigits
  rw [listed, listed, hfile, htype, kind_name_injective (encode_injective hkind),
    Digest.hex_injective hdigits]

/-- Lists that agree in what one function sees agree in what a function of that sees. -/
theorem map_eq_map_of_map_eq_map {α β γ : Type} {f : α → β} {g : α → γ}
    (h : ∀ x y, f x = f y → g x = g y) {l m : List α} (hl : l.map f = m.map f) :
    l.map g = m.map g := by
  induction l generalizing m with
  | nil => rw [List.map_eq_nil_iff.1 hl.symm]
  | cons x l ih =>
    cases m with
    | nil => cases hl
    | cons y m =>
      obtain ⟨hhead, htail⟩ := List.cons.inj hl
      rw [List.map_cons, List.map_cons, h x y hhead, ih htail]

theorem Listing.eq_of_document {l m : Listing} (h : l.document = m.document) :
    l.classes = m.classes ∧ l.proxies = m.proxies ∧
      l.units.map ListedUnit.listed = m.units.map ListedUnit.listed ∧ l.skipped = m.skipped := by
  have htexts {s t : List Bytes} : s.map Json.text = t.map Json.text → s = t :=
    (List.map_inj_right fun _ _ => Json.text.inj).1
  simp only [document, Json.object.injEq, List.cons.injEq, Prod.mk.injEq, Json.list.injEq, true_and,
    and_true] at h
  obtain ⟨hclasses, hproxies, hunits, hskipped⟩ := h
  exact ⟨(List.map_inj_right fun _ _ => ListedClass.eq_of_document).1 hclasses,
    htexts hproxies, map_eq_map_of_map_eq_map (fun _ _ => ListedUnit.listed_eq_of_document) hunits,
    htexts hskipped⟩

/-! ### Listings of runs -/

def ListedClass.ofReport (r : ClassReport) : ListedClass where
  className := encode r.className
  scriptPath := encode r.scriptPath
  bridgeName := encode r.bridgeName
  namespaceName := encode r.namespaceName
  baseName := encode r.baseName
  rootName := encode r.rootName
  status := r.status
  emitted := r.emitted

def ListedUnit.ofUnit (u : GeneratedUnit) : ListedUnit where
  fileName := encode u.fileName
  kind := u.kind
  typeName := encode u.typeName
  text := encode u.text

/-- The listing of a run, with its texts in UTF-8. -/
def Listing.ofGeneration (g : Generation) : Listing where
  classes := g.classes.map ListedClass.ofReport
  proxies := g.proxies.map encode
  units := g.units.map ListedUnit.ofUnit
  skipped := g.skipped.map encode

theorem utf8_intercalate (sep : List Char) (l : List (List Char)) :
    utf8 (List.intercalate sep l) = List.intercalate (utf8 sep) (l.map utf8) := by
  induction l with
  | nil => rfl
  | cons x l ih =>
    cases l with
    | nil => simp
    | cons y l =>
      rw [List.intercalate_cons_cons, utf8_append, utf8_append, ih]
      simp only [List.map_cons, List.intercalate_cons_cons]

theorem encode_intercalate (sep : String) (l : List String) :
    encode (sep.intercalate l) = List.intercalate (encode sep) (l.map encode) := by
  rw [encode, String.toList_intercalate, utf8_intercalate, List.map_map]
  rfl

/-- Beyond ASCII nothing is escaped. -/
theorem escapeChar_of_not_lt {c : Char} (hc : ¬c.val < 0x80) : escapeChar c = [c] := by
  have hcontrol : ¬c.val < 0x20 := fun hlt => hc (UInt32.lt_trans hlt (by decide))
  unfold escapeChar
  rw [decide_eq_false hcontrol, Bool.false_and, if_neg Bool.false_ne_true]
  exact Literal.escapeChar_of_not_lt hc

theorem encode_quoted (text : String) : encode (quoted text) = quotedBytes (encode text) := by
  have hescape : utf8 (text.toList.flatMap escapeChar) =
      (utf8 text.toList).flatMap escapeByte :=
    utf8_flatMap (fun _ hc => escapeChar_of_not_lt hc) text.toList
  have hcontent : encode (String.ofList (text.toList.flatMap escapeChar)) =
      (encode text).flatMap escapeByte := by
    rw [encode, String.toList_ofList, hescape, encode]
  rw [quoted, encode_append, encode_append, hcontent]
  rfl

theorem encode_classEntry (r : ClassReport) :
    encode (classEntry r) = (ListedClass.ofReport r).entry.bytes := by
  simp only [classEntry, object, encode_append, encode_intercalate, List.map_cons, List.map_nil,
    ListedClass.entry, ListedClass.ofReport, Entry.bytes, Scalar.bytes, encode_quoted,
    List.append_assoc]

theorem encode_unitEntry (u : GeneratedUnit) :
    encode (unitEntry u) = (ListedUnit.ofUnit u).entry.bytes := by
  have hdigest : Digest.ofText u.text = Digest.ofBytes (encode u.text) := by
    rw [Digest.ofText, encode, utf8_toList]
  simp only [unitEntry, object, encode_append, encode_intercalate, List.map_cons, List.map_nil,
    ListedUnit.entry, ListedUnit.ofUnit, ListedUnit.hash, Entry.bytes, Scalar.bytes, encode_quoted,
    hdigest, List.append_assoc]

theorem encode_objects {α : Type} {written : α → String} {entry : α → Entry}
    (h : ∀ x, encode (written x) = (entry x).bytes) (l : List α) :
    encode (objects (l.map written)) = objectsBytes (l.map entry) := by
  have hlines : (l.map written).map encode = (l.map entry).map Entry.bytes := by
    rw [List.map_map, List.map_map]
    exact List.map_congr_left fun x _ => h x
  cases l with
  | nil =>
    have hempty : encode (objects []) = objectsBytes [] := by decide
    exact hempty
  | cons x l =>
    rw [objects, objectsBytes]
    simp only [List.map_cons, List.isEmpty_cons, Bool.false_eq_true, if_false, encode_append,
      encode_intercalate] at hlines ⊢
    rw [hlines]

theorem encode_texts (l : List String) : encode (texts l) = textsBytes (l.map encode) := by
  have hitems : (l.map quoted).map encode = (l.map encode).map quotedBytes := by
    rw [List.map_map, List.map_map]
    refine List.map_congr_left fun t _ => ?_
    rw [Function.comp_apply, Function.comp_apply, encode_quoted]
  rw [texts, textsBytes, encode_append, encode_append, encode_intercalate, hitems]

/-- The manifest of a run is that of its listing. -/
theorem encode_render (g : Generation) : encode (render g) = (Listing.ofGeneration g).bytes := by
  have hparts (a x b y c z d w e : String) :
      encode (a ++ x ++ b ++ y ++ c ++ z ++ d ++ w ++ e) =
        encode a ++ encode x ++ (encode b ++ encode y) ++ (encode c ++ encode z) ++
          (encode d ++ encode w) ++ encode e := by
    simp only [encode_append, List.append_assoc]
  unfold render
  refine (hparts ..).trans ?_
  rw [encode_objects encode_classEntry, encode_objects encode_unitEntry, encode_texts, encode_texts]
  unfold Listing.bytes Listing.ofGeneration
  rw [List.map_map, List.map_map]
  rfl

/-- A run's manifest is that of its listing, and a listing with any bytes as its texts is read back
from its manifest: the lists in their order, each text as it was, and with each unit the sixteen
digits of its text's digest. Listings have the same manifest only if they list the same. -/
theorem manifest_decodes :
    (∀ g : Generation, encode (render g) = (Listing.ofGeneration g).bytes) ∧
    (∀ l : Listing, Json.ofBytes l.bytes = some l.document ∧
      ∀ u ∈ l.units, ∃ digits : List Char, u.hash = "0x" ++ String.ofList digits ∧
        digits.length = 16 ∧ (∀ c ∈ digits, c ∈ Digest.digitChars) ∧
        Digest.valueOf digits = (Digest.ofBytes u.text).toNat) ∧
    ∀ l m : Listing, l.bytes = m.bytes ↔
      l.classes = m.classes ∧ l.proxies = m.proxies ∧
        l.units.map ListedUnit.listed = m.units.map ListedUnit.listed ∧
        l.skipped = m.skipped := by
  refine ⟨encode_render, fun l => ⟨l.ofBytes_bytes, fun u _ => ?_⟩, fun l m => ?_⟩
  · obtain ⟨digits, hdigits, hspec⟩ := Digest.exists_digits (Digest.ofBytes u.text)
    exact ⟨digits, by rw [ListedUnit.hash, hdigits], hspec⟩
  · constructor
    · intro h
      have hread := l.ofBytes_bytes
      rw [h, m.ofBytes_bytes] at hread
      exact Listing.eq_of_document (Option.some.inj hread).symm
    · rintro ⟨hclasses, hproxies, hlisted, hskipped⟩
      have hunits : l.units.map ListedUnit.entry = m.units.map ListedUnit.entry :=
        map_eq_map_of_map_eq_map (fun _ _ => ListedUnit.entry_eq_of_listed) hlisted
      rw [Listing.bytes, Listing.bytes, hclasses, hproxies, hunits, hskipped]

end Manifest

end ScriptBridge
