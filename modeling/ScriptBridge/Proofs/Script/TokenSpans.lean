import Mathlib.Data.List.Forall2
import ScriptBridge.Proofs.Script.ByteCuts
import ScriptBridge.Proofs.Script.ScannerTurns
import ScriptBridge.Script.Lexed

/-! Tokens in the source. A scanner keeps its line and its column apart from its cursor. Proved:
both stay at the cursor through every turn of the scanner, so that the spans of tokens and faults
are the positions of byte offsets that never go back, and the bytes between the offsets of a token
are its text between the marks of its kind; and what the scanner finds in the bytes of a text are
the tokens and faults of the text. -/

namespace ScriptBridge

/-! ### Places and offsets -/

namespace Location

variable {bytes : List UInt8}

/-- The place of a position, as far as words can count. -/
def ofPosition (p : Position) : Location := ⟨.ofNat p.line, .ofNat p.column⟩

def toPosition (l : Location) : Position := ⟨l.line.toNat, l.column.toNat⟩

theorem ofUInt8_eq_lineFeed_iff {b : UInt8} : Char.ofUInt8 b = '\n' ↔ b = lineFeed := by
  rw [Char.ext_iff, ← UInt32.toNat_inj, ← UInt8.toNat_inj]
  exact Iff.rfl

/-- The place behind bytes is that of their number. -/
theorem after_eq_atByte (bytes : List UInt8) :
    ({} : Location).after (bytes.map Char.ofUInt8) =
      ofPosition (Position.atByte bytes bytes.length) := by
  induction bytes using List.reverseRecOn with
  | nil => rfl
  | append_singleton bytes b ih =>
    rw [List.map_append, after_append, ih, List.map_singleton, after_cons, after_nil, advance,
      List.length_append, List.length_singleton, Position.atByte_concat]
    simp only [ofUInt8_eq_lineFeed_iff]
    split_ifs
    · simp [ofPosition, UInt32.ofNat_add]
    · simp [ofPosition, UInt32.ofNat_add]

theorem toNat_ofNat_of_le {n : Nat} (hlength : bytes.length < 2 ^ 32 - 1)
    (h : n ≤ bytes.length) : (UInt32.ofNat (1 + n)).toNat = 1 + n := by
  rw [UInt32.toNat_ofNat']
  exact Nat.mod_eq_of_lt (by omega)

/-- Words count far enough for a script whose length is less than the greatest word. -/
theorem toPosition_ofPosition (offset : Nat) (hlength : bytes.length < 2 ^ 32 - 1) :
    (ofPosition (Position.atByte bytes offset)).toPosition = Position.atByte bytes offset := by
  have htake : (bytes.take offset).length ≤ bytes.length := List.length_take_le' _ _
  have hline : (bytes.take offset).count lineFeed ≤ bytes.length :=
    List.count_le_length.trans htake
  have hcolumn : ((bytes.take offset).reverse.takeWhile (· != lineFeed)).length ≤ bytes.length :=
    (List.takeWhile_sublist _).length_le.trans (List.length_reverse.trans_le htake)
  simp only [Position.atByte, ofPosition, toPosition, Position.mk.injEq]
  exact ⟨toNat_ofNat_of_le hlength hline, toNat_ofNat_of_le hlength hcolumn⟩

end Location

/-! ### What a token takes in the source -/

/-- The span whose ends are the positions of two offsets. -/
def Span.atBytes (bytes : List UInt8) (offsets : Nat × Nat) : Span where
  start := Position.atByte bytes offsets.1
  stop := Position.atByte bytes offsets.2

/-- Stretches of so many bytes, none of which begins before the one in front of it ends. -/
structure InOrder (length : Nat) (offsets : List (Nat × Nat)) : Prop where
  within : ∀ o ∈ offsets, o.1 ≤ o.2 ∧ o.2 ≤ length
  forwards : offsets.Pairwise fun o o' => o.2 ≤ o'.1

/-- What stands at such stretches, one behind the other. -/
def StandInOrder {α : Type} (At : α → Nat × Nat → Prop) (length : Nat) (xs : List α) : Prop :=
  ∃ offsets, List.Forall₂ At xs offsets ∧ InOrder length offsets

namespace StandInOrder

variable {α : Type} {At : α → Nat × Nat → Prop} {n m : Nat} {xs : List α}

theorem nil (n : Nat) : StandInOrder At n [] := ⟨[], .nil, by simp, .nil⟩

theorem mono (h : StandInOrder At n xs) (hle : n ≤ m) : StandInOrder At m xs := by
  obtain ⟨offsets, hxs, hwithin, hforwards⟩ := h
  exact ⟨offsets, hxs, fun o ho => ⟨(hwithin o ho).1, (hwithin o ho).2.trans hle⟩, hforwards⟩

theorem concat (h : StandInOrder At n xs) {x : α} {start stop : Nat} (hx : At x (start, stop))
    (hstart : n ≤ start) (hle : start ≤ stop) (hstop : stop ≤ m) :
    StandInOrder At m (xs ++ [x]) := by
  obtain ⟨offsets, hxs, hwithin, hforwards⟩ := h
  refine ⟨offsets ++ [(start, stop)], List.rel_append hxs (.cons hx .nil), ?_, ?_⟩
  · refine List.forall_mem_append.2 ⟨fun o ho => ?_, List.forall_mem_singleton.2 ⟨hle, hstop⟩⟩
    exact ⟨(hwithin o ho).1, (hwithin o ho).2.trans (hstart.trans (hle.trans hstop))⟩
  · refine List.pairwise_append.2 ⟨hforwards, List.pairwise_singleton _ _, fun o ho o' ho' => ?_⟩
    rw [List.mem_singleton.1 ho']
    exact (hwithin o ho).2.trans hstart

end StandInOrder

namespace ScannedToken

def span (t : ScannedToken) : Span := ⟨t.start.toPosition, t.stop.toPosition⟩

/-- The bytes of a token are its text between the marks of its kind. An indent is blanks, and
perhaps a carriage return behind them; the end of a line or of the file takes nothing. -/
def Shows (t : ScannedToken) (source : List Char) : Prop :=
  match t.kind with
  | .newline | .endOfFile => t.text = [] ∧ source = []
  | .indent =>
    t.text = [] ∧ ∃ blanks, (∀ c ∈ blanks, c = ' ' ∨ c = '\t') ∧
      (source = blanks ∨ source = blanks ++ ['\r'])
  | .tag => source = '@' :: t.text
  | .text =>
    ∃ quote count, (quote = '"' ∨ quote = '\'') ∧ (count = 1 ∨ count = 3) ∧
      source = List.replicate count quote ++ t.text ++ List.replicate count quote
  | _ => source = t.text

/-- The span of a token is that of two offsets, and the bytes between them show the token. -/
structure StandsAt (bytes : List UInt8) (t : ScannedToken) (offsets : Nat × Nat) : Prop where
  span : t.span = Span.atBytes bytes offsets
  shows :
    t.Shows (((bytes.drop offsets.1).take (offsets.2 - offsets.1)).map Char.ofUInt8)

end ScannedToken

namespace ScannedFault

def span (f : ScannedFault) : Span := ⟨f.start.toPosition, f.stop.toPosition⟩

/-- The span of a fault is that of two offsets. -/
def StandsAt (bytes : List UInt8) (f : ScannedFault) (offsets : Nat × Nat) : Prop :=
  f.span = Span.atBytes bytes offsets

end ScannedFault

/-! ### Pieces of a text -/

/-- A piece that a cut takes. -/
inductive Piece.Regular : Piece → Prop where
  | part {p : Piece} (h : p.Part) : Regular p
  | lineEnd : Regular lineEnd
  | indent {margin : List Char} (h : Cut.IsMargin margin) : Regular (token .indent margin [] [])
  | opening (b : Bracket) (text : List Char) : Regular (plain (.opening b) text)
  | closing (b : Bracket) (text : List Char) : Regular (plain (.closing b) text)

theorem Cut.Yields.regular {depth : Nat} {ps : List Piece} {stand : Stand}
    (h : Yields depth ps stand) : ∀ p ∈ ps, p.Regular := by
  cases h with
  | lineEnd => exact List.forall_mem_singleton.2 .lineEnd
  | part h => exact List.forall_mem_singleton.2 (.part h)
  | behindGap source h =>
    exact List.forall_mem_cons.2 ⟨.part (.gap source), List.forall_mem_singleton.2 (.part h)⟩
  | opening b text => exact List.forall_mem_singleton.2 (.opening b text)
  | closing b text => exact List.forall_mem_singleton.2 (.closing b text)

theorem Cut.atLineStart_regular (c : Char) (cs : List Char) :
    ∀ p ∈ (atLineStart (c :: cs)).pieces, p.Regular := by
  rcases atLineStart_cases c cs with ⟨gap, rest, hk, -⟩ | ⟨blanks, rest, hmargin, hk⟩
  · rw [hk]
    exact List.forall_mem_singleton.2 (.part (.gap gap))
  · rw [hk]
    refine List.forall_mem_singleton.2 ?_
    cases isBlank c with
    | true => exact .indent hmargin
    | false => exact .part (.gap blanks)

theorem regular_cutAll (stand : Stand) (cs : List Char) :
    ∀ p ∈ (cutAll stand cs).1, p.Regular := by
  fun_induction cutAll stand cs with
  | case1 => simp
  | case2 c cs k r ih => exact List.forall_mem_append.2 ⟨Cut.atLineStart_regular c cs, ih⟩
  | case3 depth c cs k r ih =>
    exact List.forall_mem_append.2 ⟨(Cut.inLine_yields depth c cs).regular, ih⟩

theorem shows_of_isPlain {kind : TokenKind} (h : kind.IsPlain) (start stop : Location)
    (t : List Char) : ScannedToken.Shows ⟨kind, start, stop, t⟩ t := by
  cases kind with
  | endOfFile | newline | indent | text | tag | opening | closing => cases h
  | _ => rfl

/-- The source of a token piece shows its token. -/
theorem shows_of_regular {kind : TokenKind} {a t b : List Char}
    (h : (Piece.token kind a t b).Regular) (start stop : Location) :
    ScannedToken.Shows ⟨kind, start, stop, t⟩ (a ++ t ++ b) := by
  cases h with
  | part h =>
    cases h with
    | plain h =>
      rw [List.nil_append, List.append_nil]
      exact shows_of_isPlain h start stop t
    | tag => exact List.append_nil _
    | @text quote h count hc =>
      simp only [Cut.isQuote, Bool.or_eq_true, beq_iff_eq] at h
      exact ⟨quote, count, h, hc, rfl⟩
  | indent h =>
    obtain ⟨blanks, hblanks, hmargin⟩ := h
    refine ⟨rfl, blanks, fun c hc => ?_, ?_⟩
    · simpa [Cut.isBlank] using hblanks c hc
    · rwa [List.append_nil, List.append_nil]
  | opening b | closing b => exact List.append_nil _

/-! ### The cursor and the place -/

theorem Location.after_take (bytes : List UInt8) (offset : Nat) :
    ({} : Location).after ((bytes.take offset).map Char.ofUInt8) =
      ofPosition (Position.atByte bytes offset) := by
  rw [after_eq_atByte, Position.atByte, List.take_length, ← Position.atByte]

namespace Scanner

variable {bytes : List UInt8} {s : Scanner} {xs cs : List Char}

/-- A scanner of bytes with its place at its cursor, and with what it has found in front of it. -/
structure Sound (bytes : List UInt8) (s : Scanner) : Prop where
  source : s.source = bytes.map Char.ofUInt8
  location : s.location = .ofPosition (Position.atByte bytes s.current)
  tokens : StandInOrder (ScannedToken.StandsAt bytes) s.current s.tokens
  faults : StandInOrder (ScannedFault.StandsAt bytes) s.current s.faults

theorem Sound.start (bytes : List UInt8) : Sound bytes { source := bytes.map Char.ofUInt8 } where
  source := rfl
  location := rfl
  tokens := .nil 0
  faults := .nil 0

/-- The bytes from the cursor on. -/
theorem Sound.take_drop (hs : s.Sound bytes) (h : s.Faces (xs ++ cs)) :
    ((bytes.drop s.current).take xs.length).map Char.ofUInt8 = xs := by
  have hrest := h.rest
  rw [hs.source, ← List.map_drop] at hrest
  rw [List.map_take, hrest, List.take_left]

theorem Sound.location_after (hs : s.Sound bytes) (h : s.Faces (xs ++ cs)) :
    s.location.after xs = .ofPosition (Position.atByte bytes (s.current + xs.length)) := by
  rw [hs.location, ← Location.after_take, ← Location.after_take, List.take_add, List.map_append,
    Location.after_append, hs.take_drop h]

theorem Sound.moved (hs : s.Sound bytes) (h : s.Faces (xs ++ cs)) : (s.moved xs).Sound bytes where
  source := hs.source
  location := hs.location_after h
  tokens := hs.tokens.mono (Nat.le_add_right _ _)
  faults := hs.faults.mono (Nat.le_add_right _ _)

theorem Sound.span_eq (hlength : bytes.length < 2 ^ 32 - 1) (hs : s.Sound bytes)
    (h : s.Faces (xs ++ cs)) :
    (⟨s.location.toPosition, (s.location.after xs).toPosition⟩ : Span) =
      Span.atBytes bytes (s.current, s.current + xs.length) := by
  rw [hs.location_after h, hs.location, Location.toPosition_ofPosition _ hlength,
    Location.toPosition_ofPosition _ hlength]
  rfl

/-- A piece that a scanner passes leaves its place at its cursor. -/
theorem Sound.pass (hlength : bytes.length < 2 ^ 32 - 1) (hs : s.Sound bytes) {p : Piece}
    (hp : p.Regular) (h : s.Faces (p.source ++ cs)) : (s.pass p).Sound bytes := by
  have hmoved := hs.moved h
  have hspan := hs.span_eq hlength h
  have hbytes := hs.take_drop h
  have hle : s.current ≤ s.current + p.source.length := Nat.le_add_right _ _
  cases p with
  | gap source => exact hmoved
  | lineEnd =>
    have hempty : s.Faces ([] ++ ('\n' :: cs)) := h
    have hstands : ScannedToken.StandsAt bytes ⟨.newline, s.location, s.location, []⟩
        (s.current, s.current) :=
      ⟨hs.span_eq hlength hempty, rfl, by simp⟩
    exact { hmoved with tokens := hs.tokens.concat hstands le_rfl le_rfl hle }
  | token kind a t b =>
    have hstands : ScannedToken.StandsAt bytes
        ⟨kind, s.location, s.location.after (a ++ t ++ b), t⟩
        (s.current, s.current + (a ++ t ++ b).length) := by
      refine ⟨hspan, ?_⟩
      rw [Nat.add_sub_cancel_left]
      exact hbytes.symm ▸ shows_of_regular hp _ _
    exact { hmoved with tokens := hs.tokens.concat hstands le_rfl hle le_rfl }
  | broken fault source =>
    have hstands : ScannedFault.StandsAt bytes ⟨fault, s.location, s.location.after source⟩
        (s.current, s.current + source.length) := hspan
    exact { hmoved with faults := hs.faults.concat hstands le_rfl hle le_rfl }

theorem Sound.passAll (hlength : bytes.length < 2 ^ 32 - 1) {ps : List Piece}
    (hps : ∀ p ∈ ps, p.Regular) (hs : s.Sound bytes)
    (h : s.Faces (ps.flatMap Piece.source ++ cs)) : (s.passAll ps).Sound bytes := by
  induction ps generalizing s with
  | nil => exact hs
  | cons p ps ih =>
    obtain ⟨hp, hps⟩ := List.forall_mem_cons.1 hps
    rw [List.flatMap_cons, List.append_assoc] at h
    exact ih hps (hs.pass hlength hp h) h.pass

/-! ### The end of the script -/

/-- A token that takes nothing. -/
theorem Sound.push (hlength : bytes.length < 2 ^ 32 - 1) (hs : s.Sound bytes) {kind : TokenKind}
    (hkind : kind = .newline ∨ kind = .endOfFile) :
    (s.push kind s.location s.location []).Sound bytes := by
  have hplace := Location.toPosition_ofPosition s.current hlength
  have hstands : ScannedToken.StandsAt bytes ⟨kind, s.location, s.location, []⟩
      (s.current, s.current) := by
    refine ⟨?_, ?_⟩
    · rw [ScannedToken.span, hs.location, hplace, Span.atBytes]
    · rcases hkind with rfl | rfl <;> exact ⟨rfl, by simp⟩
  exact { hs with tokens := hs.tokens.concat hstands le_rfl le_rfl le_rfl }

theorem Sound.finish (hlength : bytes.length < 2 ^ 32 - 1) (hs : s.Sound bytes) :
    s.finish.Sound bytes := by
  have hline : (s.endLogicalLine s.location).Sound bytes :=
    have hpush := hs.push hlength (.inl rfl)
    ⟨hpush.source, hpush.location, hpush.tokens, hpush.faults⟩
  unfold Scanner.finish
  split
  · split_ifs
    · exact hs.push hlength (.inr rfl)
    · exact hline.push hlength (.inr rfl)
  · exact hs.push hlength (.inr rfl)

theorem current_finish (s : Scanner) : s.finish.current = s.current := by
  unfold finish
  split
  · split_ifs <;> rfl
  · rfl

/-- A scanner that has read a whole script is at its end, and sound. -/
theorem lex_sound (hlength : bytes.length < 2 ^ 32 - 1) :
    (lex bytes).Sound bytes ∧ (lex bytes).current = bytes.length := by
  have hsource := flatMap_source_cutAll .lineStart (bytes.map Char.ofUInt8)
  have hfaces : Faces { source := bytes.map Char.ofUInt8 }
      ((cutAll .lineStart (bytes.map Char.ofUInt8)).1.flatMap Piece.source ++ []) := by
    rw [List.append_nil, hsource]
    exact ⟨Nat.zero_le _, rfl⟩
  have hpassed := (Sound.start bytes).passAll hlength (regular_cutAll .lineStart _) hfaces
  rw [lex_eq]
  constructor
  · exact Sound.finish hlength ⟨hpassed.source, hpassed.location, hpassed.tokens, hpassed.faults⟩
  · rw [current_finish]
    refine (current_passAll _ _).trans ?_
    rw [hsource, List.length_map, Nat.zero_add]

end Scanner

/-! ### The scanner and the cuts of a text -/

/-- A token as a scanner of the bytes of its text finds it. -/
def Token.scanned (t : Token) : ScannedToken :=
  ⟨t.kind, .ofPosition t.span.start, .ofPosition t.span.stop, byteChars t.text.toList⟩

def LocatedFault.scanned (f : LocatedFault) : ScannedFault :=
  ⟨f.fault, .ofPosition f.span.start, .ofPosition f.span.stop⟩

theorem Location.after_byteChars (cs : List Char) :
    ({} : Location).after (byteChars cs) = .ofPosition (({} : Position).after cs) := by
  have hposition := Position.after_eq_atByte cs []
  rw [List.append_nil] at hposition
  rw [byteChars, after_eq_atByte, hposition]

namespace Scanner

variable {s : Scanner}

theorem source_byBytes (p : Piece) : p.byBytes.source = byteChars p.source := by
  cases p with
  | gap | broken => rfl
  | lineEnd => exact (byteChars_of_lt (by decide)).symm
  | token kind a t b => simp [Piece.byBytes, Piece.source]

/-- A scanner that stands behind the bytes of a text. -/
def StandsBehind (front : List Char) (s : Scanner) : Prop :=
  s.location = .ofPosition (({} : Position).after front)

theorem location_pass (s : Scanner) (p : Piece) :
    (s.pass p).location = s.location.after p.source := by
  cases p <;> rfl

section Pass

variable {front : List Char}

theorem StandsBehind.after (h : s.StandsBehind front) (cs : List Char) :
    s.location.after (byteChars cs) = .ofPosition (({} : Position).after (front ++ cs)) := by
  rw [h, ← Location.after_byteChars, ← Location.after_append, ← byteChars_append,
    Location.after_byteChars]

theorem StandsBehind.pass (h : s.StandsBehind front) (p : Piece) :
    (s.pass p.byBytes).StandsBehind (front ++ p.source) := by
  rw [StandsBehind, location_pass, source_byBytes, h.after]

theorem tokens_pass (h : s.StandsBehind front) (p : Piece) :
    (s.pass p.byBytes).tokens =
      s.tokens ++ (p.token? (({} : Position).after front)).toList.map Token.scanned := by
  cases p with
  | gap | broken => exact (List.append_nil _).symm
  | lineEnd =>
    refine congrArg (fun l => s.tokens ++ [(⟨.newline, l, l, []⟩ : ScannedToken)]) ?_
    exact h
  | token kind a t b =>
    have hstop := h.after (a ++ t ++ b)
    rw [Position.after_append, byteChars_append, byteChars_append] at hstop
    simp only [Piece.byBytes, Scanner.pass, push, moved, Piece.token?, Option.toList_some,
      List.map_singleton, Token.scanned, String.toList_ofList, hstop, h.symm]

theorem faults_pass (h : s.StandsBehind front) (p : Piece) :
    (s.pass p.byBytes).faults =
      s.faults ++ (p.fault? (({} : Position).after front)).toList.map LocatedFault.scanned := by
  cases p with
  | gap | lineEnd | token => exact (List.append_nil _).symm
  | broken fault source =>
    have hstop := h.after source
    rw [Position.after_append] at hstop
    simp only [Piece.byBytes, Scanner.pass, report, moved, Piece.fault?, Option.toList_some,
      List.map_singleton, LocatedFault.scanned, hstop, h.symm]

/-- What the scanner finds in pieces is what they yield when they are laid end to end. -/
theorem passAll_byBytes (h : s.StandsBehind front) (ps : List Piece) :
    (s.passAll (ps.map Piece.byBytes)).StandsBehind (front ++ ps.flatMap Piece.source) ∧
      (s.passAll (ps.map Piece.byBytes)).tokens =
        s.tokens ++ (layOut Piece.token? (({} : Position).after front) ps).map Token.scanned ∧
      (s.passAll (ps.map Piece.byBytes)).faults =
        s.faults ++
          (layOut Piece.fault? (({} : Position).after front) ps).map LocatedFault.scanned := by
  induction ps generalizing s front with
  | nil => exact ⟨by simpa using h, by simp [layOut], by simp [layOut]⟩
  | cons p ps ih =>
    obtain ⟨hbehind, htokens, hfaults⟩ := ih (h.pass p)
    rw [List.map_cons, passAll_cons, List.flatMap_cons, ← List.append_assoc]
    refine ⟨hbehind, ?_, ?_⟩
    · rw [htokens, tokens_pass h, layOut, List.map_append, List.append_assoc, Position.after_append]
    · rw [hfaults, faults_pass h, layOut, List.map_append, List.append_assoc, Position.after_append]

end Pass

/-- A token that takes nothing, at the end of a text. -/
theorem scanned_atEnd {front : List Char} (h : s.StandsBehind front) (kind : TokenKind) :
    (⟨kind, s.location, s.location, []⟩ : ScannedToken) =
      Token.scanned
        { kind, span := ⟨({} : Position).after front, ({} : Position).after front⟩ } := by
  rw [h]
  rfl

/-- The tokens with which a script ends. -/
theorem tokens_finish {front : List Char} (h : s.StandsBehind front) {ts : List Token}
    (hts : s.tokens = ts.map Token.scanned) :
    let stop := ({} : Position).after front
    let endOfFile : Token := { kind := .endOfFile, span := ⟨stop, stop⟩ }
    s.finish.tokens = (ts ++ closingLine stop ts ++ [endOfFile]).map Token.scanned := by
  intro stop endOfFile
  have hnewline := scanned_atEnd h .newline
  have hend := scanned_atEnd h .endOfFile
  rw [finish, closingLine, hts, List.getLast?_map]
  rcases ts.getLast? with _ | t
  · simp only [Option.map_none, push, hts, hend, List.append_nil, List.map_append]
    rfl
  · have hkind : t.scanned.kind = t.kind := rfl
    simp only [Option.map_some, hkind, beq_iff_eq]
    split_ifs with hline
    · simp only [push, hts, hend, List.append_nil, List.map_append]
      rfl
    · simp only [push, endLogicalLine, hts, hend, hnewline, List.map_append]
      rfl

theorem faults_finish (s : Scanner) : s.finish.faults = s.faults := by
  unfold finish
  split
  · split_ifs <;> rfl
  · rfl

/-- A scanner finds in the bytes of a text what is found in the text. -/
theorem lex_byteChars {bytes : List UInt8} {source : String}
    (h : source.toUTF8.data.toList = bytes) :
    (lex bytes).tokens = (Lexed.ofText source).tokens.map Token.scanned ∧
      (lex bytes).faults = (Lexed.ofText source).faults.map LocatedFault.scanned := by
  have hbytes : bytes.map Char.ofUInt8 = byteChars source.toList := by
    rw [byteChars, utf8_toList, h]
  have hstart : StandsBehind [] { source := byteChars source.toList } := rfl
  obtain ⟨hbehind, htokens, hfaults⟩ := passAll_byBytes hstart (cutAll .lineStart source.toList).1
  rw [List.nil_append, flatMap_source_cutAll] at hbehind
  rw [lex_eq, hbytes, cutAll_byteChars]
  generalize (cutAll .lineStart source.toList).2 = stand
  have hput : StandsBehind source.toList
      (put (passAll { source := byteChars source.toList }
        ((cutAll .lineStart source.toList).1.map Piece.byBytes)) stand.depth stand.isLineStart) :=
    hbehind
  exact ⟨tokens_finish hput htokens, (faults_finish _).trans hfaults⟩

end Scanner

/-! ### Spans of a text -/

/-- What is laid out comes from pieces of the text, at the positions behind what is before them. -/
theorem exists_of_mem_layOut {α : Type} {f : Position → Piece → Option α} {front : List Char}
    {ps : List Piece} {y : α} (h : y ∈ layOut f (({} : Position).after front) ps) :
    ∃ xs p ys, xs ++ p.source ++ ys = front ++ ps.flatMap Piece.source ∧
      f (({} : Position).after xs) p = some y := by
  induction ps generalizing front with
  | nil => cases h
  | cons p ps ih =>
    rw [layOut, List.mem_append, Option.mem_toList, ← Position.after_append] at h
    rcases h with h | h
    · exact ⟨front, p, ps.flatMap Piece.source, by simp, h⟩
    · obtain ⟨xs, q, ys, hsource, hq⟩ := ih h
      exact ⟨xs, q, ys, by simpa using hsource, hq⟩

/-- A position that words can count. -/
def Position.IsCounted (p : Position) : Prop := (Location.ofPosition p).toPosition = p

/-- The span of a part of a text. -/
def Span.IsPartOf (cs : List Char) (span : Span) : Prop :=
  ∃ xs part ys, xs ++ part ++ ys = cs ∧
    span = ⟨({} : Position).after xs, ({} : Position).after (xs ++ part)⟩

/-- Words count far enough for the positions in a text of so many bytes. -/
theorem Span.IsPartOf.counted {cs : List Char} {span : Span} (h : span.IsPartOf cs)
    (hlength : (utf8 cs).length < 2 ^ 32 - 1) : span.start.IsCounted ∧ span.stop.IsCounted := by
  have hcounted (xs ys : List Char) (hcs : xs ++ ys = cs) :
      (({} : Position).after xs).IsCounted := by
    rw [Position.after_eq_atByte xs ys, hcs]
    exact Location.toPosition_ofPosition _ hlength
  obtain ⟨xs, part, ys, hcs, rfl⟩ := h
  exact ⟨hcounted xs (part ++ ys) (by rw [← List.append_assoc, hcs]), hcounted _ ys hcs⟩

/-- What is laid out from the start of a text comes from a part of it. -/
theorem exists_part_of_mem {α : Type} {f : Position → Piece → Option α} {cs : List Char} {y : α}
    (h : y ∈ layOut f {} (cutAll .lineStart cs).1) :
    ∃ xs p ys, xs ++ p.source ++ ys = cs ∧ f (({} : Position).after xs) p = some y := by
  obtain ⟨xs, p, ys, hsource, hp⟩ := exists_of_mem_layOut (Position.after_nil {} ▸ h)
  exact ⟨xs, p, ys, by rwa [List.nil_append, flatMap_source_cutAll] at hsource, hp⟩

theorem isPartOf_of_mem_tokens {cs : List Char} {t : Token} (h : t ∈ (Lexed.ofChars cs).tokens) :
    t.span.IsPartOf cs := by
  have hend : (⟨({} : Position).after cs, ({} : Position).after cs⟩ : Span).IsPartOf cs :=
    ⟨cs, [], [], by simp, by simp⟩
  simp only [Lexed.ofChars, List.mem_append, List.mem_singleton] at h
  rcases h with (h | h) | rfl
  · obtain ⟨xs, p, ys, hsource, hp⟩ := exists_part_of_mem h
    cases p with
    | gap | broken => cases hp
    | lineEnd =>
      cases hp
      exact ⟨xs, [], '\n' :: ys, by simpa [Piece.source] using hsource, by simp⟩
    | token kind a text b =>
      cases hp
      exact ⟨xs, a ++ text ++ b, ys, hsource, by rw [Position.after_append _ xs]⟩
  · unfold closingLine at h
    split at h
    · split_ifs at h
      · cases h
      · exact List.mem_singleton.1 h ▸ hend
    · cases h
  · exact hend

theorem isPartOf_of_mem_faults {cs : List Char} {f : LocatedFault}
    (h : f ∈ (Lexed.ofChars cs).faults) : f.span.IsPartOf cs := by
  obtain ⟨xs, p, ys, hsource, hp⟩ := exists_part_of_mem h
  cases p with
  | gap | lineEnd | token => cases hp
  | broken fault source =>
    cases hp
    exact ⟨xs, source, ys, hsource, by rw [Position.after_append _ xs]⟩

/-- A token of a text, as a scanner of its bytes finds it. -/
structure ScannedToken.IsOf (u : ScannedToken) (t : Token) : Prop where
  kind : u.kind = t.kind
  span : u.span = t.span
  text : u.text = byteChars t.text.toList

structure ScannedFault.IsOf (u : ScannedFault) (f : LocatedFault) : Prop where
  fault : u.fault = f.fault
  span : u.span = f.span

/-- In a script whose bytes words can count, the tokens stand one behind the other, each where its
span says and with the bytes of its text, and so do the faults, each where its span says. Where the
script is a text, they are the tokens and faults of the text. -/
theorem Scanner.lex_spans (bytes : List UInt8) (hlength : bytes.length < 2 ^ 32 - 1) :
    StandInOrder (ScannedToken.StandsAt bytes) bytes.length (lex bytes).tokens ∧
    StandInOrder (ScannedFault.StandsAt bytes) bytes.length (lex bytes).faults ∧
    ∀ source : String, source.toUTF8.data.toList = bytes →
      List.Forall₂ ScannedToken.IsOf (lex bytes).tokens (Lexed.ofText source).tokens ∧
        List.Forall₂ ScannedFault.IsOf (lex bytes).faults (Lexed.ofText source).faults := by
  obtain ⟨hsound, hcurrent⟩ := lex_sound hlength
  refine ⟨hcurrent ▸ hsound.tokens, hcurrent ▸ hsound.faults, fun source hsource => ?_⟩
  obtain ⟨htokens, hfaults⟩ := lex_byteChars hsource
  have hcounted {span : Span} (hspan : span.IsPartOf source.toList) :=
    hspan.counted (by rwa [utf8_toList, hsource])
  rw [htokens, hfaults, List.forall₂_map_left_iff, List.forall₂_map_left_iff, List.forall₂_same,
    List.forall₂_same]
  constructor
  · intro t ht
    obtain ⟨hstart, hstop⟩ := hcounted (isPartOf_of_mem_tokens ht)
    exact ⟨rfl, congrArg₂ Span.mk hstart hstop, rfl⟩
  · intro f hf
    obtain ⟨hstart, hstop⟩ := hcounted (isPartOf_of_mem_faults hf)
    exact ⟨rfl, congrArg₂ Span.mk hstart hstop⟩

/-- A script of a name, a stray byte that is no text and a literal that is never closed. -/
theorem Scanner.lex_spans_stray :
    let bytes : List UInt8 := [0x76, 0x20, 0xFF, 0x0A, 0x22]
    (lex bytes).tokens.map (fun t => (t.kind, t.span)) =
        [(.identifier, ⟨⟨1, 1⟩, ⟨1, 2⟩⟩), (.identifier, ⟨⟨1, 3⟩, ⟨1, 4⟩⟩),
          (.newline, ⟨⟨1, 4⟩, ⟨1, 4⟩⟩), (.endOfFile, ⟨⟨2, 2⟩, ⟨2, 2⟩⟩)] ∧
      (lex bytes).faults.map (fun f => (f.fault, f.span)) =
        [(.unterminatedString, ⟨⟨2, 1⟩, ⟨2, 2⟩⟩)] ∧
      StandInOrder (ScannedToken.StandsAt bytes) bytes.length (lex bytes).tokens ∧
      StandInOrder (ScannedFault.StandsAt bytes) bytes.length (lex bytes).faults := by
  have hspans := lex_spans [0x76, 0x20, 0xFF, 0x0A, 0x22] (by decide)
  exact ⟨by cbv, by cbv, hspans.1, hspans.2.1⟩

end ScriptBridge
