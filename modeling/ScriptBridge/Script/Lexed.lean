import ScriptBridge.Script.Piece

/-! The tokens of a script. Pieces are laid end to end from the first position, so
a token's span follows from the text before it. A script with any token ends with
the end of a line, and every script with the end of the file. -/

namespace ScriptBridge

namespace Piece

/-- The token of a piece that starts at `p`. The end of a line is an empty token. -/
def token? (p : Position) : Piece → Option Token
  | lineEnd => some { kind := .newline, span := ⟨p, p⟩ }
  | token kind a t b =>
    some { kind, span := ⟨p, p.after (a ++ t ++ b)⟩, text := String.ofList t }
  | _ => none

def fault? (p : Position) : Piece → Option LocatedFault
  | broken fault s => some ⟨fault, ⟨p, p.after s⟩⟩
  | _ => none

end Piece

/-- What each of the pieces yields when they are laid end to end from `p`. -/
def layOut {α : Type} (f : Position → Piece → Option α) : Position → List Piece → List α
  | _, [] => []
  | p, x :: xs => (f p x).toList ++ layOut f (p.after x.source) xs

/-- The line end that closes a script whose last line is open. -/
def closingLine (stop : Position) (tokens : List Token) : List Token :=
  match tokens.getLast? with
  | some t => if t.kind == .newline then [] else [{ kind := .newline, span := ⟨stop, stop⟩ }]
  | none => []

structure Lexed where
  tokens : List Token
  faults : List LocatedFault

namespace Lexed

def ofChars (cs : List Char) : Lexed :=
  let pieces := (cutAll .lineStart cs).1
  let tokens := layOut Piece.token? {} pieces
  let stop := Position.after {} cs
  { tokens := tokens ++ closingLine stop tokens ++ [{ kind := .endOfFile, span := ⟨stop, stop⟩ }]
    faults := layOut Piece.fault? {} pieces }

def ofText (source : String) : Lexed := ofChars source.toList

end Lexed

end ScriptBridge
