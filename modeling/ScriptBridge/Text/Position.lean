/-! Places in a source text. A position is a line and a byte column, both counted
from one, and it is a function of the text read so far: a line feed starts the
next line, any other character moves the column by its length in UTF-8. -/

namespace ScriptBridge

structure Position where
  line : Nat := 1
  column : Nat := 1
  deriving DecidableEq, Inhabited

namespace Position

def advance (p : Position) (c : Char) : Position :=
  if c = '\n' then ⟨p.line + 1, 1⟩ else ⟨p.line, p.column + c.utf8Size⟩

/-- The position reached from `p` by reading `text`. -/
def after (p : Position) (text : List Char) : Position := text.foldl advance p

/-- Reading order: by line, then by column. -/
def before (p q : Position) : Bool :=
  p.line < q.line || (p.line == q.line && p.column < q.column)

@[simp] theorem after_nil (p : Position) : p.after [] = p := rfl

@[simp] theorem after_cons (p : Position) (c : Char) (cs : List Char) :
    p.after (c :: cs) = (p.advance c).after cs := rfl

theorem after_append (p : Position) (a b : List Char) : p.after (a ++ b) = (p.after a).after b :=
  List.foldl_append

end Position

/-- A stretch of source text, from `start` up to but not including `stop`. -/
structure Span where
  start : Position := {}
  stop : Position := {}
  deriving DecidableEq, Inhabited

namespace Span

/-- The smallest span that covers both. -/
def hull (a b : Span) : Span where
  start := if b.start.before a.start then b.start else a.start
  stop := if a.stop.before b.stop then b.stop else a.stop

end Span

end ScriptBridge
