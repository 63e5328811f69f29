import ScriptBridge.Lists

/-! Paths of files, as texts. A path is a sequence of names between slashes; several
slashes count as one, and a slash at the end is a last, empty component. All of this
is a matter of the text alone, the normal form of a path and the way from one path to
another as well. -/

namespace ScriptBridge

structure Path where
  text : String
  deriving DecidableEq

namespace Path

def isEmpty (p : Path) : Bool := p.text == ""

def isAbsolute (p : Path) : Bool := p.text.toList.head? == some '/'

/-- The parts between slashes that are not empty. -/
def names (p : Path) : List String :=
  ((splitOn '/' p.text.toList).filter (· != [])).map String.ofList

def endsInSlash (p : Path) : Bool := p.text.toList.getLast? == some '/'

/-- The names, and an empty component for a slash after the last of them. -/
def components (p : Path) : List String :=
  p.names ++ if p.endsInSlash && p.names != [] then [""] else []

/-- The last component; the root has none, and its text is empty. -/
def fileName (p : Path) : String := p.components.getLastD ""

/-- The path `q` seen from the directory `p`. -/
def join (p q : Path) : Path :=
  if q.isAbsolute then q
  else if p.isEmpty || p.endsInSlash then ⟨p.text ++ q.text⟩
  else ⟨p.text ++ "/" ++ q.text⟩

/-- The path of the entry that names lead to from a path. -/
def below (p : Path) (names : List String) : Path := names.foldl (fun q n => q.join ⟨n⟩) p

/-- The path of names below the root. -/
def ofNames (names : List String) : Path := ⟨"/" ++ "/".intercalate names⟩

/-- The path of names seen from where the reader stands. -/
def relative (names : List String) : Path := ⟨"/".intercalate names⟩

/-- The path of names from the root, or from where the reader stands. -/
def ofComponents (isAbsolute : Bool) (names : List String) : Path :=
  if isAbsolute then ofNames names else relative names

/-- What a disk sees of a path: a null character ends it. -/
def visible (p : Path) : Path := ⟨String.ofList (p.text.toList.takeWhile (· != '\x00'))⟩

/-- The path without its last component. The root is its own parent. -/
def parent (p : Path) : Path :=
  let backwards := p.text.toList.reverse
  let rest := (backwards.dropWhile (· != '/')).dropWhile (· == '/')
  if p.names = [] then p
  else if rest = [] && p.isAbsolute then ⟨"/"⟩
  else ⟨String.ofList rest.reverse⟩

/-! ### Normal form -/

/-- Takes one component into account: a dot changes nothing, and two dots take back
the name before them. Nothing lies above the root; above the reader's place two dots
stay. -/
def reduceStep (isAbsolute : Bool) (names : List String) (component : String) : List String :=
  if component == "" || component == "." then names
  else if component == ".." then
    match names.getLast? with
    | none => if isAbsolute then [] else [".."]
    | some last => if last == ".." then names ++ [".."] else names.dropLast
  else names ++ [component]

def reducedNames (p : Path) : List String := p.components.foldl (reduceStep p.isAbsolute) []

/-- A path that ends in a slash or in dots denotes a directory as such. -/
def endsOpen (p : Path) : Bool := ["", ".", ".."].contains (p.components.getLastD ".")

/-- The path without dots, as far as they can be removed. It keeps a slash at its end
where it denotes a directory as such. -/
def normal (p : Path) : Path :=
  let names := p.reducedNames
  let slash := if p.endsOpen && names != [] && names.getLast? != some ".." then "/" else ""
  if p.isEmpty then p
  else if p.isAbsolute then ⟨(ofNames names).text ++ slash⟩
  else if names = [] then ⟨"."⟩
  else ⟨(relative names).text ++ slash⟩

/-- The normal form of a path seen from the directory `here`. -/
def normalFrom (here p : Path) : Path := if p.isEmpty then p else (here.join p).normal

/-! ### The way between two paths -/

/-- What one reads along a path: a slash for the root, and the components. -/
def elements (p : Path) : List String := (if p.isAbsolute then ["/"] else []) ++ p.components

/-- What two lists hold behind the elements that they have in common at their front. -/
def mismatch : List String → List String → List String × List String
  | a :: as, b :: bs => if a = b then mismatch as bs else (a :: as, b :: bs)
  | as, bs => (as, bs)

/-- The number of directories that elements lead down, less those that they lead up. -/
def descent (elements : List String) : Int :=
  (elements.countP fun e => e != "" && e != "." && e != "..") - (elements.count ".." : Int)

/-- The way from `base` to `p` by their texts: up from where they part, and down again. There is
none, which the empty path says, between a path from the root and one that is not, or if `base`
leads further up than down from there. -/
def lexicallyRelative (p base : Path) : Path :=
  let (rest, above) := mismatch p.elements base.elements
  if p.isAbsolute != base.isAbsolute then ⟨""⟩
  else if rest = [] ∧ above = [] then ⟨"."⟩
  else if descent above < 0 then ⟨""⟩
  else if descent above = 0 ∧ (rest.head?.all (· == "")) then ⟨"."⟩
  else (Path.mk "").below (List.replicate (descent above).toNat ".." ++ rest)

/-! ### Resource paths -/

/-- A script's path in the engine's resource system: the way to it from the root of the project,
or its last name alone if there is no root, or no way, or one that leads up first. -/
def inProject (here script root : Path) : String :=
  let s := normalFrom here script
  let way := if root.isEmpty then ⟨""⟩ else s.lexicallyRelative (normalFrom here root)
  "res://" ++ if way.isEmpty || way.elements.head? == some ".." then s.fileName else way.text

end Path

end ScriptBridge
