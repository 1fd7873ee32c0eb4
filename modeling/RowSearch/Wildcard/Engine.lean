import RowSearch.Wildcard.Glob
/-!
# Engines for regular expressions

A wildcard pattern is written as a regular expression and handed to an engine: `.*` stands for `*` and `.`
for `_`, and a backslash is put in front of every other character that would mean something there. The
flag `(?s)` lets the point stand for the end of a line as well, and an anchored pattern stands between
the marks of the start and of the end.

The engine is a parameter of all matching. It may refuse any expression, and the pattern is then compared
as plain text. The tables of pieces are an engine of their own, which is used where no other is given. It
reads the expressions that are written here and no others.
-/

namespace RowSearch.Wildcard

abbrev Finder := List Char → Bool

/-- An engine refuses an expression, or it compiles it. -/
abbrev Engine := List Char → Option Finder

/-! ### Expressions -/

/-- Whether a character has, or may get, a meaning of its own in an expression. -/
def isMeta (c : Char) : Bool :=
  "\\.+*?()|[]\x7b\x7d^$#&-~".toList.contains c

def written (c : Char) : List Char :=
  if c = '*' then ['.', '*']
  else if c = '_' then ['.']
  else if isMeta c then ['\\', c]
  else [c]

/-- The flag in front of every expression: a point stands for every character. -/
def dotAll : List Char := "(?s)".toList

def expression (pattern : List Char) : Anchoring → List Char
  | .anchored => dotAll ++ '^' :: (pattern.flatMap written ++ ['$'])
  | .floating => dotAll ++ pattern.flatMap written

/-! ### The tables as an engine -/

/-- An item of an expression: the start of the text, its end, or what a piece takes. -/
inductive Item where
  | start
  | stop
  | piece (piece : Piece)
deriving DecidableEq, Repr

/-- The items of an expression, if it has no others than these. -/
def items? : List Char → Option (List Item)
  | [] => some []
  | '^' :: rest => (items? rest).map (.start :: ·)
  | '$' :: rest => (items? rest).map (.stop :: ·)
  | '.' :: '*' :: rest => (items? rest).map (.piece .anyRun :: ·)
  | '.' :: rest => (items? rest).map (.piece .anyOne :: ·)
  | '\\' :: c :: rest => if isMeta c then (items? rest).map (.piece (.exactly c) :: ·) else none
  | c :: rest => if isMeta c then none else (items? rest).map (.piece (.exactly c) :: ·)

def itemsOf (pieces : List Piece) : Anchoring → List Item
  | .anchored => .start :: (pieces.map .piece ++ [.stop])
  | .floating => pieces.map .piece

def Item.piece? : Item → Option Piece
  | .start => none
  | .stop => none
  | .piece taken => some taken

/-- The number of wildcards up to which the tables take a pattern. -/
def capacity : Nat := 10000

/-- The compiled form of the items of a pattern, unless it has too many wildcards. -/
def globOf? (items : List Item) : Option Glob :=
  let pieces := items.filterMap Item.piece?
  if pieces.countP (fun piece => piece = .anyRun ∨ piece = .anyOne) ≤ capacity then
    [Anchoring.anchored, .floating].findSome? fun anchoring =>
      if items = itemsOf pieces anchoring then some ⟨anchoring, pieces⟩ else none
  else none

namespace Engine

def tables : Engine := fun source =>
  if dotAll.isPrefixOf source then
    ((items? (source.drop dotAll.length)).bind globOf?).map Glob.matches
  else none

def compile? (engine : Engine) (pattern : List Char) (anchoring : Anchoring) : Option Finder :=
  engine (expression pattern anchoring)

end Engine

def matchesPattern (pattern : List Char) (anchoring : Anchoring) (text : List Char)
    (engine : Engine := Engine.tables) : Bool :=
  if hasWildcards pattern then
    match engine.compile? pattern anchoring with
    | some found => found text
    | none => matchesPlain pattern anchoring text
  else matchesPlain pattern anchoring text

end RowSearch.Wildcard
