/-!
# Wildcard patterns

In a pattern `*` stands for any run of characters and `_` for any one character; all others stand for
themselves. A pattern is matched piece by piece against a whole text (anchored) or against any part of
one (floating). A pattern without wildcards is compared as plain text.
-/

namespace RowSearch.Wildcard

/-- Where a pattern has to match. -/
inductive Anchoring where
  /-- The whole text. -/
  | anchored
  /-- Some part of the text. -/
  | floating
deriving DecidableEq, Repr

inductive Piece where
  | anyRun
  | anyOne
  | exactly (c : Char)
deriving DecidableEq, Repr

def Piece.ofChar (c : Char) : Piece :=
  if c = '*' then .anyRun else if c = '_' then .anyOne else .exactly c

def isWildcard (c : Char) : Bool :=
  c = '*' || c = '_'

def hasWildcards (pattern : List Char) : Bool :=
  pattern.any isWildcard

structure Glob where
  anchoring : Anchoring
  pieces : List Piece
deriving DecidableEq, Repr

/-! ### Matching

A table of pieces and a text tells for each end part of the text, from the whole text to the empty
one, whether the pieces match it. It is made from the table of the pieces without the first one, so no
alignment is tried twice.
-/

/-- The table of a pattern that starts with a run, made from that of the rest: an end part matches
when the rest matches it or a shorter one. -/
def runTable : (table : List Bool) → List Bool
  | [] => []
  | here :: later =>
    let below := runTable later
    (here || below.headD false) :: below

/-- The table of a pattern that starts with a piece for one character, made from that of the rest. -/
def stepTable (accepts : Char → Bool) (text : List Char) (table : List Bool) : List Bool :=
  List.zipWith (fun c later => accepts c && later) text table.tail ++ [false]

def table (text : List Char) : List Piece → List Bool
  | [] => text.map (fun _ => false) ++ [true]
  | .anyRun :: rest => runTable (table text rest)
  | .anyOne :: rest => stepTable (fun _ => true) text (table text rest)
  | .exactly c :: rest => stepTable (· = c) text (table text rest)

/-- Whether a compiled pattern matches a text. What floats may be followed by anything and may start
anywhere. -/
def Glob.matches (glob : Glob) (text : List Char) : Bool :=
  match glob.anchoring with
  | .anchored => (table text glob.pieces).headD false
  | .floating => (table text (glob.pieces ++ [.anyRun])).any id

/-! ### Plain text -/

def occursIn (part : List Char) : List Char → Bool
  | [] => part.isEmpty
  | c :: rest => part.isPrefixOf (c :: rest) || occursIn part rest

def matchesPlain (pattern : List Char) (anchoring : Anchoring) (text : List Char) : Bool :=
  match anchoring with
  | .anchored => text = pattern
  | .floating => occursIn pattern text

end RowSearch.Wildcard
