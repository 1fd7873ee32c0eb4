import RowSearch.Wildcard.Engine
/-!
# The pattern cache

A query is tested against many rows, so its patterns are compiled once and kept, and so is the fact
that a pattern could not be compiled. Anchored and floating patterns are kept apart. A pattern without
wildcards needs no compiling and is not kept.
-/

namespace RowSearch.Wildcard

/-- Compiled patterns by their texts; a pattern that could not be compiled is kept as `none`. -/
abbrev Compiled := List (List Char × Option Finder)

structure PatternCache where
  anchored : Compiled
  floating : Compiled

namespace PatternCache

def empty : PatternCache := ⟨[], []⟩

def kept (cache : PatternCache) : Anchoring → Compiled
  | .anchored => cache.anchored
  | .floating => cache.floating

def keep (cache : PatternCache) (anchoring : Anchoring) (pattern : List Char)
    (outcome : Option Finder) : PatternCache :=
  match anchoring with
  | .anchored => { cache with anchored := (pattern, outcome) :: cache.anchored }
  | .floating => { cache with floating := (pattern, outcome) :: cache.floating }

/-- The compiled form of a pattern, looked up or compiled and kept. -/
def compiled? (pattern : List Char) (anchoring : Anchoring) (engine : Engine := Engine.tables) :
    StateM PatternCache (Option Finder) :=
  fun cache =>
    match (cache.kept anchoring).lookup pattern with
    | some outcome => (outcome, cache)
    | none =>
      (engine.compile? pattern anchoring,
        cache.keep anchoring pattern (engine.compile? pattern anchoring))

def isMatch (pattern : List Char) (anchoring : Anchoring) (text : List Char)
    (engine : Engine := Engine.tables) : StateM PatternCache Bool :=
  if hasWildcards pattern then do
    match ← compiled? pattern anchoring engine with
    | some found => return found text
    | none => return matchesPlain pattern anchoring text
  else return matchesPlain pattern anchoring text

end PatternCache

end RowSearch.Wildcard
