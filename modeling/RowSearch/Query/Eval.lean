import RowSearch.Query.Node
import RowSearch.Row
import RowSearch.Wildcard.Cache
/-!
# Evaluation

The value of a tree at a row. A bare word is its own text, except as the key of a comparison or an
argument of a function that reads columns, where it stands for the column of that name if the row has
one. Where a truth value is needed, a text is taken for a pattern to be found in the searchable text
of the row. How a pattern is matched is left to the caller: at once or through a cache, and by which
engine.
-/

namespace RowSearch.Query

open Wildcard (Anchoring Engine PatternCache)

/-- A way of telling whether a text matches a pattern. -/
abbrev Matcher (m : Type → Type) := List Char → Anchoring → List Char → m Bool

def plainMatcher (engine : Engine := Engine.tables) : Matcher Id :=
  fun pattern anchoring text => Wildcard.matchesPattern pattern anchoring text engine

def cachedMatcher (engine : Engine := Engine.tables) : Matcher (StateM PatternCache) :=
  fun pattern anchoring text => PatternCache.isMatch pattern anchoring text engine

/-! ### Comparing values -/

/-- How two values are ordered. If one is a number and both read as numbers, the numbers decide, and
there is no order when one of these is not a number; in all other cases the texts decide. -/
def order? (config : Config) (left right : Value) : Option Ordering :=
  let byText :=
    compare (String.ofList (config.fold left.display.toList))
      (String.ofList (config.fold right.display.toList))
  if left.isNumber || right.isNumber then
    match left.asNumber, right.asNumber with
    | some x, some y =>
      if x < y then some .lt else if x == y then some .eq else if y < x then some .gt else none
    | _, _ => some byText
  else some byText

section

variable {m : Type → Type} [Monad m] (matcher : Matcher m) (config : Config)

/-- Whether two values are equal: the text of the right one is a pattern for that of the left one. -/
def equals (left right : Value) : m Bool :=
  matcher (config.fold right.display.toList) .anchored (config.fold left.display.toList)

def compareBy (op : CompareOp) (left right : Value) : m Bool :=
  match op with
  | .eq => equals matcher config left right
  | .ne => do return !(← equals matcher config left right)
  | .lt => return order? config left right = some .lt
  | .gt => return order? config left right = some .gt
  | .le => return order? config left right = some .lt || order? config left right = some .eq
  | .ge => return order? config left right = some .gt || order? config left right = some .eq

variable (row : Row)

def truthy : Value → m Bool
  | .bool b => return b
  | .number x => return x != 0.0 && !x.isNaN
  | .text pattern => matcher (config.fold pattern.toList) .floating (config.fold row.raw.toList)

/-- The value of the column that a node names, if the row has it. -/
def column? (node : Node) : Option Value :=
  node.singleText?.bind row.get?

namespace Node

mutual

def eval : Node → m Value
  | root [only] => only.eval
  | root terms => do return .bool (← allTrue terms)
  | empty => return .text ""
  | not operand => do return .bool (!(← truthy matcher config row (← operand.eval)))
  | logic .and left right => do
    if ← truthy matcher config row (← left.eval) then
      return .bool (← truthy matcher config row (← right.eval))
    else return .bool false
  | logic .or left right => do
    if ← truthy matcher config row (← left.eval) then return .bool true
    else return .bool (← truthy matcher config row (← right.eval))
  | comparison op key value => do
    let left ← match column? row key with
      | some v => pure v
      | none => key.eval
    let right ← value.eval
    return .bool (← compareBy matcher config op left right)
  | call function args => do return function.apply (← evalAll function.columnArgs args)
  | quoted text => return .text text
  | word text => return .text text

/-- Whether all terms of a sequence are true at a row. The terms behind the first one that is not are
left alone. -/
def allTrue : List Node → m Bool
  | [] => return true
  | first :: rest => do
    if ← truthy matcher config row (← first.eval) then allTrue rest else return false

/-- The values of arguments; `columns` says that bare words stand for columns. -/
def evalAll (columns : Bool) : List Node → m (List Value)
  | [] => return []
  | first :: rest => do
    let value ← match if columns then column? row first else none with
      | some v => pure v
      | none => first.eval
    return value :: (← evalAll columns rest)

end

/-- The value of a node used as an operand: a bare word stands for the column of that name. -/
def operand (node : Node) : m Value :=
  match column? row node with
  | some value => pure value
  | none => node.eval matcher config row

def holds (node : Node) : m Bool := do
  truthy matcher config row (← node.eval matcher config row)

end Node

end

end RowSearch.Query
