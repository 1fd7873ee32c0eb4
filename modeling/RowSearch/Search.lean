import RowSearch.Field
import RowSearch.Query.Build
import RowSearch.Query.Eval
/-!
# Searches

A search is a query compiled once, to be tested against any number of rows. It knows the fields that
every row has to have; bare words of the query are not checked against them. Tests of one search share
a cache of compiled patterns, which goes through them as a state and makes no difference to them.
-/

namespace RowSearch

open Query (Matcher Node)
open Wildcard (Engine PatternCache)

structure Search where
  /-- The query as it was given. -/
  query : String
  fields : List Field
  config : Config
  root : Node
deriving DecidableEq

namespace Search

def build (query : String) (fields : List Field) (config : Config) : Except QueryError Search :=
  (Query.build config query.toList).map fun root => { query, fields, config, root }

def print (search : Search) : String :=
  search.root.print

def missing? (search : Search) (row : Row) : Option Field :=
  search.fields.find? fun field => !row.contains field.name

section

variable {m : Type → Type} [Monad m] (matcher : Matcher m) (search : Search)

def testBy (row : Row) : m (Except QueryError Bool) :=
  match search.missing? row with
  | some field => return .error (.missingField field.name)
  | none => do return .ok (← search.root.holds matcher search.config row)

/-- The items whose rows match, in order, by a way of matching patterns. The first row that cannot be
tested ends the search. -/
def filterBy {α : Type} (row : α → Row) : List α → m (Except QueryError (List α))
  | [] => return .ok []
  | item :: rest => do
    match ← testBy matcher search (row item) with
    | .error e => return .error e
    | .ok found =>
      return (← filterBy row rest).map fun others => if found then item :: others else others

end

/-- Whether a row matches. Patterns are kept in the cache. -/
def test (search : Search) (row : Row) (engine : Engine := Engine.tables) :
    StateM PatternCache (Except QueryError Bool) :=
  testBy (Query.cachedMatcher engine) search row

def filter {α : Type} (search : Search) (row : α → Row) (items : List α)
    (engine : Engine := Engine.tables) : StateM PatternCache (Except QueryError (List α)) :=
  filterBy (Query.cachedMatcher engine) search row items

/-- Whether a row matches a query under the standard settings. -/
def matchesQuery (query : String) (row : Row) (engine : Engine := Engine.tables) :
    Except QueryError Bool := do
  let search ← build query [] .standard
  ((search.test row engine).run .empty).1

end Search

end RowSearch
