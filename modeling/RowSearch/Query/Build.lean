import RowSearch.Query.Fold
import RowSearch.Query.Normal
import RowSearch.Query.Split
/-!
# Building the tree

A query is normalized and split into tokens; each token is classified and, where it holds queries of
its own, those are built one level deeper; then the operators are folded. The recursion is on the
number of levels that may still be entered, so it ends whatever the text is.
-/

namespace RowSearch.Query

variable (config : Config)

abbrev heightLimit : Nat := config.maxHeight.toNat

/-- A token as an item of the flat sequence. `inner` builds the queries that the token holds. -/
def pending (inner : List Char → Except QueryError Built) (token : List Char) :
    Except QueryError Pending := do
  let limit := heightLimit config
  let unclaimed := QueryError.noTypeFound (String.ofList token)
  match ← Kind.ofToken config token with
  | .root => throw unclaimed
  | .empty => return .term (← Built.within limit .empty 1)
  | .not => return .not
  | .logic =>
    match LogicOp.ofToken? token with
    | some op => return .logic op
    | none => throw unclaimed
  | .comparison =>
    match splitComparison? config.extendedOperators token with
    | some (key, op, value) =>
      let key ← inner key
      let value ← inner value
      return .term (← Built.within limit (.comparison op key.node value.node)
        (max key.height value.height + 1))
    | none => throw unclaimed
  | .call =>
    match splitCall? token with
    | some (function, text) =>
      let args ← (← splitAt [','] text).mapM inner
      function.checkArity args.length
      return .term (← Built.within limit (.call function (args.map (·.node))) (tallest args + 1))
    | none => throw unclaimed
  | .quoted =>
    match unquote? token with
    | some text => return .term (← Built.within limit (.quoted (String.ofList text)) 1)
    | none => throw unclaimed
  | .word => return .term (← Built.within limit (.word (String.ofList token)) 1)

/-- The tokens of a query. An empty query is one empty token. -/
def tokens (text : List Char) : Except QueryError (List (List Char)) := do
  match ← splitAt [' '] (← normalize text) with
  | [] => return [[]]
  | parts => return parts

/-- The tree of a query when `levels` more levels may be entered. -/
def buildFrom : (levels : Nat) → List Char → Except QueryError Built
  | 0, _ => .error (.tooDeep config.maxDepth.toNat)
  | levels + 1, text => do
    let items ← (← tokens text).mapM (pending config (buildFrom levels))
    let terms ← fold (heightLimit config) items
    Built.within (heightLimit config) (.root (terms.map (·.node))) (tallest terms + 1)

/-- The tree of a query. Its top node is a root. -/
def build (text : List Char) : Except QueryError Node :=
  (buildFrom config (config.maxDepth.toNat + 1) text).map (·.node)

end RowSearch.Query
