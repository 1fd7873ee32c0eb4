import RowSearch.Query.Operator
import RowSearch.Query.Zone
/-!
# Comparisons in a token

A token is a comparison when exactly one comparison symbol stands at its top level; it is cut there
into a key and a value. A span that is never closed hides everything behind its opening mark.
-/

namespace RowSearch.Query

/-- The comparison symbols from a place in a token, each with the place where it starts; the next
`skip` characters are the rest of a symbol. -/
def comparisonsFrom (extended : Bool) (z : Zone) :
    (place skip : Nat) → List Char → List (Nat × CompareOp)
  | _, _, [] => []
  | place, skip + 1, _ :: rest => comparisonsFrom extended z (place + 1) skip rest
  | place, 0, c :: rest =>
    match if z = .top then CompareOp.atStart? extended (c :: rest) else none with
    | some op => (place, op) :: comparisonsFrom extended z (place + 1) (op.width - 1) rest
    | none => comparisonsFrom extended (z.step (Mark.ofChar c)) (place + 1) 0 rest

def comparisons (extended : Bool) (token : List Char) : List (Nat × CompareOp) :=
  comparisonsFrom extended .top 0 0 token

/-- The key, the comparison and the value of a token with one comparison symbol. -/
def splitComparison? (extended : Bool) (token : List Char) :
    Option (List Char × CompareOp × List Char) :=
  match comparisons extended token with
  | [(place, op)] => some (token.take place, op, token.drop (place + op.width))
  | _ => none

end RowSearch.Query
