/-!
# What can be wrong with a query

The causes for which a query is not compiled, and the one for which a compiled query is not tested
against a row.
-/

namespace RowSearch

inductive QueryError where
  /-- A quote is opened and not closed. -/
  | mismatchedQuotes
  /-- A parenthesis is opened and not closed, or closed and not opened. -/
  | mismatchedParenthesis
  /-- A token is none of the kinds that the language has. -/
  | noTypeFound (token : String)
  /-- A function is called with too few or too many arguments. -/
  | invalidArguments (function : String)
  /-- A `NOT` ends the sequence in which it stands. -/
  | notAtEnd
  /-- An operator stands where it has not all of its operands. -/
  | missingOperand (operator : String)
  /-- The query nests deeper, or its tree grows taller, than the settings allow. -/
  | tooDeep (limit : Nat)
  /-- A row lacks a column that every row was declared to have. -/
  | missingField (name : String)
deriving DecidableEq, Repr, Inhabited

namespace QueryError

def message : QueryError → String
  | mismatchedQuotes => "Mismatched quotes"
  | mismatchedParenthesis => "Mismatched parenthesis"
  | noTypeFound token => "no type found for token \"" ++ token ++ "\""
  | invalidArguments function => "invalid arguments for function " ++ function
  | notAtEnd => "NOT at end is not allowed"
  | missingOperand operator => "operator " ++ operator ++ " is missing an operand"
  | tooDeep limit => "query nesting exceeds " ++ toString limit ++ " levels"
  | missingField name => "row does not contain expected field \"" ++ name ++ "\""

/-- Whether an error is one of bare structure, found before any part of the query has a meaning. -/
def isStructural : QueryError → Bool
  | mismatchedQuotes | mismatchedParenthesis => true
  | _ => false

end QueryError

end RowSearch
