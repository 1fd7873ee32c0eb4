import RowSearch.Number.Written
import RowSearch.Text.Blank
/-!
# Values

The three kinds of value a column holds and a query computes: truth values, numbers and texts. Each
has a text, by which it is compared with patterns, and some read as numbers: a number as itself, a
text when it is the text of one, a truth value never.
-/

namespace RowSearch

/-- A value of a column, or the result of a part of a query. -/
inductive Value where
  | bool (b : Bool)
  | number (x : Float)
  | text (s : String)
deriving DecidableEq, Inhabited

namespace Value

def display : Value → String
  | .bool true => "true"
  | .bool false => "false"
  | .number x => Number.written x
  | .text s => s

/-- The number that a value reads as. Blanks around the text of a number do not count. -/
def asNumber : Value → Option Float
  | .bool _ => none
  | .number x => some x
  | .text s => Number.read? (Text.trim s.toList)

/-- Whether a value is a number, whatever it reads as. -/
def isNumber : Value → Bool
  | .number _ => true
  | _ => false

end Value

end RowSearch
