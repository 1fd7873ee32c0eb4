import RowSearch.Query.Segment
import RowSearch.Text.Blank
/-!
# The normal form of a query

Outside of quotes white space only separates, so how much of it there is and of which kind makes no
difference: each run becomes one space, none is left around a comparison symbol, and the ends are
trimmed. What is quoted stays as it is.
-/

namespace RowSearch.Query

/-- Whether a character is a comparison symbol by itself. -/
def isComparison (c : Char) : Bool :=
  c = '=' || c = '<' || c = '>'

def startsComparison : List Char → Bool
  | [] => false
  | c :: rest => isComparison c || (c = '!' && rest.head? = some '=')

/-- Takes out the spaces around comparison symbols; `after` says that one comes just before. -/
def tightenFrom (after : Bool) : List Char → List Char
  | [] => []
  | c :: rest =>
    if c = ' ' && (after || startsComparison rest) then tightenFrom false rest
    else c :: tightenFrom (isComparison c) rest

def tighten (text : List Char) : List Char :=
  tightenFrom false text

def Segment.normal : Segment → Segment
  | .bare text => .bare (tighten (Text.squeeze text))
  | .quoted body => .quoted body

/-- The normal form of a query. It exists when every quote is closed. -/
def normalize (text : List Char) : Except QueryError (List Char) :=
  (Segment.cut text).map fun segments =>
    Text.trim (segments.flatMap fun segment => segment.normal.source)

end RowSearch.Query
