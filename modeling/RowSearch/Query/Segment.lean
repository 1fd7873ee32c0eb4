import RowSearch.Query.Error
/-!
# Quoted and bare segments

A query is cut at its quotes: what stands between a quote and the next one is taken as it is, and
only the bare text around it is open to rewriting. Parentheses play no part here, so a quote within a
group counts as any other. A backslash takes the character behind it out of account, on either side
of a quote.
-/

namespace RowSearch.Query

/-- A piece of a query: the text within a pair of quotes, or text outside of all quotes. -/
inductive Segment where
  | bare (text : List Char)
  | quoted (body : List Char)
deriving DecidableEq, Repr

namespace Segment

def source : Segment → List Char
  | bare text => text
  | quoted body => '"' :: body ++ ['"']

def extend (text : List Char) : Segment → Segment
  | bare rest => bare (text ++ rest)
  | quoted rest => quoted (text ++ rest)

def extendFirst (text : List Char) : List Segment → List Segment
  | [] => []
  | first :: rest => first.extend text :: rest

/-- The segments of a text that starts inside of quotes or outside. Bare and quoted segments take
turns, and the last one is bare. -/
def cutFrom (inside : Bool) : List Char → Except QueryError (List Segment)
  | [] => if inside then .error .mismatchedQuotes else .ok [bare []]
  | '\\' :: c :: rest => (cutFrom inside rest).map (extendFirst ['\\', c])
  | '"' :: rest =>
    (cutFrom (!inside) rest).map ((if inside then quoted [] else bare []) :: ·)
  | c :: rest => (cutFrom inside rest).map (extendFirst [c])

def cut (text : List Char) : Except QueryError (List Segment) :=
  cutFrom false text

end Segment

def quotedSpans (text : List Char) : Except QueryError (List (List Char)) :=
  (Segment.cut text).map fun segments => segments.filterMap fun
    | .bare _ => none
    | .quoted body => some body

end RowSearch.Query
