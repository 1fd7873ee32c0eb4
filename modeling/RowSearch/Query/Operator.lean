/-!
# Operators

The two connectives that join terms and the six comparisons of a column with a value.
-/

namespace RowSearch.Query

inductive LogicOp where
  | and
  | or
deriving DecidableEq, Repr

def LogicOp.keyword : LogicOp → String
  | and => "AND"
  | or => "OR"

/-- The connective that a token is, if it is one. Keywords are in upper case. -/
def LogicOp.ofToken? (token : List Char) : Option LogicOp :=
  [and, or].find? fun op => op.keyword.toList = token

inductive CompareOp where
  | eq
  | ne
  | lt
  | gt
  | le
  | ge
deriving DecidableEq, Repr

namespace CompareOp

def symbol : CompareOp → String
  | eq => "="
  | ne => "!="
  | lt => "<"
  | gt => ">"
  | le => "<="
  | ge => ">="

def width (op : CompareOp) : Nat :=
  op.symbol.toList.length

def ofSymbol? (symbol : List Char) : Option CompareOp :=
  [eq, ne, lt, gt, le, ge].find? fun op => op.symbol.toList = symbol

/-- The comparison whose symbol a text starts with. The symbols of two characters are known only
when `extended` is set; the longer one of two symbols is taken. -/
def atStart? (extended : Bool) : List Char → Option CompareOp
  | [] => none
  | c :: rest =>
    if extended && rest.head? = some '=' && (c = '!' || c = '<' || c = '>') then
      some (if c = '!' then ne else if c = '<' then le else ge)
    else if c = '=' then some eq
    else if c = '<' then some lt
    else if c = '>' then some gt
    else none

end CompareOp

end RowSearch.Query
