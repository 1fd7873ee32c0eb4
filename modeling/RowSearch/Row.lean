import RowSearch.Columns
import RowSearch.Json
/-!
# Rows

A row is what a compiled query is tested against: a flat record of named values. Under the name
`_raw` every row carries the text that bare words are searched in. A source that brings no such text
gets the texts of its values, in ascending order of the names, with a space between any two.
-/

namespace RowSearch

/-- The name of the column that holds the searchable text of a row. -/
def rawName : String := "_raw"

structure Row where
  columns : Columns
deriving DecidableEq

namespace Row

def withRaw (columns : Columns) (raw : String) : Row :=
  ⟨columns.insert rawName (.text raw)⟩

/-- The searchable text of columns: that of the raw column if there is one, and otherwise the texts
of all values. -/
def rawOf (columns : Columns) : String :=
  match columns.get? rawName with
  | some value => value.display
  | none => String.intercalate " " (columns.entries.map fun entry => entry.2.display)

def ofColumns (columns : Columns) : Row :=
  withRaw columns (rawOf columns)

def ofList (pairs : List (String × Value)) : Row :=
  ofColumns (Columns.ofList pairs)

def get? (row : Row) (name : String) : Option Value :=
  row.columns.get? name

def contains (row : Row) (name : String) : Bool :=
  (row.get? name).isSome

def raw (row : Row) : String :=
  match row.get? rawName with
  | some (.text raw) => raw
  | _ => ""

/-- The columns of a row other than the searchable text. -/
def fields (row : Row) : List (String × Value) :=
  row.columns.entries.filter fun entry => entry.1 ≠ rawName

end Row

/-! ### Rows and JSON -/

/-- The value that a JSON document is, if it is a truth value, a number or a text. -/
def Value.ofJson? : Json → Option Value
  | .bool b => some (.bool b)
  | .integer n => some (.number (Float.ofInt n))
  | .real x => some (.number x)
  | .text s => some (.text s)
  | _ => none

/-- The JSON form of a value. A number that is not finite has none and becomes null. -/
def Value.toJson : Value → Json
  | .bool b => .bool b
  | .number x => if x.isFinite then .real x else .null
  | .text s => .text s

def Row.ofJson? : Json → Option Row
  | .object members =>
    (members.mapM fun (member : String × Json) =>
      (Value.ofJson? member.2).map fun value => (member.1, value)).map Row.ofList
  | _ => none

/-- The JSON object of a row, its columns in ascending order. -/
def Row.toJson (row : Row) : Json :=
  .object (row.columns.entries.map fun entry => (entry.1, entry.2.toJson))

end RowSearch
