/-!
# JSON data

The data that rows, fields and settings are read from. A number written without a point or a power of
ten is kept as the integer it is, so that a limit can be told from a measurement.
-/

namespace RowSearch

/-- A JSON document. Members of an object are in the order of the document. -/
inductive Json where
  | null
  | bool (b : Bool)
  | integer (n : Int)
  | real (x : Float)
  | text (s : String)
  | array (items : List Json)
  | object (members : List (String × Json))
deriving Inhabited

/-- The member of an object by its name; of several with one name the last. -/
def Json.member? (members : List (String × Json)) (name : String) : Option Json :=
  members.reverse.lookup name

end RowSearch
