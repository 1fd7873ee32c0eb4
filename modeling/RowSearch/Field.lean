import RowSearch.Json
/-!
# Fields

A field is a column that whoever runs a query expects every row to have.
-/

namespace RowSearch

/-- A column expected in every row, with an optional description. -/
structure Field where
  name : String
  description : Option String
deriving DecidableEq, Repr

namespace Field

def ofName (name : String) : Field :=
  ⟨name, none⟩

def withDescription (field : Field) (description : String) : Field :=
  { field with description := some description }

/-- The field of a name and a description in JSON. A description may be missing or null. -/
def ofParts? : Option Json → Option Json → Option Field
  | some (.text name), none => some ⟨name, none⟩
  | some (.text name), some .null => some ⟨name, none⟩
  | some (.text name), some (.text description) => some ⟨name, some description⟩
  | _, _ => none

/-- The field of a JSON object with a name and perhaps a description, or of an array that lists the
two in this order. -/
def ofJson? : Json → Option Field
  | .object members => ofParts? (Json.member? members "name") (Json.member? members "description")
  | .array [name] => ofParts? (some name) none
  | .array [name, description] => ofParts? (some name) (some description)
  | _ => none

/-- The JSON object of a field. A description is written only if there is one. -/
def toJson (field : Field) : Json :=
  .object (("name", .text field.name)
    :: (field.description.map fun text => ("description", Json.text text)).toList)

end Field

end RowSearch
