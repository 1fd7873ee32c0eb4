import RowSearch.Text.Lowercase
import RowSearch.Json
/-!
# Settings

What can be set about compiling and testing queries: whether the case of letters counts, whether the
comparison symbols of two characters are known, and two limits that keep a hostile query from nesting
without bound. Settings are checked only when they are read from a file, so a limit of zero is used
as it is by whoever sets it directly.
-/

namespace RowSearch

/-- The settings shared by compiling and testing. -/
structure Config where
  /-- Texts are compared as they are, not in lower case. -/
  caseSensitive : Bool := false
  /-- The symbols of two characters are comparisons. -/
  extendedOperators : Bool := true
  /-- The deepest nesting of groups, arguments and sides of comparisons. -/
  maxDepth : UInt64 := 64
  /-- The height of the tallest tree. -/
  maxHeight : UInt64 := 512
deriving DecidableEq, Repr

inductive ConfigError where
  /-- A file cannot be read as text. -/
  | unreadable (path : String)
  /-- The document is broken, or a setting in it has the wrong type or is given twice. -/
  | malformed
  | zeroDepth
  | zeroHeight
deriving DecidableEq, Repr

def ConfigError.message : ConfigError → String
  | unreadable path => "failed to read search config " ++ path
  | malformed => "search config is malformed"
  | zeroDepth => "max_depth must be greater than 0"
  | zeroHeight => "max_height must be greater than 0"

namespace Config

def standard : Config := {}

/-- The form in which texts are compared. -/
def fold (config : Config) (text : List Char) : List Char :=
  if config.caseSensitive then text else Text.lowercase text

/-- Refuses limits of zero, the depth first. -/
def validate (config : Config) : Except ConfigError Config :=
  if config.maxDepth = 0 then .error .zeroDepth
  else if config.maxHeight = 0 then .error .zeroHeight
  else .ok config

/-! ### Settings in JSON -/

/-- A truth value in JSON, or the standard one where there is none. -/
def flag? (standard : Bool) : Option Json → Option Bool
  | none => some standard
  | some (.bool b) => some b
  | some _ => none

def limit? (standard : UInt64) : Option Json → Option UInt64
  | none => some standard
  | some (.integer n) => if 0 ≤ n ∧ n.toNat < UInt64.size then some (UInt64.ofNat n.toNat) else none
  | some _ => none

/-- The settings of four parts in JSON, in the order of the structure. -/
def ofParts? (caseSensitive extendedOperators maxDepth maxHeight : Option Json) : Option Config := do
  some {
    caseSensitive := ← flag? false caseSensitive
    extendedOperators := ← flag? true extendedOperators
    maxDepth := ← limit? 64 maxDepth
    maxHeight := ← limit? 512 maxHeight }

/-- The settings of a JSON object, or of an array that lists them in the order of the structure. What
is missing keeps its standard value; other members are passed over. -/
def ofJson? : Json → Option Config
  | .object members =>
    ofParts? (Json.member? members "case_sensitive") (Json.member? members "extended_operators")
      (Json.member? members "max_depth") (Json.member? members "max_height")
  | .array items =>
    if items.length ≤ 4 then ofParts? items[0]? items[1]? items[2]? items[3]? else none
  | _ => none

end Config

end RowSearch
