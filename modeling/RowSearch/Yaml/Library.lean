import RowSearch.Yaml.Node
/-!
# Libraries for YAML

Settings files are read and written by a library for YAML, which is a parameter of both. All that settings
ask of it are mappings from names to truth values and whole numbers. The reader of the modules before this
one is such a library, and is used where no other is given; it knows far less of YAML than others do.
-/

namespace RowSearch.Yaml

/-- A value of a field: a truth value, or a whole number of 64 bits. -/
inductive Scalar where
  | flag (value : Bool)
  | whole (value : UInt64)
deriving DecidableEq, Repr

structure Library where
  /-- The fields of the mapping in a document, in order, with no value where it is of another kind. There
  are none in an empty document, and a broken one is not read. -/
  read : String → Option (List (String × Option Scalar))
  write : List (String × Scalar) → String

/-! ### Plain scalars -/

def flagOf? (text : List Char) : Option Bool :=
  let word := String.ofList text
  if word = "true" ∨ word = "True" ∨ word = "TRUE" then some true
  else if word = "false" ∨ word = "False" ∨ word = "FALSE" then some false
  else none

def natOf? (base : Nat) (text : List Char) : Option Nat := do
  let digits ← text.mapM hexDigit?
  if text ≠ [] ∧ digits.all (· < base) then some (digits.foldl (base * · + ·) 0) else none

/-- The whole number of a plain scalar: in base ten without leading zeros, or in another base behind
the mark of that base. -/
def wholeOf? : List Char → Option Nat
  | '0' :: 'x' :: rest => natOf? 16 rest
  | '0' :: 'o' :: rest => natOf? 8 rest
  | '0' :: 'b' :: rest => natOf? 2 rest
  | ['0'] => some 0
  | '0' :: _ => none
  | text => natOf? 10 text

/-- The whole number of 64 bits of a plain scalar, a plus sign in front of which is allowed. -/
def wordOf? (text : List Char) : Option UInt64 :=
  let body := match text with
    | '+' :: rest => rest
    | _ => text
  (wholeOf? body).bind fun n => if n < UInt64.size then some (UInt64.ofNat n) else none

def Node.value? : Node → Option Scalar
  | plain text => (flagOf? text).map .flag <|> (wordOf? text).map .whole
  | _ => none

/-! ### The reader as a library -/

def Scalar.text : Scalar → String
  | flag value => toString value
  | whole value => toString value.toNat

def written (field : String × Scalar) : String :=
  field.1 ++ ": " ++ field.2.text ++ "\n"

def fieldOf? (entry : Node × Node) : Option (String × Option Scalar) :=
  entry.1.scalar?.map fun name => (String.ofList name, entry.2.value?)

def fieldsOf? : Option Node → Option (List (String × Option Scalar))
  | none => some []
  | some (.plain []) => some []
  | some (.mapping entries) => entries.mapM fieldOf?
  | some _ => none

def reader : Library where
  read text := (document? text.toList).bind fieldsOf?
  write fields := String.join (fields.map written)

end RowSearch.Yaml
