import RowSearch.Number.Shortest
/-!
# Numbers in text

How a number is written and what text reads as a number. A number is written in positional notation,
never with an exponent, so that it can be searched for by its digits. Reading is wider than writing:
it takes an exponent, a missing digit on one side of the point, and the names of the numbers that are
not finite, in any case of letters.
-/

namespace RowSearch.Number

open Float.Model (UnpackedFloat)

/-! ### Writing -/

def digits (n : Nat) : List Char :=
  Nat.toDigits 10 n

/-- The digits behind the point: padded with zeros to their places, without the zeros at the end. -/
def fractionDigits (n places : Nat) : List Char :=
  let padded := List.replicate (places - (digits n).length) '0' ++ digits n
  (padded.reverse.dropWhile (· = '0')).reverse

/-- A decimal in positional notation. -/
def Decimal.written (d : Decimal) : List Char :=
  let whole := d.coefficient / Nat.pow 10 d.places
  match fractionDigits (d.coefficient % Nat.pow 10 d.places) d.places with
  | [] => digits whole
  | fraction => digits whole ++ '.' :: fraction

/-- The whole number that `m · 2^e` is, if it is one. -/
def whole? (m : Nat) (e : Int) : Option Nat :=
  if 0 ≤ e then some (m * Nat.pow 2 e.toNat)
  else if m % Nat.pow 2 (-e).toNat = 0 then some (m / Nat.pow 2 (-e).toNat) else none

/-- The text of `m · 2^e`: a whole number below `10^15` in full, any other by its shortest digits. -/
def magnitude (m : Nat) (e : Int) : List Char :=
  match whole? m e with
  | some n => if n < Nat.pow 10 15 then digits n else (shortest m e).written
  | none => (shortest m e).written

/-- The text of a number. Zero is written without its sign. -/
def written (x : Float) : String :=
  match x.toModel.unpack with
  | .notANumber => "NaN"
  | .infinity .positive => "Infinity"
  | .infinity .negative => "-Infinity"
  | .zero _ => "0"
  | .finite .positive m e _ => String.ofList (magnitude m e)
  | .finite .negative m e _ => String.ofList ('-' :: magnitude m e)

/-! ### Reading -/

def ofDigits (text : List Char) : Nat :=
  text.foldl (fun n c => 10 * n + (c.toNat - 48)) 0

def splitSign : List Char → Bool × List Char
  | '-' :: rest => (true, rest)
  | '+' :: rest => (false, rest)
  | text => (false, text)

def readDigits? (text : List Char) : Option Nat :=
  if text ≠ [] ∧ text.all Char.isDigit then some (ofDigits text) else none

/-- What follows the digits of a decimal: nothing, or a signed power of ten. -/
def readExponent? : List Char → Option Int
  | [] => some 0
  | c :: rest =>
    if c = 'e' ∨ c = 'E' then
      let (negative, power) := splitSign rest
      (readDigits? power).map fun n => if negative then -(n : Int) else n
    else none

/-- The text behind a point, if one comes first, and all of it otherwise. -/
def afterPoint : List Char → List Char × List Char
  | '.' :: rest => (rest.takeWhile Char.isDigit, rest.dropWhile Char.isDigit)
  | text => ([], text)

/-- A decimal without a sign: digits, of which some may follow a point, and a power of ten. The
nearest double is read. -/
def readMagnitude? (text : List Char) : Option Float :=
  let whole := text.takeWhile Char.isDigit
  let (fraction, rest) := afterPoint (text.dropWhile Char.isDigit)
  if whole = [] ∧ fraction = [] then none
  else (readExponent? rest).map fun (power : Int) =>
    let scale : Int := power - fraction.length
    Float.ofScientific (ofDigits (whole ++ fraction)) (scale < 0) scale.natAbs

def named? (text : List Char) : Option Float :=
  let name := String.ofList (text.map Char.toLower)
  if name = "inf" ∨ name = "infinity" then some (1.0 / 0.0)
  else if name = "nan" then some (0.0 / 0.0)
  else none

def read? (text : List Char) : Option Float :=
  let (negative, body) := splitSign text
  let size := (named? body).or (readMagnitude? body)
  if negative then size.map (- ·) else size

end RowSearch.Number
