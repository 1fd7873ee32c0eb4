/-!
# The shortest decimal of a binary number

A positive double is `m · 2^e` with `m < 2^53` and `-1074 ≤ e`, and a decimal reads back as it when
it lies in the interval of reals that round to it. Both ends of that interval, and the double itself,
are whole numbers of `10^-1076`, so the search below is done in `Nat`: on ever finer decimal grids,
the first grid with a point in the interval has the fewest digits, and of two such points on it the
nearer one is taken, the larger one when they are equally near.
-/

namespace RowSearch.Number

/-- A decimal: a whole number of tenths, hundredths and so on; `coefficient · 10^-places`. -/
structure Decimal where
  coefficient : Nat
  places : Nat
deriving DecidableEq, Repr

/-- The reals that round to a double, in a unit that makes its ends whole. -/
structure Interval where
  low : Nat
  value : Nat
  high : Nat
  /-- Whether the two ends round to the double as well. -/
  closed : Bool
deriving DecidableEq, Repr

/-- Whether a number in the interval's unit rounds to its double. -/
def Interval.contains (i : Interval) (n : Nat) : Bool :=
  if i.closed then i.low ≤ n && n ≤ i.high else i.low < n && n < i.high

/-- The number of decimal places of the unit that measures intervals. -/
def unitPlaces : Nat := 1076

/-- The interval of `m · 2^e` in units of `10^-1076`. The ends lie half way to the neighbours, and
the lower neighbour of a power of two is only half as far away. They belong to the interval when
`m` is even, for a tie rounds to the even neighbour. -/
def Interval.ofBinary (m : Nat) (e : Int) : Interval :=
  let quarter := Nat.pow 2 (e + 1074).toNat * Nat.pow 5 unitPlaces
  let below := if m = Nat.pow 2 52 ∧ -1074 < e then 1 else 2
  { low := (4 * m - below) * quarter
    value := 4 * m * quarter
    high := (4 * m + 2) * quarter
    closed := m % 2 == 0 }

/-- The point of the grid of multiples of `step` that lies in the interval, as the multiple it is:
one of the two neighbours of the value, or none. -/
def Interval.gridPoint? (i : Interval) (step : Nat) : Option Nat :=
  let below := i.value / step
  let above := below + 1
  match i.contains (below * step), i.contains (above * step) with
  | true, true => some (if i.value - below * step < above * step - i.value then below else above)
  | true, false => some below
  | false, true => some above
  | false, false => none

/-- The point on the coarsest of the grids `10^k, …, 10, 1` that has one in the interval. -/
def Interval.coarsestPoint (i : Interval) : Nat → Decimal
  | 0 => ⟨i.value, unitPlaces⟩
  | k + 1 =>
    match i.gridPoint? (Nat.pow 10 (k + 1)) with
    | some n => ⟨n * Nat.pow 10 (k + 1 - unitPlaces), unitPlaces - (k + 1)⟩
    | none => i.coarsestPoint k

/-- The decimal with the fewest digits that reads back as `m · 2^e`. -/
def shortest (m : Nat) (e : Int) : Decimal :=
  let i := Interval.ofBinary m e
  i.coarsestPoint ((Nat.toDigits 10 i.value).length - 1)

end RowSearch.Number
