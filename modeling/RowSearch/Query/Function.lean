import RowSearch.Query.Error
import RowSearch.Query.Zone
import RowSearch.Value
/-!
# Functions

What stands in front of a parenthesis names a function. There are two: `abs`, and plain grouping,
whose name is empty. They differ in what a bare word among the arguments means: to `abs` it is the
column of that name, in a group it is a text to search for, as anywhere else.
-/

namespace RowSearch.Query

inductive Function where
  | abs
  | group
deriving DecidableEq, Repr

namespace Function

/-- What is written in front of the parenthesis. -/
def key : Function → String
  | abs => "abs"
  | group => ""

def name : Function → String
  | abs => "abs"
  | group => "group"

def arity : Function → Nat
  | abs | group => 1

/-- Whether a bare word among the arguments stands for the column of that name. -/
def columnArgs : Function → Bool
  | abs => true
  | group => false

def ofKey? (key : List Char) : Option Function :=
  [abs, group].find? fun f => f.key.toList = key

def checkArity (f : Function) (count : Nat) : Except QueryError Unit :=
  if count = f.arity then .ok () else .error (.invalidArguments f.name)

/-- The value of a function at its arguments. The absolute value of what is no number, and of a wrong
number of arguments, is the number that is none; a group of the wrong size is the empty text. -/
def apply : Function → List Value → Value
  | abs, [x] => .number ((x.asNumber.map Float.abs).getD (0.0 / 0.0))
  | abs, _ => .number (0.0 / 0.0)
  | group, [x] => x
  | group, _ => .text ""

end Function

/-- The function and the text of the arguments, for a token that is one call. The parenthesis behind
the key must be closed by the last character, so `(a)AND(b)` is not a call. -/
def splitCall? (token : List Char) : Option (Function × List Char) :=
  match token.dropWhile (· ≠ '(') with
  | [] => none
  | _ :: inner =>
    match Function.ofKey? (token.takeWhile (· ≠ '(')), groupLength? inner with
    | some f, some n => if n + 1 = inner.length then some (f, inner.take n) else none
    | _, _ => none

end RowSearch.Query
