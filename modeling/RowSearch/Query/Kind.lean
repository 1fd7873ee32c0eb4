import RowSearch.Config
import RowSearch.Query.Comparison
import RowSearch.Query.Function
/-!
# Kinds of tokens

The kinds in the order of their precedence. The order decides two things: a token that several kinds
claim is of the first of them, and among the operators of a sequence those of the earlier kind take
their operands first.
-/

namespace RowSearch.Query

/-! ### Quoted text and bare words -/

/-- The text between the quotes of a token that is one quoted span. -/
def unquote? (token : List Char) : Option (List Char) :=
  match token with
  | '"' :: rest =>
    match quoteLength? rest with
    | some n => if n + 1 = rest.length then some (rest.take n) else none
    | none => none
  | _ => none

/-- Whether blanks stand outside of all spans from a place in a text, of which the next `skip`
characters belong to a span or an escape. An opening mark that is never closed opens no span. -/
def hasTopBlankFrom : (skip : Nat) → List Char → Bool
  | _, [] => false
  | skip + 1, _ :: rest => hasTopBlankFrom skip rest
  | 0, c :: rest =>
    match Mark.ofChar c with
    | .escape => hasTopBlankFrom 1 rest
    | .quote => hasTopBlankFrom ((quoteLength? rest).elim 0 (· + 1)) rest
    | .opening => hasTopBlankFrom ((groupLength? rest).elim 0 (· + 1)) rest
    | .closing | .neutral => Text.isAsciiBlank c || hasTopBlankFrom 0 rest

def hasTopBlank (text : List Char) : Bool :=
  hasTopBlankFrom 0 text

/-! ### The kinds -/

/-- What a token, or a node of a tree, is. -/
inductive Kind where
  | root
  | empty
  | not
  | logic
  | comparison
  | call
  | quoted
  | word
deriving DecidableEq, Repr

namespace Kind

/-- All kinds, those that bind first in front. -/
def order : List Kind :=
  [root, empty, not, logic, comparison, call, quoted, word]

def priority (k : Kind) : Nat :=
  order.idxOf k

def name : Kind → String
  | root => "root"
  | empty => "empty"
  | not => "not"
  | logic => "logic"
  | comparison => "key-val"
  | call => "braces_function"
  | quoted => "quoted_text"
  | word => "text_or_column"

/-- Whether tokens of a kind take their neighbours for operands. -/
def nests : Kind → Bool
  | not | logic => true
  | _ => false

/-- Whether a kind claims a token. No token is a root: roots are made for whole queries only. -/
def claims (config : Config) (token : List Char) : Kind → Bool
  | root => false
  | empty => token.isEmpty
  | not => token = "NOT".toList
  | logic => (LogicOp.ofToken? token).isSome
  | comparison => (splitComparison? config.extendedOperators token).isSome
  | call => (splitCall? token).isSome
  | quoted => (unquote? token).isSome
  | word => !token.isEmpty && !hasTopBlank token

def ofToken (config : Config) (token : List Char) : Except QueryError Kind :=
  match order.find? (claims config token) with
  | some k => .ok k
  | none => .error (.noTypeFound (String.ofList token))

end Kind

end RowSearch.Query
