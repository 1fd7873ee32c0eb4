import RowSearch.Query.Node
/-!
# Folding operators

A query is first a flat sequence of finished terms and operators. Folding gives each operator its
operands: every `NOT` takes the term behind it, the last `NOT` of a run first; then every `AND` and
`OR`, from left to right and without a difference in precedence, takes the terms on both of its sides.
What is left is the sequence of terms that all have to match. Each new node adds to the height of
what it holds, and the tree may not grow taller than its limit.
-/

namespace RowSearch.Query

/-- A finished term with its height in nodes. -/
structure Built where
  node : Node
  height : Nat
deriving DecidableEq, Inhabited

def Built.within (limit : Nat) (node : Node) (height : Nat) : Except QueryError Built :=
  if height ≤ limit then .ok ⟨node, height⟩ else .error (.tooDeep limit)

def Built.not (limit : Nat) (operand : Built) : Except QueryError Built :=
  within limit (.not operand.node) (operand.height + 1)

def Built.logic (limit : Nat) (op : LogicOp) (left right : Built) : Except QueryError Built :=
  within limit (.logic op left.node right.node) (max left.height right.height + 1)

def tallest (terms : List Built) : Nat :=
  terms.foldl (fun height term => max height term.height) 0

/-- A connective, or a term that could be an operand. -/
inductive Link where
  | logic (op : LogicOp)
  | term (term : Built)
deriving DecidableEq

/-- A token of the flat sequence: an operator that waits for its operands, or a finished term. -/
inductive Pending where
  | not
  | link (link : Link)
deriving DecidableEq

abbrev Pending.term (term : Built) : Pending := .link (.term term)

abbrev Pending.logic (op : LogicOp) : Pending := .link (.logic op)

/-! ### Negations -/

/-- Refuses the first `NOT` that stands at the end or in front of a connective. -/
def checkNots : List Pending → Except QueryError Unit
  | [] => .ok ()
  | [.not] => .error .notAtEnd
  | .not :: .link (.logic _) :: _ => .error (.missingOperand "NOT")
  | _ :: rest => checkNots rest

/-- Gives every `NOT` its operand, the last one first. -/
def foldNots (limit : Nat) : List Pending → Except QueryError (List Link)
  | [] => .ok []
  | .link link :: rest => (foldNots limit rest).map (link :: ·)
  | .not :: rest => do
    match ← foldNots limit rest with
    | .term operand :: links => return .term (← operand.not limit) :: links
    | _ => throw .notAtEnd

/-! ### Connectives -/

/-- Gives every connective its operands, from left to right; `done` holds the terms so far, the last
one in front. -/
def foldLinks (limit : Nat) : (done : List Built) → List Link → Except QueryError (List Built)
  | done, [] => .ok done.reverse
  | done, .term term :: rest => foldLinks limit (term :: done) rest
  | left :: done, .logic op :: .term right :: rest => do
    foldLinks limit ((← left.logic limit op right) :: done) rest
  | _, .logic op :: _ => .error (.missingOperand op.keyword)

def fold (limit : Nat) (items : List Pending) : Except QueryError (List Built) := do
  checkNots items
  foldLinks limit [] (← foldNots limit items)

end RowSearch.Query
