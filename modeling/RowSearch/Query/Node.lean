import RowSearch.Query.Kind
/-!
# Search trees

The tree of a compiled query. A root holds a sequence of terms, all of which have to match; it is the
top of the tree and of each side of a comparison and each argument of a call, which are queries of
their own.
-/

namespace RowSearch.Query

inductive Node where
  | root (terms : List Node)
  | empty
  | not (operand : Node)
  | logic (op : LogicOp) (left right : Node)
  | comparison (op : CompareOp) (key value : Node)
  | call (function : Function) (args : List Node)
  /-- The text between a pair of quotes, its escapes as they were written. -/
  | quoted (text : String)
  /-- A bare word. -/
  | word (text : String)
deriving Inhabited

namespace Node

def kind : Node → Kind
  | root _ => .root
  | empty => .empty
  | not _ => .not
  | logic .. => .logic
  | comparison .. => .comparison
  | call .. => .call
  | quoted _ => .quoted
  | word _ => .word

/-- The text of a word or a quoted text, also of one that is alone in a root. -/
def singleText? : Node → Option String
  | root [only] => only.singleText?
  | quoted text => some text
  | word text => some text
  | _ => none

/-! ### Equality -/

mutual

def same : Node → Node → Bool
  | root xs, root ys => sameAll xs ys
  | empty, empty => true
  | not x, not y => same x y
  | logic o x x', logic p y y' => o = p && same x y && same x' y'
  | comparison o x x', comparison p y y' => o = p && same x y && same x' y'
  | call f xs, call g ys => f = g && sameAll xs ys
  | quoted s, quoted t => s = t
  | word s, word t => s = t
  | _, _ => false

def sameAll : List Node → List Node → Bool
  | [], [] => true
  | x :: xs, y :: ys => same x y && sameAll xs ys
  | _, _ => false

end

mutual

theorem same_iff (a b : Node) : same a b = true ↔ a = b := by
  cases a with
  | root xs =>
    have ih := sameAll_iff xs
    cases b <;> simp [same, ih]
  | empty => cases b <;> simp [same]
  | not x =>
    have ih := same_iff x
    cases b <;> simp [same, ih]
  | logic o x x' =>
    have ih := same_iff x
    have ih' := same_iff x'
    cases b <;> simp [same, ih, ih', and_assoc]
  | comparison o x x' =>
    have ih := same_iff x
    have ih' := same_iff x'
    cases b <;> simp [same, ih, ih', and_assoc]
  | call f xs =>
    have ih := sameAll_iff xs
    cases b <;> simp [same, ih]
  | quoted s => cases b <;> simp [same]
  | word s => cases b <;> simp [same]

theorem sameAll_iff (as bs : List Node) : sameAll as bs = true ↔ as = bs := by
  cases as with
  | nil => cases bs <;> simp [sameAll]
  | cons x xs =>
    have ih := same_iff x
    have ih' := sameAll_iff xs
    cases bs <;> simp [sameAll, ih, ih']

end

instance : DecidableEq Node := fun a b => decidable_of_iff _ (same_iff a b)

/-! ### Printing -/

mutual

/-- The text form of a tree. Equality, the oldest comparison, is the one that is not named. -/
def print : Node → String
  | root terms => "root([" ++ printAll terms ++ "])"
  | empty => "empty()"
  | not operand => "not(" ++ operand.print ++ ")"
  | logic op left right =>
    "logic(" ++ op.keyword ++ ", [" ++ left.print ++ ", " ++ right.print ++ "])"
  | comparison .eq key value => "key-val(" ++ key.print ++ ", " ++ value.print ++ ")"
  | comparison op key value =>
    "key-val(" ++ op.symbol ++ ", " ++ key.print ++ ", " ++ value.print ++ ")"
  | call function args => "braces_function(" ++ function.name ++ ", [" ++ printAll args ++ "])"
  | quoted text => "quoted_text(\"" ++ text ++ "\")"
  | word text => "text_or_column(\"" ++ text ++ "\")"

def printAll : List Node → String
  | [] => ""
  | [only] => only.print
  | first :: rest => first.print ++ ", " ++ printAll rest

end

/-! ### The nodes of a tree -/

/-- What distinguishes a node among those of its kind: an operator, a function or a text. -/
def label? : Node → Option String
  | logic op _ _ => some op.keyword
  | comparison op _ _ => some op.symbol
  | call function _ => some function.name
  | quoted text => some text
  | word text => some text
  | root _ | empty | not _ => none

mutual

/-- A node and all below it, each after the one that holds it and with its distance from the top,
which is `depth` for the node itself. -/
def preorderFrom (depth : Nat) : Node → List (Nat × Node)
  | root terms => (depth, root terms) :: preorderAll (depth + 1) terms
  | empty => [(depth, empty)]
  | not operand => (depth, not operand) :: preorderFrom (depth + 1) operand
  | logic op left right =>
    (depth, logic op left right)
      :: (preorderFrom (depth + 1) left ++ preorderFrom (depth + 1) right)
  | comparison op key value =>
    (depth, comparison op key value)
      :: (preorderFrom (depth + 1) key ++ preorderFrom (depth + 1) value)
  | call function args => (depth, call function args) :: preorderAll (depth + 1) args
  | quoted text => [(depth, quoted text)]
  | word text => [(depth, word text)]

def preorderAll (depth : Nat) : List Node → List (Nat × Node)
  | [] => []
  | first :: rest => preorderFrom depth first ++ preorderAll depth rest

end

def preorder (tree : Node) : List (Nat × Node) :=
  preorderFrom 0 tree

end Node

end RowSearch.Query
