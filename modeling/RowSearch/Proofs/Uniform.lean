import RowSearch.Search
/-!
# Two ways of matching patterns

Evaluating a tree and testing a row are written for any way of matching patterns, and all they do with
it is to ask. So whatever relates the answers of two such ways relates the results of two evaluations,
provided that the relation goes along with putting computations together.
-/

namespace RowSearch

open Query

variable {m n : Type → Type} [Monad m] [Monad n]

/-- A relation between computations that goes along with putting them together. -/
structure Congruent (R : (α : Type) → m α → n α → Prop) : Prop where
  pure {α : Type} (a : α) : R α (Pure.pure a) (Pure.pure a)
  bind {α β : Type} {x : m α} {y : n α} {f : α → m β} {g : α → n β} :
    R α x y → (∀ a, R β (f a) (g a)) → R β (x >>= f) (y >>= g)

/-- Two ways of matching give related answers. -/
def Answers (R : (α : Type) → m α → n α → Prop) (matcher : Matcher m) (matcher' : Matcher n) : Prop :=
  ∀ pattern anchoring text, R Bool (matcher pattern anchoring text) (matcher' pattern anchoring text)

namespace Congruent

variable {R : (α : Type) → m α → n α → Prop} {matcher : Matcher m} {matcher' : Matcher n}
  {config : Config} {row : Row}

theorem compareBy (hR : Congruent R) (h : Answers R matcher matcher') (op : CompareOp)
    (left right : Value) :
    R Bool (Query.compareBy matcher config op left right)
      (Query.compareBy matcher' config op left right) := by
  cases op with
  | eq => exact h _ _ _
  | ne => exact hR.bind (h _ _ _) fun _ => hR.pure _
  | lt | gt | le | ge => exact hR.pure _

theorem truthy (hR : Congruent R) (h : Answers R matcher matcher') (value : Value) :
    R Bool (Query.truthy matcher config row value) (Query.truthy matcher' config row value) := by
  cases value with
  | bool b => exact hR.pure _
  | number x => exact hR.pure _
  | text pattern => exact h _ _ _

mutual

theorem eval (hR : Congruent R) (h : Answers R matcher matcher') (node : Node) :
    R Value (node.eval matcher config row) (node.eval matcher' config row) := by
  match node with
  | .root [only] =>
    simp only [Node.eval]
    exact eval hR h only
  | .root [] =>
    simp only [Node.eval]
    exact hR.bind (allTrue hR h []) fun _ => hR.pure _
  | .root (first :: second :: rest) =>
    simp only [Node.eval]
    exact hR.bind (allTrue hR h (first :: second :: rest)) fun _ => hR.pure _
  | .empty | .quoted _ | .word _ =>
    simp only [Node.eval]
    exact hR.pure _
  | .not operand =>
    simp only [Node.eval]
    exact hR.bind (eval hR h operand) fun value => hR.bind (hR.truthy h value) fun _ => hR.pure _
  | .logic .and left right =>
    simp only [Node.eval]
    refine hR.bind (eval hR h left) fun value => hR.bind (hR.truthy h value) fun found => ?_
    cases found with
    | false => exact hR.pure _
    | true =>
      exact hR.bind (eval hR h right) fun value => hR.bind (hR.truthy h value) fun _ => hR.pure _
  | .logic .or left right =>
    simp only [Node.eval]
    refine hR.bind (eval hR h left) fun value => hR.bind (hR.truthy h value) fun found => ?_
    cases found with
    | false =>
      exact hR.bind (eval hR h right) fun value => hR.bind (hR.truthy h value) fun _ => hR.pure _
    | true => exact hR.pure _
  | .comparison op key value =>
    simp only [Node.eval]
    have hcompare (left right : Value) :
        R Value (do return .bool (← Query.compareBy matcher config op left right))
          (do return .bool (← Query.compareBy matcher' config op left right)) :=
      hR.bind (hR.compareBy h op left right) fun _ => hR.pure _
    have hrest (left : Value) := hR.bind (eval hR h value) (hcompare left)
    cases column? row key with
    | none => exact hR.bind (eval hR h key) hrest
    | some found => exact hR.bind (hR.pure found) hrest
  | .call f args =>
    simp only [Node.eval]
    exact hR.bind (evalAll hR h f.columnArgs args) fun _ => hR.pure _

theorem allTrue (hR : Congruent R) (h : Answers R matcher matcher') (terms : List Node) :
    R Bool (Node.allTrue matcher config row terms) (Node.allTrue matcher' config row terms) := by
  match terms with
  | [] =>
    simp only [Node.allTrue]
    exact hR.pure _
  | first :: rest =>
    simp only [Node.allTrue]
    refine hR.bind (eval hR h first) fun value => hR.bind (hR.truthy h value) fun found => ?_
    cases found with
    | false => exact hR.pure _
    | true => exact allTrue hR h rest

theorem evalAll (hR : Congruent R) (h : Answers R matcher matcher') (columns : Bool)
    (args : List Node) :
    R (List Value) (Node.evalAll matcher config row columns args)
      (Node.evalAll matcher' config row columns args) := by
  match args with
  | [] =>
    simp only [Node.evalAll]
    exact hR.pure _
  | first :: rest =>
    simp only [Node.evalAll]
    have hrest (value : Value) := hR.bind (evalAll hR h columns rest) fun values =>
      hR.pure (value :: values)
    cases if columns = true then column? row first else none with
    | none => exact hR.bind (eval hR h first) hrest
    | some found => exact hR.bind (hR.pure found) hrest

end

theorem holds (hR : Congruent R) (h : Answers R matcher matcher') (node : Node) :
    R Bool (node.holds matcher config row) (node.holds matcher' config row) :=
  hR.bind (hR.eval h node) fun value => hR.truthy h value

theorem testBy (hR : Congruent R) (h : Answers R matcher matcher') (search : Search) :
    R (Except QueryError Bool) (search.testBy matcher row) (search.testBy matcher' row) := by
  rw [Search.testBy, Search.testBy]
  cases search.missing? row with
  | some field => exact hR.pure _
  | none => exact hR.bind (hR.holds h search.root) fun _ => hR.pure _

end Congruent

end RowSearch
