import RowSearch.Query.Fold
/-!
# Measures of trees

The two measures that the settings bound: the height of a tree in nodes, and how many roots lie one
within another. A finished term carries the height of its node, so that the height of a whole tree
need not be computed again; `Built.of` is a term that carries it.
-/

namespace RowSearch.Query

namespace Node

mutual

/-- The number of nodes on the longest path down a tree. -/
def height : Node → Nat
  | root terms => heightAll terms + 1
  | empty => 1
  | not operand => operand.height + 1
  | logic _ left right => max left.height right.height + 1
  | comparison _ key value => max key.height value.height + 1
  | call _ args => heightAll args + 1
  | quoted _ | word _ => 1

def heightAll : List Node → Nat
  | [] => 0
  | first :: rest => max first.height (heightAll rest)

end

mutual

/-- The largest number of roots on a path down a tree. -/
def roots : Node → Nat
  | root terms => rootsAll terms + 1
  | empty => 0
  | not operand => operand.roots
  | logic _ left right => max left.roots right.roots
  | comparison _ key value => max key.roots value.roots
  | call _ args => rootsAll args
  | quoted _ | word _ => 0

def rootsAll : List Node → Nat
  | [] => 0
  | first :: rest => max first.roots (rootsAll rest)

end

theorem heightAll_append (xs ys : List Node) :
    heightAll (xs ++ ys) = max (heightAll xs) (heightAll ys) := by
  induction xs with
  | nil => rw [List.nil_append, heightAll, Nat.zero_max]
  | cons first rest ih => rw [List.cons_append, heightAll, heightAll, ih, Nat.max_assoc]

theorem rootsAll_append (xs ys : List Node) :
    rootsAll (xs ++ ys) = max (rootsAll xs) (rootsAll ys) := by
  induction xs with
  | nil => rw [List.nil_append, rootsAll, Nat.zero_max]
  | cons first rest ih => rw [List.cons_append, rootsAll, rootsAll, ih, Nat.max_assoc]

theorem rootsAll_le_iff {terms : List Node} {n : Nat} :
    rootsAll terms ≤ n ↔ ∀ term ∈ terms, term.roots ≤ n := by
  induction terms with
  | nil => simp [rootsAll]
  | cons first rest ih => rw [rootsAll, Nat.max_le, ih, List.forall_mem_cons]

theorem heightAll_singleton (node : Node) : heightAll [node] = node.height :=
  Nat.max_eq_left (Nat.zero_le _)

theorem rootsAll_singleton (node : Node) : rootsAll [node] = node.roots :=
  Nat.max_eq_left (Nat.zero_le _)

end Node

/-! ### Finished terms -/

def Built.of (node : Node) : Built :=
  ⟨node, node.height⟩

theorem tallest_cons (first : Built) (rest : List Built) :
    tallest (first :: rest) = max first.height (tallest rest) := by
  have hfold (terms : List Built) (start : Nat) :
      terms.foldl (fun height term => max height term.height) start = max start (tallest terms) := by
    induction terms generalizing start with
    | nil => exact (Nat.max_zero start).symm
    | cons term terms ih =>
      have hterm : tallest (term :: terms) = max (max 0 term.height) (tallest terms) := ih _
      rw [List.foldl_cons, ih, hterm, Nat.zero_max, Nat.max_assoc]
  have hfirst : tallest (first :: rest) = max (max 0 first.height) (tallest rest) := hfold rest _
  rw [hfirst, Nat.zero_max]

theorem tallest_le_iff {terms : List Built} {n : Nat} :
    tallest terms ≤ n ↔ ∀ term ∈ terms, term.height ≤ n := by
  induction terms with
  | nil => simp [tallest]
  | cons first rest ih => rw [tallest_cons, Nat.max_le, ih, List.forall_mem_cons]

theorem tallest_append (terms more : List Built) :
    tallest (terms ++ more) = max (tallest terms) (tallest more) := by
  induction terms with
  | nil => exact (Nat.zero_max _).symm
  | cons first rest ih => rw [List.cons_append, tallest_cons, tallest_cons, ih, Nat.max_assoc]

/-- Terms that carry the heights of their nodes are as tall as the nodes are. -/
theorem tallest_eq {terms : List Built} (h : ∀ term ∈ terms, term.height = term.node.height) :
    tallest terms = Node.heightAll (terms.map (·.node)) := by
  induction terms with
  | nil => rfl
  | cons first rest ih =>
    obtain ⟨hfirst, hrest⟩ := List.forall_mem_cons.mp h
    rw [tallest_cons, ih hrest, hfirst, List.map_cons, Node.heightAll]

theorem map_node_map_of (nodes : List Node) : (nodes.map Built.of).map (·.node) = nodes := by
  rw [List.map_map]
  exact List.map_id nodes

theorem tallest_map (nodes : List Node) :
    tallest (nodes.map Built.of) = Node.heightAll nodes := by
  rw [tallest_eq (List.forall_mem_map.mpr fun _ _ => rfl), map_node_map_of]

end RowSearch.Query
