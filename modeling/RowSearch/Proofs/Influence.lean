import RowSearch.Search
/-!
# The columns that a query looks at

A column can make a difference to a tree only where the tree names it: alone as the key of a
comparison, or alone as an argument of `abs`. Everything else is text, which is compared with the
searchable text of a row or taken for a pattern. So two rows with the same searchable text that agree
on the named columns cannot be told apart, neither by their values nor by what they leave in a cache of
patterns. The proof follows the evaluator through the tree: the rows still agree on what each part
names, and where the evaluator looks a column up, the tree names it.
-/

namespace RowSearch.Query

namespace Node

/-! ### The nodes of a tree -/

def Has (tree node : Node) : Prop :=
  ∃ depth, (depth, node) ∈ tree.preorder

def children : Node → List Node
  | root terms => terms
  | not operand => [operand]
  | logic _ left right => [left, right]
  | comparison _ key value => [key, value]
  | call _ args => args
  | empty | quoted _ | word _ => []

mutual

/-- The nodes of a tree that starts one step further down are the same, each one step further down. -/
theorem preorderFrom_succ (depth : Nat) (tree : Node) :
    preorderFrom (depth + 1) tree =
      (preorderFrom depth tree).map fun entry => (entry.1 + 1, entry.2) := by
  match tree with
  | root terms | call _ terms =>
    simp only [preorderFrom, List.map_cons, preorderAll_succ (depth + 1) terms]
  | empty | quoted _ | word _ => rfl
  | not operand => simp only [preorderFrom, List.map_cons, preorderFrom_succ (depth + 1) operand]
  | logic _ x y | comparison _ x y =>
    simp only [preorderFrom, List.map_cons, List.map_append, preorderFrom_succ (depth + 1) x,
      preorderFrom_succ (depth + 1) y]

theorem preorderAll_succ (depth : Nat) (terms : List Node) :
    preorderAll (depth + 1) terms =
      (preorderAll depth terms).map fun entry => (entry.1 + 1, entry.2) := by
  match terms with
  | [] => rfl
  | first :: rest =>
    simp only [preorderAll, List.map_append, preorderFrom_succ depth first,
      preorderAll_succ depth rest]

end

theorem mem_preorderAll {depth : Nat} {terms : List Node} {entry : Nat × Node} :
    entry ∈ preorderAll depth terms ↔ ∃ term ∈ terms, entry ∈ preorderFrom depth term := by
  induction terms with
  | nil => simp [preorderAll]
  | cons first rest ih => simp [preorderAll, ih]

theorem has_self (tree : Node) : tree.Has tree := by
  refine ⟨0, ?_⟩
  cases tree <;> exact List.mem_cons_self

theorem Has.of_child {tree child node : Node} (hchild : child ∈ tree.children)
    (h : child.Has node) : tree.Has node := by
  obtain ⟨depth, hdepth⟩ := h
  have hbelow : (depth + 1, node) ∈ preorderFrom 1 child := by
    rw [preorderFrom_succ]
    exact List.mem_map.mpr ⟨(depth, node), hdepth, rfl⟩
  refine ⟨depth + 1, ?_⟩
  cases tree with
  | root terms | call _ terms =>
    exact List.mem_cons_of_mem _ (mem_preorderAll.mpr ⟨child, hchild, hbelow⟩)
  | not operand =>
    rw [List.mem_singleton.mp hchild] at hbelow
    exact List.mem_cons_of_mem _ hbelow
  | logic _ x y | comparison _ x y =>
    apply List.mem_cons_of_mem
    simp only [children, List.mem_cons, List.not_mem_nil, or_false] at hchild
    rcases hchild with rfl | rfl
    · exact List.mem_append_left _ hbelow
    · exact List.mem_append_right _ hbelow
  | empty | quoted _ | word _ => exact (List.not_mem_nil hchild).elim

/-- Every node of a tree is its top or lies below it. -/
theorem Has.eq_or_below {tree node : Node} (h : tree.Has node) :
    node = tree ∨ ∃ child ∈ tree.children, child.Has node := by
  have hbelow {child : Node} {depth : Nat} (hdepth : (depth, node) ∈ preorderFrom 1 child) :
      child.Has node := by
    rw [preorderFrom_succ] at hdepth
    obtain ⟨⟨depth', node'⟩, hmem, heq⟩ := List.mem_map.mp hdepth
    cases heq
    exact ⟨depth', hmem⟩
  obtain ⟨depth, hdepth⟩ := h
  cases tree with
  | root terms | call _ terms =>
    rcases List.mem_cons.mp hdepth with heq | hrest
    · exact .inl (Prod.mk.inj heq).2
    · obtain ⟨child, hchild, hmem⟩ := mem_preorderAll.mp hrest
      exact .inr ⟨child, hchild, hbelow hmem⟩
  | not operand =>
    rcases List.mem_cons.mp hdepth with heq | hrest
    · exact .inl (Prod.mk.inj heq).2
    · exact .inr ⟨operand, List.mem_singleton_self _, hbelow hrest⟩
  | logic _ x y | comparison _ x y =>
    rcases List.mem_cons.mp hdepth with heq | hrest
    · exact .inl (Prod.mk.inj heq).2
    · rcases List.mem_append.mp hrest with hx | hy
      · exact .inr ⟨x, List.mem_cons_self, hbelow hx⟩
      · exact .inr ⟨y, List.mem_cons_of_mem _ List.mem_cons_self, hbelow hy⟩
  | empty | quoted _ | word _ => exact .inl (Prod.mk.inj (List.mem_singleton.mp hdepth)).2

/-! ### Names -/

/-- A tree names a column: as the key of one of its comparisons or as an argument of one of its calls
of `abs`. -/
def Names (tree : Node) (name : String) : Prop :=
  (∃ op key value, tree.Has (comparison op key value) ∧ key.singleText? = some name) ∨
    ∃ args arg, tree.Has (call .abs args) ∧ arg ∈ args ∧ arg.singleText? = some name

theorem Names.of_child {tree child : Node} {name : String} (hchild : child ∈ tree.children)
    (h : child.Names name) : tree.Names name := by
  rcases h with ⟨op, key, value, hhas, hkey⟩ | ⟨args, arg, hhas, harg⟩
  · exact .inl ⟨op, key, value, hhas.of_child hchild, hkey⟩
  · exact .inr ⟨args, arg, hhas.of_child hchild, harg⟩

/-- Two rows that a tree cannot tell apart: they have the same searchable text and agree on the columns
that the tree names. -/
structure Alike (tree : Node) (row row' : Row) : Prop where
  raw : row.raw = row'.raw
  named : ∀ name, tree.Names name → row.get? name = row'.get? name

theorem Alike.child {tree child : Node} {row row' : Row} (h : tree.Alike row row')
    (hchild : child ∈ tree.children) : child.Alike row row' :=
  ⟨h.raw, fun name hname => h.named name (hname.of_child hchild)⟩

end Node

/-! ### Two runs -/

section Runs

open Node

variable {m : Type → Type} [Monad m] {matcher : Matcher m} {config : Config} {row row' : Row}

theorem truthy_congr (hraw : row.raw = row'.raw) (value : Value) :
    truthy matcher config row value = truthy matcher config row' value := by
  cases value with
  | bool b => rfl
  | number x => rfl
  | text pattern => rw [truthy, truthy, hraw]

theorem column?_congr {node : Node}
    (h : ∀ name, node.singleText? = some name → row.get? name = row'.get? name) :
    column? row node = column? row' node := by
  rw [column?, column?]
  cases hname : node.singleText? with
  | none => rfl
  | some name => exact h name hname

theorem Node.Alike.column?_key {op : CompareOp} {key value : Node}
    (h : (comparison op key value).Alike row row') : column? row key = column? row' key :=
  column?_congr fun name hname => h.named name (.inl ⟨op, key, value, has_self _, hname⟩)

theorem Node.Alike.column?_arg {args : List Node} (h : (call .abs args).Alike row row') :
    ∀ arg ∈ args, column? row arg = column? row' arg :=
  fun arg harg => column?_congr fun name hname =>
    h.named name (.inr ⟨args, arg, has_self _, harg, hname⟩)

namespace Node

mutual

theorem eval_congr (tree : Node) (h : tree.Alike row row') :
    tree.eval matcher config row = tree.eval matcher config row' := by
  match tree with
  | root [only] =>
    simp only [eval]
    exact eval_congr only (h.child List.mem_cons_self)
  | root [] => simp only [eval, allTrue]
  | root (first :: second :: rest) =>
    simp only [eval, allTrue_congr (first :: second :: rest) fun term hterm => h.child hterm]
  | empty | quoted _ | word _ => simp only [eval]
  | not operand =>
    simp only [eval, eval_congr operand (h.child List.mem_cons_self), truthy_congr h.raw]
  | logic .and left right =>
    have hright : right ∈ (logic .and left right).children := by simp [children]
    simp only [eval, eval_congr left (h.child List.mem_cons_self), eval_congr right (h.child hright),
      truthy_congr h.raw]
  | logic .or left right =>
    have hright : right ∈ (logic .or left right).children := by simp [children]
    simp only [eval, eval_congr left (h.child List.mem_cons_self), eval_congr right (h.child hright),
      truthy_congr h.raw]
  | comparison op key value =>
    have hvalue : value ∈ (comparison op key value).children := by simp [children]
    simp only [eval, eval_congr key (h.child List.mem_cons_self), eval_congr value (h.child hvalue),
      h.column?_key]
  | call .abs args =>
    simp only [eval, evalAll_congr _ args (fun arg harg => h.child harg) fun _ => h.column?_arg]
  | call .group args =>
    have hcolumns : Function.group.columnArgs = true → ∀ arg ∈ args,
        column? row arg = column? row' arg := fun hgroup => nomatch hgroup
    simp only [eval, evalAll_congr _ args (fun arg harg => h.child harg) hcolumns]

theorem allTrue_congr (terms : List Node) (h : ∀ term ∈ terms, term.Alike row row') :
    allTrue matcher config row terms = allTrue matcher config row' terms := by
  match terms with
  | [] => simp only [allTrue]
  | first :: rest =>
    obtain ⟨hfirst, hrest⟩ := List.forall_mem_cons.mp h
    simp only [allTrue, eval_congr first hfirst, truthy_congr hfirst.raw, allTrue_congr rest hrest]

theorem evalAll_congr (columns : Bool) (args : List Node) (h : ∀ arg ∈ args, arg.Alike row row')
    (hcolumns : columns = true → ∀ arg ∈ args, column? row arg = column? row' arg) :
    evalAll matcher config row columns args = evalAll matcher config row' columns args := by
  match args with
  | [] => simp only [evalAll]
  | first :: rest =>
    obtain ⟨hfirst, hrest⟩ := List.forall_mem_cons.mp h
    have htail := evalAll_congr columns rest hrest fun hc arg harg =>
      hcolumns hc arg (List.mem_cons_of_mem _ harg)
    have hcolumn : (if columns then column? row first else none) =
        if columns then column? row' first else none := by
      split
      · next hc => exact hcolumns hc first List.mem_cons_self
      · rfl
    simp only [evalAll, eval_congr first hfirst, htail, hcolumn]

end

end Node

end Runs

theorem Search.test_congr {search : Search} {row row' : Row} (hfields : search.fields = [])
    (h : search.root.Alike row row') (engine : Wildcard.Engine) :
    search.test row engine = search.test row' engine := by
  have hmissing (row : Row) : search.missing? row = none := by
    rw [Search.missing?, hfields]
    rfl
  simp only [Search.test, Search.testBy, hmissing, Node.holds, Node.eval_congr search.root h,
    truthy_congr h.raw]

/-! ### Texts -/

section Texts

variable {m : Type → Type} [Monad m] {matcher : Matcher m} {config : Config} {row : Row}

theorem eval_of_singleText? {node : Node} {text : String} (h : node.singleText? = some text) :
    node.eval matcher config row = pure (.text text) := by
  fun_induction Node.singleText? node with
  | case1 only ih =>
    rw [Node.eval]
    exact ih h
  | case2 quoted =>
    cases h
    rw [Node.eval]
  | case3 word =>
    cases h
    rw [Node.eval]
  | case4 => cases h

variable [LawfulMonad m]

theorem eval_comparison_of_singleText? {value : Node} {text : String}
    (h : value.singleText? = some text) (op : CompareOp) (key : Node) :
    (Node.comparison op key value).eval matcher config row = do
      return .bool (← compareBy matcher config op (← key.operand matcher config row) (.text text)) := by
  simp only [Node.eval, Node.operand, eval_of_singleText? h, pure_bind]
  cases column? row key with
  | none => rfl
  | some left => rw [pure_bind]

theorem eval_group_of_singleText? {arg : Node} {text : String} (h : arg.singleText? = some text) :
    (Node.call .group [arg]).eval matcher config row = pure (.text text) := by
  simp only [Node.eval, Node.evalAll, Function.columnArgs, Bool.false_eq_true, if_false,
    eval_of_singleText? h, pure_bind]
  rfl

end Texts

/-- Two rows with the same searchable text that agree on the columns which a tree names have the same
value, by every way of matching patterns, and are the same to a test without declared fields. So the
searchable text is all that counts for a tree without comparisons and calls of `abs`. A text is never
taken for a column as the right side of a comparison, nor inside of a group, even if the group is the
key of a comparison. -/
theorem eval_eq_of_names {m : Type → Type} [Monad m] [LawfulMonad m] (matcher : Matcher m)
    (config : Config) (tree : Node) (row row' : Row) (hraw : row.raw = row'.raw) :
    ((∀ name, tree.Names name → row.get? name = row'.get? name) →
      tree.eval matcher config row = tree.eval matcher config row' ∧
      ∀ search : Search, search.root = tree → search.fields = [] →
        ∀ engine, search.test row engine = search.test row' engine) ∧
    ((∀ op key value, ¬tree.Has (.comparison op key value)) →
      (∀ args, ¬tree.Has (.call .abs args)) →
      tree.eval matcher config row = tree.eval matcher config row') ∧
    (∀ op key value text, value.singleText? = some text →
      (Node.comparison op key value).eval matcher config row = do
        return .bool
          (← compareBy matcher config op (← key.operand matcher config row) (.text text))) ∧
    ∀ arg text, arg.singleText? = some text →
      (Node.call .group [arg]).eval matcher config row = pure (.text text) ∧
      (Node.root [.call .group [arg]]).operand matcher config row = pure (.text text) := by
  refine ⟨fun hnamed => ⟨?_, ?_⟩, fun hcomparison habs => ?_, ?_, ?_⟩
  · exact Node.eval_congr tree ⟨hraw, hnamed⟩
  · rintro search rfl hfields
    exact Search.test_congr hfields ⟨hraw, hnamed⟩
  · refine Node.eval_congr tree ⟨hraw, fun name hname => ?_⟩
    rcases hname with ⟨op, key, value, hhas, -⟩ | ⟨args, arg, hhas, -⟩
    · exact absurd hhas (hcomparison op key value)
    · exact absurd hhas (habs args)
  · exact fun op key value text h => eval_comparison_of_singleText? h op key
  · intro arg text h
    refine ⟨eval_group_of_singleText? h, ?_⟩
    change (Node.root [.call .group [arg]]).eval matcher config row = _
    rw [Node.eval, eval_group_of_singleText? h]

theorem eval_of_unnamed_columns :
    let tree : Node := .root [.logic .and (.comparison .eq (.root [.word "a"]) (.root [.word "b"]))
      (.call .group [.root [.word "c"]]), .call .abs [.root [.word "d"]]]
    let row := Row.ofList [("_raw", .text "c"), ("a", .text "b"), ("b", .text "z"), ("d", .text "-1")]
    let row' := Row.ofList [("_raw", .text "c"), ("a", .text "b"), ("c", .bool false), ("d", .text "-1")]
    (build .standard "a=b AND (c) abs(d)".toList).toOption = some tree ∧ row ≠ row' ∧
      tree.eval plainMatcher .standard row = tree.eval plainMatcher .standard row' ∧
      (Search.mk "a=b AND (c) abs(d)" [] .standard tree).test row =
        (Search.mk "a=b AND (c) abs(d)" [] .standard tree).test row' ∧
      (Node.word "c").eval plainMatcher .standard row =
        (Node.word "c").eval plainMatcher .standard row' ∧
      (Node.call .group [.root [.word "c"]]).eval plainMatcher .standard row' = .text "c" := by
  intro tree row row'
  have hraw : row.raw = row'.raw := by decide +kernel
  have hnamed : ∀ name, tree.Names name → row.get? name = row'.get? name := by
    intro name hname
    have h : name = "a" ∨ name = "d" := by
      rcases hname with ⟨op, key, value, ⟨depth, hmem⟩, hkey⟩ | ⟨args, arg, ⟨depth, hmem⟩, harg, hkey⟩
      all_goals simp [tree, Node.preorder, Node.preorderFrom, Node.preorderAll] at hmem
      · obtain ⟨-, -, rfl, -⟩ := hmem
        exact .inl (Option.some.inj hkey).symm
      · obtain ⟨-, rfl⟩ := hmem
        obtain rfl := List.mem_singleton.mp harg
        exact .inr (Option.some.inj hkey).symm
    rcases h with rfl | rfl <;> decide +kernel
  have htree := eval_eq_of_names plainMatcher .standard tree row row' hraw
  refine ⟨by decide +kernel, by decide +kernel, (htree.1 hnamed).1, (htree.1 hnamed).2 _ rfl rfl _, ?_, ?_⟩
  · refine (eval_eq_of_names plainMatcher .standard (.word "c") row row' hraw).2.1 ?_ ?_
    · rintro op key value ⟨depth, hmem⟩
      simp [Node.preorder, Node.preorderFrom] at hmem
    · rintro args ⟨depth, hmem⟩
      simp [Node.preorder, Node.preorderFrom] at hmem
  · exact ((eval_eq_of_names plainMatcher .standard tree row' row' rfl).2.2.2 (.root [.word "c"]) "c" rfl).1

end RowSearch.Query
