import RowSearch.Proofs.Formed
/-!
# Reading a printed tree

A printed tree can be read back, so no two trees look alike. `Node.read?` goes through the text once and
never looks back: the name of a kind says what stands between the parentheses, and what is there says
by its first characters how it goes on. Only texts are printed as they are, so the reader has to know
where they end. A quoted text ends where the scanner of queries says it does, at the first quote that is
not escaped, whatever else is in it. A word ends at the next quote, so it must not hold one.
-/

namespace RowSearch.Query

/-- A reader takes a value off the front of a text. -/
abbrev Reader (α : Type) := StateT (List Char) Option α

/-! ### The reader -/

def Kind.ofName? (name : List Char) : Option Kind :=
  order.find? fun k => k.name.toList = name

def Function.ofName? (name : List Char) : Option Function :=
  [abs, group].find? fun f => f.name.toList = name

namespace Reader

def expect (text : String) : Reader Unit := fun input =>
  if text.toList.isPrefixOf input then some ((), input.drop text.toList.length) else none

def next : Reader Char
  | [] => none
  | c :: rest => some (c, rest)

/-- Takes the text in front of a character, and the character. -/
def upTo (stop : Char) : Reader (List Char) := fun input =>
  match input.dropWhile (· ≠ stop) with
  | [] => none
  | _ :: rest => some (input.takeWhile (· ≠ stop), rest)

def quoteBody : Reader (List Char) := fun input =>
  (quoteLength? input).map fun n => (input.take n, input.drop (n + 1))

/-- Takes the symbol of a comparison and the comma behind it. -/
def namedOp : Reader CompareOp := do
  let op ← CompareOp.ofSymbol? (← upTo ',')
  expect " "
  return op

/-- Takes the symbol of a comparison, if one stands in front of the key. -/
def compareOp : Reader CompareOp := fun input =>
  if input.head?.any Char.isAlpha then some (.eq, input) else namedOp.run input

/-- Takes at least one tree and at most a given number, with commas between them, and the bracket that
ends them. -/
def terms (tree : Reader Node) : Nat → Reader (List Node)
  | 0 => failure
  | n + 1 => do
    let first ← tree
    match ← next with
    | ']' => return [first]
    | ',' =>
      expect " "
      return first :: (← terms tree n)
    | _ => failure

def inside (tree : Reader Node) (n : Nat) : Kind → Reader Node
  | .root => do
    expect "["
    return .root (← terms tree n)
  | .empty => return .empty
  | .not => return .not (← tree)
  | .logic => do
    let op ← LogicOp.ofToken? (← upTo ',')
    expect " ["
    let left ← tree
    expect ", "
    let right ← tree
    expect "]"
    return .logic op left right
  | .comparison => do
    let op ← compareOp
    let key ← tree
    expect ", "
    return .comparison op key (← tree)
  | .call => do
    let function ← Function.ofName? (← upTo ',')
    expect " ["
    return .call function (← terms tree n)
  | .quoted => do
    expect "\""
    return .quoted (String.ofList (← quoteBody))
  | .word => do
    expect "\""
    return .word (String.ofList (← upTo '"'))

/-- Takes a tree that has at most a given number of levels, and of trees in each list. -/
def tree : Nat → Reader Node
  | 0 => failure
  | n + 1 => do
    let kind ← Kind.ofName? (← upTo '(')
    let node ← inside (tree n) n kind
    expect ")"
    return node

end Reader

/-- The tree that a text is the printed form of. A tree has no more levels than its text has
characters. -/
def Node.read? (text : String) : Option Node :=
  match (Reader.tree text.length).run text.toList with
  | some (tree, []) => some tree
  | _ => none

/-! ### What a reader recovers -/

/-- A reader takes a value off a text, whatever stands behind it. -/
def Recovers {α : Type} (x : Reader α) (text : List Char) (a : α) : Prop :=
  ∀ rest, x.run (text ++ rest) = some (a, rest)

namespace Recovers

variable {α β : Type} {x : Reader α} {f : α → Reader β} {s t : List Char} {a : α} {b : β}

theorem pure (a : α) : Recovers (Pure.pure a) [] a :=
  fun _ => rfl

theorem bind (hx : Recovers x s a) (hf : Recovers (f a) t b) : Recovers (x >>= f) (s ++ t) b := by
  intro rest
  rw [StateT.run_bind, List.append_assoc, hx]
  exact hf rest

theorem lift {o : Option α} (ho : o = some a) (hf : Recovers (f a) t b) :
    Recovers (liftM o >>= f) t b := by
  intro rest
  rw [ho]
  exact hf rest

theorem map (hx : Recovers x s a) (g : α → β) : Recovers (do return g (← x)) s (g a) := by
  have h := hx.bind (f := fun a => Pure.pure (g a)) (.pure (g a))
  rwa [List.append_nil] at h

theorem expect (text : String) : Recovers (Reader.expect text) text.toList () := by
  intro rest
  have hprefix : text.toList.isPrefixOf (text.toList ++ rest) = true :=
    List.isPrefixOf_iff_prefix.mpr (List.prefix_append _ _)
  show Reader.expect text _ = _
  rw [Reader.expect, if_pos hprefix, List.drop_left]

theorem next (c : Char) : Recovers Reader.next [c] c :=
  fun _ => rfl

theorem upTo {stop : Char} (h : stop ∉ s) : Recovers (Reader.upTo stop) (s ++ [stop]) s := by
  intro rest
  have hbefore : ∀ c ∈ s, decide (c ≠ stop) = true := fun c hc =>
    decide_eq_true fun heq => h (heq ▸ hc)
  show Reader.upTo stop _ = _
  rw [Reader.upTo, List.append_assoc, List.dropWhile_append_of_pos hbefore,
    List.takeWhile_append_of_pos hbefore]
  simp

theorem quoteBody (h : QuoteBody s) : Recovers Reader.quoteBody (s ++ ['"']) s := by
  intro rest
  show Reader.quoteBody _ = _
  rw [Reader.quoteBody, List.append_assoc, List.singleton_append, quoteLength?_append h]
  simp

end Recovers

/-! ### The shape of a printed tree -/

namespace Kind

theorem ofName?_name (k : Kind) : ofName? k.name.toList = some k := by
  cases k <;> decide

theorem name_spec (k : Kind) : '(' ∉ k.name.toList ∧ k.name.toList.head?.any Char.isAlpha = true := by
  cases k <;> decide

end Kind

theorem Function.ofName?_name (f : Function) : ofName? f.name.toList = some f ∧ ',' ∉ f.name.toList := by
  cases f <;> decide

theorem LogicOp.ofToken?_keyword (op : LogicOp) :
    ofToken? op.keyword.toList = some op ∧ ',' ∉ op.keyword.toList := by
  cases op <;> decide

theorem CompareOp.ofSymbol?_symbol (op : CompareOp) :
    ofSymbol? op.symbol.toList = some op ∧ ',' ∉ op.symbol.toList ∧
      op.symbol.toList.head?.any Char.isAlpha = false := by
  cases op <;> decide

namespace Node

def inside : Node → List Char
  | root terms => "[".toList ++ ((printAll terms).toList ++ [']'])
  | empty => []
  | not operand => operand.print.toList
  | logic op left right =>
    (op.keyword.toList ++ [',']) ++ (" [".toList ++ (left.print.toList ++ (", ".toList ++
      (right.print.toList ++ "]".toList))))
  | comparison op key value =>
    (if op = .eq then [] else (op.symbol.toList ++ [',']) ++ " ".toList) ++
      (key.print.toList ++ (", ".toList ++ value.print.toList))
  | call function args =>
    (function.name.toList ++ [',']) ++ (" [".toList ++ ((printAll args).toList ++ [']']))
  | quoted text => "\"".toList ++ (text.toList ++ ['"'])
  | word text => "\"".toList ++ (text.toList ++ ['"'])

theorem toList_print (tree : Node) :
    tree.print.toList = (tree.kind.name.toList ++ ['(']) ++ (tree.inside ++ ")".toList) := by
  cases tree with
  | root terms =>
    show ("root([" ++ printAll terms ++ "])").toList = _
    simp [inside, kind, Kind.name]
  | empty => rfl
  | not operand =>
    show ("not(" ++ operand.print ++ ")").toList = _
    simp [inside, kind, Kind.name]
  | logic op left right =>
    show ("logic(" ++ op.keyword ++ ", [" ++ left.print ++ ", " ++ right.print ++ "])").toList = _
    simp [inside, kind, Kind.name]
  | comparison op key value =>
    by_cases hop : op = .eq
    · subst hop
      show ("key-val(" ++ key.print ++ ", " ++ value.print ++ ")").toList = _
      simp [inside, kind, Kind.name]
    · have hprint : (comparison op key value).print =
          "key-val(" ++ op.symbol ++ ", " ++ key.print ++ ", " ++ value.print ++ ")" := by
        cases op with
        | eq => exact absurd rfl hop
        | ne | lt | gt | le | ge => rfl
      rw [hprint]
      simp [inside, kind, Kind.name, hop]
  | call function args =>
    show ("braces_function(" ++ function.name ++ ", [" ++ printAll args ++ "])").toList = _
    simp [inside, kind, Kind.name]
  | quoted text =>
    show ("quoted_text(\"" ++ text ++ "\")").toList = _
    simp [inside, kind, Kind.name]
  | word text =>
    show ("text_or_column(\"" ++ text ++ "\")").toList = _
    simp [inside, kind, Kind.name]

/-- A printed tree starts with a letter, as the names of all kinds do. -/
theorem head?_print (tree : Node) (rest : List Char) :
    (tree.print.toList ++ rest).head?.any Char.isAlpha = true := by
  have hname := tree.kind.name_spec.2
  rw [toList_print]
  cases hkind : tree.kind.name.toList with
  | nil =>
    rw [hkind] at hname
    cases hname
  | cons c name =>
    rw [hkind] at hname
    exact hname

theorem length_inside_lt (tree : Node) : tree.inside.length < tree.print.length := by
  rw [← String.length_toList, toList_print]
  simp only [List.length_append, List.length_singleton]
  omega

/-- A list of trees is printed with at least as many characters as it has trees, and as each of them is
printed with. -/
theorem length_printAll (nodes : List Node) :
    nodes.length ≤ (printAll nodes).length ∧
      ∀ node ∈ nodes, node.print.length ≤ (printAll nodes).length := by
  induction nodes with
  | nil => simp
  | cons first rest ih =>
    have hfirst := Nat.zero_lt_of_lt first.length_inside_lt
    cases rest with
    | nil => exact ⟨hfirst, List.forall_mem_singleton.mpr (Nat.le_refl _)⟩
    | cons second rest =>
      have hprint : printAll (first :: second :: rest) =
          first.print ++ ", " ++ printAll (second :: rest) := rfl
      have hlength : (printAll (first :: second :: rest)).length =
          first.print.length + 2 + (printAll (second :: rest)).length := by
        rw [hprint, String.length_append, String.length_append]
        rfl
      rw [hlength]
      refine ⟨?_, List.forall_mem_cons.mpr ⟨by omega, fun node hnode => ?_⟩⟩
      · have hrest := ih.1
        rw [List.length_cons]
        omega
      · have hrest := ih.2 node hnode
        omega

/-- There are fewer characters to each tree below a node, and fewer trees, than there are characters to
the node. -/
theorem length_children (tree : Node) :
    tree.children.length < tree.print.length ∧
      ∀ child ∈ tree.children, child.print.length < tree.print.length := by
  have htree := tree.length_inside_lt
  suffices h : tree.children.length ≤ tree.inside.length ∧
      ∀ child ∈ tree.children, child.print.length ≤ tree.inside.length by
    exact ⟨Nat.lt_of_le_of_lt h.1 htree, fun child hchild => Nat.lt_of_le_of_lt (h.2 child hchild) htree⟩
  cases tree with
  | root nodes | call _ nodes =>
    obtain ⟨hcount, hnodes⟩ := length_printAll nodes
    simp only [children, inside, List.length_append, String.length_toList]
    exact ⟨by omega, fun node hnode => by have := hnodes node hnode; omega⟩
  | not operand =>
    have hoperand := Nat.zero_lt_of_lt operand.length_inside_lt
    simp only [children, inside, List.length_singleton, String.length_toList,
      List.forall_mem_singleton]
    exact ⟨hoperand, Nat.le_refl _⟩
  | logic _ x y | comparison _ x y =>
    simp only [children, inside, List.length_append, String.length_toList, List.forall_mem_cons,
      List.length_cons, List.length_nil]
    have hcomma : ", ".length = 2 := rfl
    refine ⟨by omega, by omega, by omega, ?_⟩
    exact fun _ hnode => (List.not_mem_nil hnode).elim
  | empty | quoted _ | word _ => simp [children]

end Node

/-! ### Recovering a tree from its parts -/

section Parts

variable {read : Reader Node} {n : Nat}

theorem Recovers.terms {nodes : List Node} (hne : nodes ≠ [])
    (h : ∀ node ∈ nodes, Recovers read node.print.toList node) (hn : nodes.length ≤ n) :
    Recovers (Reader.terms read n) ((Node.printAll nodes).toList ++ [']']) nodes := by
  induction nodes generalizing n with
  | nil => exact absurd rfl hne
  | cons first rest ih =>
    obtain ⟨n, rfl⟩ := Nat.exists_eq_add_one_of_ne_zero (Nat.ne_zero_of_lt hn)
    obtain ⟨hfirst, hrest⟩ := List.forall_mem_cons.mp h
    cases rest with
    | nil => exact hfirst.bind ((Recovers.next ']').bind (.pure [first]))
    | cons second rest =>
      have hmore := ih (List.cons_ne_nil _ _) hrest (Nat.le_of_succ_le_succ hn)
      have hread : Recovers (Reader.terms read (n + 1))
          (first.print.toList ++
            ([','] ++ (" ".toList ++ ((Node.printAll (second :: rest)).toList ++ [']']))))
          (first :: second :: rest) :=
        hfirst.bind <| (Recovers.next ',').bind <| (Recovers.expect " ").bind <| hmore.map (first :: ·)
      have hprint : Node.printAll (first :: second :: rest) =
          first.print ++ ", " ++ Node.printAll (second :: rest) := rfl
      rw [hprint]
      simpa using hread

theorem Recovers.namedOp (op : CompareOp) :
    Recovers Reader.namedOp ((op.symbol.toList ++ [',']) ++ " ".toList) op := by
  obtain ⟨hsymbol, hcomma, -⟩ := op.ofSymbol?_symbol
  exact (Recovers.upTo hcomma).bind <| .lift hsymbol <| (Recovers.expect " ").map fun _ => op

/-- What is in front of the key says whether the comparison is named. -/
theorem Recovers.compareOp {α : Type} {f : CompareOp → Reader α} {text : List Char} {a : α}
    (op : CompareOp) (hhead : text.head?.any Char.isAlpha = true) (h : Recovers (f op) text a) :
    Recovers (Reader.compareOp >>= f)
      ((if op = .eq then [] else (op.symbol.toList ++ [',']) ++ " ".toList) ++ text) a := by
  intro rest
  rw [StateT.run_bind]
  by_cases hop : op = .eq
  · subst hop
    have hstart : (text ++ rest).head?.any Char.isAlpha = true := by
      cases text with
      | nil => cases hhead
      | cons c text => exact hhead
    have hread : Reader.compareOp.run (text ++ rest) = some (.eq, text ++ rest) := if_pos hstart
    rw [if_pos rfl, List.nil_append, hread]
    exact h rest
  · have hread : Reader.compareOp.run
        ((op.symbol.toList ++ [',']) ++ " ".toList ++ text ++ rest) = some (op, text ++ rest) := by
      rw [List.append_assoc _ text]
      refine (if_neg ?_).trans (Recovers.namedOp op _)
      cases op <;> simp [CompareOp.symbol]
    rw [if_neg hop, hread]
    exact h rest

/-- What stands between the parentheses of a tree is read with the trees below it. -/
theorem Recovers.inside {node : Node}
    (hchildren : ∀ child ∈ node.children, Recovers read child.print.toList child)
    (hn : node.children.length ≤ n) (hformed : node.Formed)
    (hword : ∀ text, node = .word text → '"' ∉ text.toList) :
    Recovers (Reader.inside read n node.kind) node.inside node := by
  cases node with
  | root terms =>
    exact (Recovers.expect "[").bind ((Recovers.terms hformed.1 hchildren hn).map Node.root)
  | empty => exact .pure _
  | not operand => exact (hchildren operand List.mem_cons_self).map Node.not
  | logic op left right =>
    obtain ⟨hleft, hright⟩ := List.forall_mem_cons.mp hchildren
    have hright := List.forall_mem_singleton.mp hright
    have hop := LogicOp.ofToken?_keyword op
    exact (Recovers.upTo hop.2).bind <| .lift hop.1 <| (Recovers.expect " [").bind <| hleft.bind <|
      (Recovers.expect ", ").bind <| hright.bind <| (Recovers.expect "]").map fun _ =>
        Node.logic op left right
  | comparison op key value =>
    obtain ⟨hkey, hvalue⟩ := List.forall_mem_cons.mp hchildren
    have hvalue := List.forall_mem_singleton.mp hvalue
    exact Recovers.compareOp op (key.head?_print _) <| hkey.bind <| (Recovers.expect ", ").bind <|
      hvalue.map (Node.comparison op key)
  | call function args =>
    -- every function takes an argument
    have hargs : args ≠ [] := by
      rintro rfl
      have harity := hformed.1
      cases function <;> cases harity
    have hfunction := function.ofName?_name
    exact (Recovers.upTo hfunction.2).bind <| .lift hfunction.1 <| (Recovers.expect " [").bind <|
      (Recovers.terms hargs hchildren hn).map (Node.call function)
  | quoted text =>
    have hbody := (unquote?_eq_some.mp hformed).2
    have hread : Recovers (Reader.inside read n .quoted) (Node.quoted text).inside
        (.quoted (String.ofList text.toList)) :=
      (Recovers.expect "\"").bind ((Recovers.quoteBody hbody).map fun s => Node.quoted (String.ofList s))
    rwa [String.ofList_toList] at hread
  | word text =>
    have hread : Recovers (Reader.inside read n .word) (Node.word text).inside
        (.word (String.ofList text.toList)) :=
      (Recovers.expect "\"").bind ((Recovers.upTo (hword text rfl)).map fun s => Node.word (String.ofList s))
    rwa [String.ofList_toList] at hread

end Parts

/-! ### Recovering a tree -/

namespace Node

def Unquoted (tree : Node) : Prop :=
  ∀ text, tree.Has (.word text) → '"' ∉ text.toList

theorem Unquoted.child {tree child : Node} (h : tree.Unquoted) (hchild : child ∈ tree.children) :
    child.Unquoted :=
  fun text hhas => h text (hhas.of_child hchild)

theorem Sound.child {tree child : Node} (h : tree.Sound) (hchild : child ∈ tree.children) :
    child.Sound :=
  fun node hhas => h node (hhas.of_child hchild)

end Node

theorem Recovers.tree {tree : Node} {n : Nat} (hn : tree.print.length ≤ n) (hsound : tree.Sound)
    (hwords : tree.Unquoted) : Recovers (Reader.tree n) tree.print.toList tree := by
  -- on the levels; the characters left bound both the levels and the trees in each list
  induction n generalizing tree with
  | zero => exact absurd hn (Nat.not_le_of_lt (Nat.zero_lt_of_lt tree.length_inside_lt))
  | succ n ih =>
    obtain ⟨hcount, hchildren⟩ := tree.length_children
    have hinside : Recovers (Reader.inside (Reader.tree n) n tree.kind) tree.inside tree := by
      refine .inside (fun child hchild => ?_) (by omega) (hsound tree tree.has_self) ?_
      · have hlength := hchildren child hchild
        exact ih (by omega) (hsound.child hchild) (hwords.child hchild)
      · rintro text rfl
        exact hwords text (Node.has_self _)
    rw [tree.toList_print]
    exact (Recovers.upTo tree.kind.name_spec.1).bind <| .lift tree.kind.ofName?_name <|
      hinside.bind <| (Recovers.expect ")").map fun _ => tree

theorem read?_print {tree : Node} (hsound : tree.Sound) (hwords : tree.Unquoted) :
    Node.read? tree.print = some tree := by
  have hread := Recovers.tree (Nat.le_refl _) hsound hwords []
  rw [List.append_nil] at hread
  rw [Node.read?, hread]

/-- A built tree without quotes in its words is read back from its printed form, so it is the only such
tree that is printed like this, under whatever settings it was built. -/
theorem print_identifies {config : Config} {query : List Char} {tree : Node}
    (h : build config query = .ok tree) (hwords : tree.Unquoted) :
    Node.read? tree.print = some tree ∧
    ∀ config' query' other, build config' query' = .ok other → other.Unquoted →
      other.print = tree.print → other = tree := by
  have hread := read?_print (build_wellFormed h).formed hwords
  refine ⟨hread, fun config' query' other hother hwords' hprint => ?_⟩
  have hread' := read?_print (build_wellFormed hother).formed hwords'
  rw [hprint, hread] at hread'
  exact (Option.some.inj hread').symm

/-- A quoted text that looks like the end of a tree is read back, from either of two queries. -/
theorem print_identifies_of_look_alike :
    let tree : Node := .root [.logic .and
      (.comparison .eq (.root [.word "x"]) (.root [.quoted "not(\\\"a\\\")]), [b"]))
      (.comparison .le (.root [.call .abs [.root [.word "c"]]]) (.root [.word "d"]))]
    build .standard "x=\"not(\\\"a\\\")]), [b\" AND abs(c)<=d".toList = .ok tree ∧
      tree.Unquoted ∧ Node.read? tree.print = some tree ∧
      ∃ other, build { caseSensitive := true }
          "x = \"not(\\\"a\\\")]), [b\"  AND abs( c ) <= d".toList = .ok other ∧
        other.print = tree.print ∧ other = tree := by
  intro tree
  have hbuild : build .standard "x=\"not(\\\"a\\\")]), [b\" AND abs(c)<=d".toList = .ok tree := by
    decide +kernel
  have hbuild' : build { caseSensitive := true }
      "x = \"not(\\\"a\\\")]), [b\"  AND abs( c ) <= d".toList = .ok tree := by
    decide +kernel
  have hwords : tree.Unquoted := by
    rintro text ⟨depth, hmem⟩
    simp only [tree, Node.preorder, Node.preorderFrom, Node.preorderAll, List.mem_cons,
      List.mem_append, List.not_mem_nil, Prod.mk.injEq, Node.word.injEq, reduceCtorEq, and_false,
      or_false, false_or] at hmem
    rcases hmem with ⟨-, rfl⟩ | ⟨-, rfl⟩ | ⟨-, rfl⟩ <;> decide
  obtain ⟨hread, hunique⟩ := print_identifies hbuild hwords
  exact ⟨hbuild, hwords, hread, tree, hbuild', rfl, hunique _ _ tree hbuild' hwords rfl⟩

/-- A word with quotes can be printed like two words. -/
example : (build .standard "a\"), text_or_column(\"b".toList).map Node.print =
    (build .standard "a b".toList).map Node.print := by
  decide +kernel

end RowSearch.Query
