import Mathlib.Data.List.Chain
import RowSearch.Proofs.Limits
/-!
# Operations

What folding makes of a sequence of items, with the operators that it folded kept apart from those
that the finished terms may hold: an `Operation` is a tree over the terms of a sequence, and its items
are what is read off the tree from left to right.

The grammar of sequences is stated on the items alone. A unary is a term behind any number of `NOT`, a
chain joins unaries by connectives, and a sequence can be folded when it is cut into chains. Folding is
an exact parser of that grammar: `fold_eq_ok_iff` describes all that is left of a sequence by the
operations that read as it does, and `fold_parses` says the same of the grammar. Only the limit of the
height can be in the way, and `fold_ne_tooDeep` gives limits at which it is not.
-/

namespace RowSearch.Query

/-- A tree of operators over the terms of a sequence. -/
inductive Operation where
  | operand (term : Built)
  | not (operand : Operation)
  | logic (op : LogicOp) (left right : Operation)

namespace Operation

def built : Operation → Built
  | operand term => term
  | not x => ⟨.not x.built.node, x.built.height + 1⟩
  | logic op x y =>
    ⟨.logic op x.built.node y.built.node, max x.built.height y.built.height + 1⟩

/-- The items of an operation from left to right: `NOT` before its operand, a connective between its
two. -/
def items : Operation → List Pending
  | operand term => [.term term]
  | not x => .not :: x.items
  | logic op x y => x.items ++ .logic op :: y.items

def Unary : Operation → Prop
  | operand _ => True
  | not x => x.Unary
  | logic .. => False

/-- An operation that is grouped from the left: no `NOT` covers a connective, and there is none in the
right operand of a connective. -/
def Leftward : Operation → Prop
  | operand _ => True
  | not x => x.Unary
  | logic _ x y => x.Leftward ∧ y.Unary

def Within (limit : Nat) : Operation → Prop
  | operand _ => True
  | not x => x.built.height + 1 ≤ limit
  | logic _ x y => max x.built.height y.built.height + 1 ≤ limit

/-- What is left of the items of an operation when each `NOT` has its operand. -/
def links : Operation → List Link
  | operand term => [.term term]
  | not x => [.term (not x).built]
  | logic op x y => x.links ++ [.logic op, .term y.built]

variable {limit : Nat} {x y : Operation}

theorem Unary.leftward (h : x.Unary) : x.Leftward := by
  cases x with
  | operand _ => trivial
  | not _ => exact h
  | logic _ _ _ => exact h.elim

theorem Within.of_height_le (h : x.built.height ≤ limit) : x.Within limit := by
  cases x with
  | operand _ => trivial
  | not _ | logic _ _ _ => exact h

theorem Within.operand (h : (not x).Within limit) : x.Within limit :=
  .of_height_le (Nat.le_of_succ_le h)

theorem Within.sides {op : LogicOp} (h : (logic op x y).Within limit) :
    x.Within limit ∧ y.Within limit := by
  have hsides := Nat.max_le.mp (Nat.le_of_succ_le h)
  exact ⟨.of_height_le hsides.1, .of_height_le hsides.2⟩

end Operation

/-! ### The grammar -/

/-- A term behind any number of `NOT`. -/
inductive FormsUnary : List Pending → Prop
  | term (term : Built) : FormsUnary [.term term]
  | not {items : List Pending} : FormsUnary items → FormsUnary (.not :: items)

/-- Unaries with one connective between each and the next. -/
inductive FormsChain : List Pending → Prop
  | unary {items : List Pending} : FormsUnary items → FormsChain items
  | link (op : LogicOp) {items more : List Pending} :
    FormsChain items → FormsUnary more → FormsChain (items ++ .logic op :: more)

/-- A sequence is cut into chains from the left, each as long as it can be. -/
inductive CutsInto : List Pending → List (List Pending) → Prop
  | nil : CutsInto [] []
  | cons {chain rest : List Pending} {chains : List (List Pending)} :
    FormsChain chain →
    (∀ longer, FormsChain longer → longer <+: chain ++ rest → longer <+: chain) →
    CutsInto rest chains → CutsInto (chain ++ rest) (chain :: chains)

section Grammar

variable {items chain longer rest : List Pending} {x : Operation}

theorem Operation.Unary.forms (h : x.Unary) : FormsUnary x.items := by
  induction x with
  | operand term => exact .term term
  | not x ih => exact .not (ih h)
  | logic _ _ _ _ _ => exact h.elim

theorem Operation.Leftward.forms (h : x.Leftward) : FormsChain x.items := by
  induction x with
  | operand term => exact .unary (.term term)
  | not x _ => exact .unary (.not (Unary.forms h))
  | logic op x y ih _ => exact .link op (ih h.1) h.2.forms

theorem FormsUnary.exists_operation (h : FormsUnary items) :
    ∃ x : Operation, x.Unary ∧ x.items = items := by
  induction h with
  | term term => exact ⟨.operand term, trivial, rfl⟩
  | not _ ih =>
    obtain ⟨x, hx, rfl⟩ := ih
    exact ⟨.not x, hx, rfl⟩

theorem FormsChain.exists_operation (h : FormsChain items) :
    ∃ x : Operation, x.Leftward ∧ x.items = items := by
  induction h with
  | unary h =>
    obtain ⟨x, hx, rfl⟩ := h.exists_operation
    exact ⟨x, hx.leftward, rfl⟩
  | link op _ hmore ih =>
    obtain ⟨x, hx, rfl⟩ := ih
    obtain ⟨y, hy, rfl⟩ := hmore.exists_operation
    exact ⟨.logic op x y, ⟨hx, hy⟩, rfl⟩

/-- Behind a term of a chain comes a connective. -/
def Continues (item next : Pending) : Prop :=
  ∀ term, item = .term term → ∃ op, next = .logic op

theorem FormsUnary.continues (h : FormsUnary items) : items.IsChain Continues := by
  induction h with
  | term _ => simp
  | @not items _ ih =>
    rw [List.isChain_cons]
    exact ⟨fun _ _ _ hnot => (nomatch hnot), ih⟩

theorem FormsChain.continues (h : FormsChain items) : items.IsChain Continues := by
  induction h with
  | unary h => exact h.continues
  | link op _ hmore ih =>
    refine List.isChain_append.mpr ⟨ih, ?_, ?_⟩
    · rw [List.isChain_cons]
      exact ⟨fun _ _ _ hlogic => (nomatch hlogic), hmore.continues⟩
    · intro item _ next hnext _ _
      simp only [List.head?_cons, Option.mem_def, Option.some.injEq] at hnext
      exact ⟨op, hnext.symm⟩

theorem FormsUnary.exists_last (h : FormsUnary items) :
    ∃ before term, items = before ++ [.term term] := by
  induction h with
  | term term => exact ⟨[], term, rfl⟩
  | not _ ih =>
    obtain ⟨before, term, rfl⟩ := ih
    exact ⟨.not :: before, term, rfl⟩

theorem FormsChain.exists_last (h : FormsChain items) :
    ∃ before term, items = before ++ [.term term] := by
  cases h with
  | unary h => exact h.exists_last
  | @link op items more _ hmore =>
    obtain ⟨before, term, rfl⟩ := hmore.exists_last
    exact ⟨items ++ .logic op :: before, term, by simp⟩

theorem FormsChain.exists_first (h : FormsChain items) :
    ∃ first others, items = first :: others ∧ ∀ op, first ≠ .logic op := by
  induction h with
  | unary h => cases h <;> exact ⟨_, _, rfl, fun _ hlogic => nomatch hlogic⟩
  | link op _ _ ih =>
    obtain ⟨first, others, rfl, hfirst⟩ := ih
    exact ⟨first, _, rfl, hfirst⟩

/-- A chain in front of anything but a connective is the longest one that starts where it does. -/
theorem FormsChain.longest (h : FormsChain chain) (hrest : ∀ op, rest.head? ≠ some (.logic op))
    (hlonger : FormsChain longer) (hstart : longer <+: chain ++ rest) : longer <+: chain := by
  rcases List.prefix_or_prefix_of_prefix hstart (List.prefix_append chain rest) with hle | hge
  · exact hle
  obtain ⟨more, rfl⟩ := hge
  cases more with
  | nil => simp
  | cons item more =>
    -- the term at the end of the chain would have to be followed by a connective
    obtain ⟨before, term, rfl⟩ := h.exists_last
    obtain ⟨op, rfl⟩ : ∃ op, item = .logic op :=
      (List.isChain_append.mp hlonger.continues).2.2 (.term term) (by simp) item (by simp) term rfl
    rw [List.prefix_append_right_inj] at hstart
    obtain ⟨after, rfl⟩ := hstart
    exact absurd rfl (hrest op)

theorem exists_operations_of_chains {chains : List (List Pending)}
    (h : ∀ chain ∈ chains, FormsChain chain) :
    ∃ trees : List Operation, (∀ tree ∈ trees, tree.Leftward) ∧
      trees.flatMap Operation.items = chains.flatten := by
  induction chains with
  | nil => exact ⟨[], by simp, rfl⟩
  | cons chain chains ih =>
    obtain ⟨hchain, hchains⟩ := List.forall_mem_cons.mp h
    obtain ⟨tree, htree, rfl⟩ := hchain.exists_operation
    obtain ⟨trees, htrees, hitems⟩ := ih hchains
    refine ⟨tree :: trees, List.forall_mem_cons.mpr ⟨htree, htrees⟩, ?_⟩
    rw [List.flatMap_cons, List.flatten_cons, hitems]

theorem cutsInto_flatten {chains : List (List Pending)} (h : ∀ chain ∈ chains, FormsChain chain) :
    CutsInto chains.flatten chains := by
  induction chains with
  | nil => exact .nil
  | cons chain chains ih =>
    obtain ⟨hchain, hchains⟩ := List.forall_mem_cons.mp h
    refine .cons hchain (fun longer => hchain.longest ?_) (ih hchains)
    intro op
    cases chains with
    | nil => simp
    | cons next chains =>
      obtain ⟨first, others, rfl, hfirst⟩ := (hchains next List.mem_cons_self).exists_first
      simpa using hfirst op

end Grammar

/-! ### Operations are folded -/

section Folded

variable {limit : Nat} {x : Operation}

@[simp] theorem checkNots_link (link : Link) (rest : List Pending) :
    checkNots (.link link :: rest) = checkNots rest := by
  rw [checkNots] <;> simp

theorem checkNots_not {first : Pending} (h : ∀ op, first ≠ .logic op) (rest : List Pending) :
    checkNots (.not :: first :: rest) = checkNots (first :: rest) := by
  rw [checkNots]
  · simp
  · intro op _ _ heq
    exact h op (List.cons.inj heq).1

namespace Operation

theorem Leftward.checkNots_append (h : x.Leftward) (rest : List Pending) :
    checkNots (x.items ++ rest) = checkNots rest := by
  induction x generalizing rest with
  | operand term => simp [items]
  | not x ih =>
    have hx : x.Leftward := Unary.leftward h
    obtain ⟨first, others, hitems, hfirst⟩ := hx.forms.exists_first
    rw [items, List.cons_append, ← ih hx rest, hitems, List.cons_append, checkNots_not hfirst]
  | logic op x y ihx ihy => simp [items, ihx h.1, ihy h.2.leftward]

theorem Unary.foldsNots_append (h : x.Unary) (hwithin : x.Within limit) {rest : List Pending}
    {others : List Link} (hrest : FoldsNots limit rest others) :
    FoldsNots limit (x.items ++ rest) (.term x.built :: others) := by
  induction x with
  | operand term => exact .link _ hrest
  | not x ih => exact .not (ih h hwithin.operand) (Built.within_eq_ok.mpr ⟨rfl, hwithin⟩)
  | logic _ _ _ _ _ => exact h.elim

theorem Leftward.foldsNots_append (h : x.Leftward) (hwithin : x.Within limit) {rest : List Pending}
    {others : List Link} (hrest : FoldsNots limit rest others) :
    FoldsNots limit (x.items ++ rest) (x.links ++ others) := by
  induction x generalizing rest others with
  | operand term => exact .link _ hrest
  | not x _ => exact Unary.foldsNots_append (x := .not x) h hwithin hrest
  | logic op x y ih _ =>
    obtain ⟨hx, hy⟩ := hwithin.sides
    rw [items, links, List.append_assoc, List.append_assoc]
    exact ih h.1 hx (.link (.logic op) (h.2.foldsNots_append hy hrest))

theorem Leftward.foldLinks_append (h : x.Leftward) (hwithin : x.Within limit) (done : List Built)
    (rest : List Link) :
    foldLinks limit done (x.links ++ rest) = foldLinks limit (x.built :: done) rest := by
  induction x generalizing rest with
  | operand _ | not _ _ => rfl
  | logic op x y ih _ =>
    have hbuilt : x.built.logic limit op y.built = .ok (logic op x y).built :=
      Built.within_eq_ok.mpr ⟨rfl, hwithin⟩
    rw [links, List.append_assoc, ih h.1 hwithin.sides.1]
    change (x.built.logic limit op y.built >>= fun term => foldLinks limit (term :: done) rest) = _
    rw [hbuilt]
    rfl

theorem Leftward.fold_eq (h : x.Leftward) (hwithin : x.Within limit) :
    fold limit x.items = .ok [x.built] := by
  have hcheck := h.checkNots_append []
  have hnots := h.foldsNots_append hwithin .nil
  have hlinks := h.foldLinks_append hwithin [] []
  rw [List.append_nil] at hcheck hnots hlinks
  rw [List.append_nil] at hnots
  exact fold_eq_ok.mpr ⟨hcheck, x.links, hnots, foldLinks_eq_ok.mp hlinks⟩

end Operation

/-- Folding makes of the items of operations what the operations make. -/
theorem fold_operations {trees : List Operation} (h : ∀ tree ∈ trees, tree.Leftward)
    (hwithin : ∀ tree ∈ trees, tree.Within limit) :
    fold limit (trees.flatMap Operation.items) = .ok (trees.map Operation.built) := by
  induction trees with
  | nil => rfl
  | cons tree trees ih =>
    obtain ⟨htree, htrees⟩ := List.forall_mem_cons.mp h
    obtain ⟨hheight, hheights⟩ := List.forall_mem_cons.mp hwithin
    exact fold_append (htree.fold_eq hheight) (ih htrees hheights)

end Folded

/-! ### What is folded is an operation -/

/-- Links are what is left of items when each `NOT` has its operand: where a term stands, a unary has
been. -/
inductive Gathers (limit : Nat) : List Pending → List Link → Prop
  | nil : Gathers limit [] []
  | logic (op : LogicOp) {items : List Pending} {links : List Link} :
    Gathers limit items links → Gathers limit (.logic op :: items) (.logic op :: links)
  | term {x : Operation} {items : List Pending} {links : List Link} :
    x.Unary → x.Within limit → Gathers limit items links →
    Gathers limit (x.items ++ items) (.term x.built :: links)

section Folds

variable {limit : Nat} {items : List Pending} {links : List Link} {done terms : List Built}

theorem FoldsNots.gathers (h : FoldsNots limit items links) : Gathers limit items links := by
  induction h with
  | nil => exact .nil
  | link link _ ih =>
    cases link with
    | logic op => exact .logic op ih
    | term term => exact .term (x := .operand term) trivial trivial ih
  | not _ hbuilt ih =>
    obtain ⟨rfl, hheight⟩ := Built.within_eq_ok.mp hbuilt
    cases ih with
    | @term x _ _ hx _ hrest => exact .term (x := .not x) hx hheight hrest

/-- The terms at hand and the links to come hold operations, so those that are left do: the induction
is on the pass over the links, and what has been read so far is what the terms at hand read as. -/
theorem FoldsLinks.exists_operations (h : FoldsLinks limit done links terms)
    (hlinks : Gathers limit items links) {trees : List Operation}
    (htrees : ∀ tree ∈ trees, tree.Leftward ∧ tree.Within limit)
    (hdone : done = trees.map Operation.built) :
    ∃ out : List Operation, (∀ tree ∈ out, tree.Leftward ∧ tree.Within limit) ∧
      out.flatMap Operation.items = trees.reverse.flatMap Operation.items ++ items ∧
      terms = out.map Operation.built := by
  induction h generalizing items trees with
  | nil done =>
    cases hlinks
    refine ⟨trees.reverse, fun tree htree => htrees tree (List.mem_reverse.mp htree), ?_, ?_⟩
    · rw [List.append_nil]
    · rw [hdone, List.map_reverse]
  | term _ ih =>
    cases hlinks with
    | @term x rest _ hx hwithin hrest =>
      obtain ⟨out, hout, hitems, rfl⟩ := ih hrest
        (List.forall_mem_cons.mpr ⟨⟨hx.leftward, hwithin⟩, htrees⟩) (congrArg (x.built :: ·) hdone)
      refine ⟨out, hout, ?_, rfl⟩
      rw [hitems]
      simp
  | @logic done terms left right built op rest hbuilt _ ih =>
    obtain ⟨rfl, hheight⟩ := Built.within_eq_ok.mp hbuilt
    cases hlinks with
    | logic _ hlinks =>
      cases hlinks with
      | @term y rest _ hy _ hrest =>
        cases trees with
        | nil => cases hdone
        | cons x trees =>
          obtain ⟨rfl, rfl⟩ := List.cons.inj hdone
          obtain ⟨⟨hx, -⟩, htrees⟩ := List.forall_mem_cons.mp htrees
          have hlogic : (Operation.logic op x y).Leftward ∧ (Operation.logic op x y).Within limit :=
            ⟨⟨hx, hy⟩, hheight⟩
          obtain ⟨out, hout, hitems, rfl⟩ := ih hrest (List.forall_mem_cons.mpr ⟨hlogic, htrees⟩) rfl
          refine ⟨out, hout, ?_, rfl⟩
          rw [hitems]
          simp [Operation.items]

/-- Folding is exact: what is left of a sequence is what the operations make that are grouped from the
left, keep to the limit and read as the sequence does. -/
theorem fold_eq_ok_iff : fold limit items = .ok terms ↔
    ∃ trees : List Operation, (∀ tree ∈ trees, tree.Leftward ∧ tree.Within limit) ∧
      trees.flatMap Operation.items = items ∧ terms = trees.map Operation.built := by
  constructor
  · intro h
    obtain ⟨-, links, hlinks, hterms⟩ := fold_eq_ok.mp h
    have hnone : ∀ tree ∈ ([] : List Operation), tree.Leftward ∧ tree.Within limit := by simp
    obtain ⟨out, hout, hitems, hterms⟩ :=
      hterms.exists_operations hlinks.gathers hnone rfl
    exact ⟨out, hout, hitems, hterms⟩
  · rintro ⟨trees, htrees, rfl, rfl⟩
    exact fold_operations (fun tree htree => (htrees tree htree).1) fun tree htree =>
      (htrees tree htree).2

end Folds

/-! ### Limits that are not exceeded -/

section Room

variable {limit tall : Nat} {items : List Pending} {links : List Link} {done : List Built}

theorem Link.Has.imp {P Q : Built → Prop} {link : Link} (h : link.Has P) (hPQ : ∀ x, P x → Q x) :
    link.Has Q := by
  cases link with
  | logic _ => trivial
  | term x => exact hPQ x h

/-- A `NOT` makes its operand taller by one and the sequence shorter by one. -/
theorem FoldsNots.height_add_length (h : FoldsNots limit items links)
    (hterms : ∀ item ∈ items, item.Has fun term => term.height ≤ tall) :
    links.length ≤ items.length ∧ ∀ link ∈ links,
      link.Has fun term => term.height + links.length ≤ tall + items.length := by
  induction h with
  | nil => simp
  | @link link rest others _ ih =>
    obtain ⟨hlink, hrest⟩ := List.forall_mem_cons.mp hterms
    obtain ⟨hlength, hheights⟩ := ih hrest
    simp only [List.length_cons]
    refine ⟨by omega, List.forall_mem_cons.mpr ⟨Link.Has.imp hlink fun term hterm => by omega, ?_⟩⟩
    exact fun other hother => (hheights other hother).imp fun term hterm => by omega
  | @not rest others operand built _ hbuilt ih =>
    obtain ⟨rfl, -⟩ := Built.within_eq_ok.mp hbuilt
    obtain ⟨-, hrest⟩ := List.forall_mem_cons.mp hterms
    obtain ⟨hlength, hheights⟩ := ih hrest
    obtain ⟨hoperand, hheights⟩ := List.forall_mem_cons.mp hheights
    simp only [Link.Has, List.length_cons] at hoperand hlength hheights ⊢
    have hnot : operand.height + 1 + (others.length + 1) ≤ tall + (rest.length + 1) := by omega
    refine ⟨by omega, List.forall_mem_cons.mpr ⟨hnot, fun other hother => ?_⟩⟩
    exact Link.Has.imp (hheights other hother) fun term hterm => by omega

/-- Why a `NOT` is not folded: for what stands behind it, for want of an operand or for its height. -/
theorem foldNots_not_error_cases {e : QueryError} (h : foldNots limit (.not :: items) = .error e) :
    foldNots limit items = .error e ∨ e = .notAtEnd ∨ ∃ operand others,
      foldNots limit items = .ok (.term operand :: others) ∧ limit < operand.height + 1 := by
  cases hrest : foldNots limit items with
  | error e' => exact .inl ((foldNots_not_eq_error hrest).symm.trans h)
  | ok links =>
    right
    cases links with
    | nil =>
      rw [foldNots, hrest] at h
      cases h
      exact .inl rfl
    | cons link others =>
      cases link with
      | logic op =>
        rw [foldNots, hrest] at h
        cases h
        exact .inl rfl
      | term operand =>
        refine .inr ⟨operand, others, rfl, Nat.lt_of_not_le fun hheight => ?_⟩
        have hnot := (foldNots_eq_ok.mp hrest).not (Built.within_eq_ok.mpr ⟨rfl, hheight⟩)
        cases (foldNots_eq_ok.mpr hnot).symm.trans h

theorem foldNots_ne_tooDeep (hterms : ∀ item ∈ items, item.Has fun term => term.height ≤ tall)
    (hroom : tall + items.length ≤ limit) : foldNots limit items ≠ .error (.tooDeep limit) := by
  induction items with
  | nil => simp [foldNots]
  | cons item rest ih =>
    obtain ⟨-, hrest⟩ := List.forall_mem_cons.mp hterms
    rw [List.length_cons] at hroom
    have hne := ih hrest (by omega)
    cases item with
    | link link =>
      rw [foldNots, ne_eq, map_eq_error]
      exact hne
    | not =>
      intro h
      rcases foldNots_not_error_cases h with h | h | ⟨operand, others, hlinks, hheight⟩
      · exact hne h
      · cases h
      · have hoperand := ((foldNots_eq_ok.mp hlinks).height_add_length hrest).2 _ List.mem_cons_self
        simp only [Link.Has, List.length_cons] at hoperand
        omega

theorem foldLinks_ne_tooDeep (hdone : ∀ term ∈ done, term.height ≤ tall)
    (hlinks : ∀ link ∈ links, link.Has fun term => term.height ≤ tall)
    (hroom : tall + links.length ≤ limit) : foldLinks limit done links ≠ .error (.tooDeep limit) := by
  fun_induction foldLinks limit done links generalizing tall with
  | case1 => simp
  | case2 done term rest ih =>
    obtain ⟨hterm, hrest⟩ := List.forall_mem_cons.mp hlinks
    rw [List.length_cons] at hroom
    exact ih (List.forall_mem_cons.mpr ⟨hterm, hdone⟩) hrest (by omega)
  | case3 left done op right rest ih =>
    obtain ⟨hleft, hdone⟩ := List.forall_mem_cons.mp hdone
    obtain ⟨-, hlinks⟩ := List.forall_mem_cons.mp hlinks
    obtain ⟨hright, hrest⟩ := List.forall_mem_cons.mp hlinks
    simp only [List.length_cons, Link.Has] at hroom hright
    have hheight : max left.height right.height + 1 ≤ tall + 1 := by omega
    have hlogic : left.logic limit op right =
        .ok ⟨.logic op left.node right.node, max left.height right.height + 1⟩ :=
      Built.within_eq_ok.mpr ⟨rfl, by omega⟩
    have hdone' : ∀ term ∈ ⟨.logic op left.node right.node, max left.height right.height + 1⟩ :: done,
        term.height ≤ tall + 1 :=
      List.forall_mem_cons.mpr ⟨hheight, fun term hterm => (hdone term hterm).trans (by omega)⟩
    rw [hlogic]
    apply ih _ hdone'
    · exact fun link hlink => (hrest link hlink).imp fun term hterm => by omega
    · omega
  | case4 => simp

/-- A limit that leaves as much room above the tallest term as the sequence is long is not exceeded. -/
theorem fold_ne_tooDeep (hterms : ∀ item ∈ items, item.Has fun term => term.height ≤ tall)
    (hroom : tall + items.length ≤ limit) : fold limit items ≠ .error (.tooDeep limit) := by
  intro h
  rw [fold] at h
  cases hcheck : checkNots items with
  | error e =>
    rw [hcheck] at h
    rcases failsOnly_checkNots items e hcheck with rfl | rfl <;> cases h
  | ok _ =>
    cases hlinks : foldNots limit items with
    | error e =>
      rw [hcheck, hlinks] at h
      cases h
      exact foldNots_ne_tooDeep hterms hroom hlinks
    | ok links =>
      rw [hcheck, hlinks] at h
      obtain ⟨hlength, hheights⟩ := (foldNots_eq_ok.mp hlinks).height_add_length hterms
      have hlinks' : ∀ link ∈ links,
          link.Has fun term => term.height ≤ tall + items.length - links.length :=
        fun link hlink => (hheights link hlink).imp fun term hterm => by omega
      exact foldLinks_ne_tooDeep (by simp) hlinks' (by omega) h

end Room

/-! ### The parser of the grammar -/

/-- Folding is an exact parser. If the limit of the height is not exceeded, a sequence is folded just
when it is a concatenation of chains. What is left of it is then one term for each of the longest chains
that it is cut into: the operation that reads as the chain does, grouped from the left. -/
theorem fold_parses {limit : Nat} {items : List Pending}
    (hlimit : fold limit items ≠ .error (.tooDeep limit)) :
    ((∃ terms, fold limit items = .ok terms) ↔
      ∃ chains : List (List Pending), (∀ chain ∈ chains, FormsChain chain) ∧ items = chains.flatten) ∧
    ∀ terms, fold limit items = .ok terms →
      ∃ trees : List Operation, terms = trees.map Operation.built ∧
        trees.flatMap Operation.items = items ∧ CutsInto items (trees.map Operation.items) ∧
        ∀ tree ∈ trees, tree.Leftward := by
  have hparse (terms : List Built) (h : fold limit items = .ok terms) :
      ∃ trees : List Operation, terms = trees.map Operation.built ∧
        trees.flatMap Operation.items = items ∧ CutsInto items (trees.map Operation.items) ∧
        ∀ tree ∈ trees, tree.Leftward := by
    obtain ⟨trees, htrees, hitems, hterms⟩ := fold_eq_ok_iff.mp h
    have hleft : ∀ tree ∈ trees, tree.Leftward := fun tree htree => (htrees tree htree).1
    refine ⟨trees, hterms, hitems, ?_, hleft⟩
    rw [← hitems, List.flatMap_def]
    exact cutsInto_flatten (List.forall_mem_map.mpr fun tree htree => (hleft tree htree).forms)
  refine ⟨⟨fun h => ?_, fun h => ?_⟩, hparse⟩
  · obtain ⟨terms, hterms⟩ := h
    obtain ⟨trees, -, hitems, -, hleft⟩ := hparse terms hterms
    refine ⟨trees.map Operation.items, ?_, by rw [← hitems, List.flatMap_def]⟩
    exact List.forall_mem_map.mpr fun tree htree => (hleft tree htree).forms
  · obtain ⟨chains, hchains, rfl⟩ := h
    obtain ⟨trees, hleft, hitems⟩ := exists_operations_of_chains hchains
    -- under a wide limit the operations are folded, and a lower one is in the way only if exceeded
    have hheights : ∀ term ∈ trees.map Operation.built,
        term.height ≤ tallest (trees.map Operation.built) := tallest_le_iff.mp (Nat.le_refl _)
    have hwide : fold (max limit (tallest (trees.map Operation.built))) chains.flatten =
        .ok (trees.map Operation.built) := by
      rw [← hitems]
      refine fold_operations hleft fun tree htree => .of_height_le ?_
      exact (List.forall_mem_map.mp hheights tree htree).trans (Nat.le_max_right _ _)
    rcases capped_fold (capped_within (Nat.le_max_left _ _)) chains.flatten with hsame | hdeep
    · exact ⟨_, hsame.trans hwide⟩
    · exact absurd hdeep hlimit

/-- Of `NOT a AND b c` two terms are left, one for each chain. -/
theorem fold_parses_of_negation_and_neighbour :
    ∃ trees : List Operation,
      [⟨.logic .and (.not (.word "a")) (.word "b"), 3⟩, ⟨.word "c", 1⟩] = trees.map Operation.built ∧
      trees.flatMap Operation.items = [.not, .term (.of (.word "a")), .logic .and,
        .term (.of (.word "b")), .term (.of (.word "c"))] ∧
      CutsInto [.not, .term (.of (.word "a")), .logic .and, .term (.of (.word "b")),
        .term (.of (.word "c"))] (trees.map Operation.items) ∧
      ∀ tree ∈ trees, tree.Leftward := by
  have hlimit : fold 3 [.not, .term (.of (.word "a")), .logic .and, .term (.of (.word "b")),
      .term (.of (.word "c"))] ≠ .error (.tooDeep 3) := by decide
  exact (fold_parses hlimit).2 _ (by decide)

end RowSearch.Query
