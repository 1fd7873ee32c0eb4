import RowSearch.Proofs.Outcome
import RowSearch.Query.Fold
/-!
# Folding as a relation

What the two passes over a sequence of items do, without their accumulators: `FoldsNots` has one rule
for a `NOT`, which wraps the term in front of what is left of the items behind it, and one for all else;
`FoldsLinks` has one rule for a term and one for a connective. Both passes go along with concatenation
when each of two sequences can be folded by itself.
-/

namespace RowSearch.Query

theorem Built.within_eq_ok {limit height : Nat} {node : Node} {built : Built} :
    Built.within limit node height = .ok built ↔ built = ⟨node, height⟩ ∧ height ≤ limit := by
  rw [Built.within]
  split
  · next h => simp [h, eq_comm]
  · next h => simp [h]

/-! ### The passes -/

/-- What is left of some items when each `NOT` has its operand. -/
inductive FoldsNots (limit : Nat) : List Pending → List Link → Prop
  | nil : FoldsNots limit [] []
  | link (link : Link) {rest : List Pending} {links : List Link} :
    FoldsNots limit rest links → FoldsNots limit (.link link :: rest) (link :: links)
  | not {rest : List Pending} {links : List Link} {operand built : Built} :
    FoldsNots limit rest (.term operand :: links) → operand.not limit = .ok built →
    FoldsNots limit (.not :: rest) (.term built :: links)

/-- The terms that are left of some links when the terms before them, the last one in front, are
`done`. -/
inductive FoldsLinks (limit : Nat) : List Built → List Link → List Built → Prop
  | nil (done : List Built) : FoldsLinks limit done [] done.reverse
  | term {done terms : List Built} {term : Built} {rest : List Link} :
    FoldsLinks limit (term :: done) rest terms → FoldsLinks limit done (.term term :: rest) terms
  | logic {done terms : List Built} {left right built : Built} {op : LogicOp} {rest : List Link} :
    left.logic limit op right = .ok built → FoldsLinks limit (built :: done) rest terms →
    FoldsLinks limit (left :: done) (.logic op :: .term right :: rest) terms

theorem foldLinks_eq_ok {limit : Nat} {done terms : List Built} {links : List Link} :
    foldLinks limit done links = .ok terms ↔ FoldsLinks limit done links terms := by
  constructor
  · intro h
    fun_induction foldLinks limit done links with
    | case1 done =>
      cases h
      exact .nil done
    | case2 done term rest ih => exact .term (ih h)
    | case3 left done op right rest ih =>
      obtain ⟨built, hbuilt, h⟩ := bind_eq_ok.mp h
      exact .logic hbuilt (ih built h)
    | case4 => cases h
  · intro h
    induction h with
    | nil done => rw [foldLinks]
    | term _ ih => rw [foldLinks, ih]
    | logic hbuilt _ ih =>
      rw [foldLinks]
      exact bind_eq_ok.mpr ⟨_, hbuilt, ih⟩

theorem foldNots_eq_ok {limit : Nat} {items : List Pending} {links : List Link} :
    foldNots limit items = .ok links ↔ FoldsNots limit items links := by
  constructor
  · intro h
    induction items generalizing links with
    | nil =>
      cases h
      exact .nil
    | cons item rest ih =>
      cases item with
      | link link =>
        obtain ⟨others, hrest, rfl⟩ := map_eq_ok.mp h
        exact .link link (ih hrest)
      | not =>
        rw [foldNots] at h
        obtain ⟨links', hrest, h⟩ := bind_eq_ok.mp h
        split at h
        · obtain ⟨built, hbuilt, h⟩ := bind_eq_ok.mp h
          cases h
          exact .not (ih hrest) hbuilt
        · cases h
  · intro h
    induction h with
    | nil => rfl
    | link link _ ih => exact map_eq_ok.mpr ⟨_, ih, rfl⟩
    | not _ hbuilt ih =>
      rw [foldNots, ih]
      exact bind_eq_ok.mpr ⟨_, rfl, bind_eq_ok.mpr ⟨_, hbuilt, rfl⟩⟩

theorem foldNots_not_eq_error {limit : Nat} {items : List Pending} {e : QueryError}
    (h : foldNots limit items = .error e) : foldNots limit (.not :: items) = .error e := by
  rw [foldNots, h]
  rfl

theorem fold_eq_ok {limit : Nat} {items : List Pending} {terms : List Built} :
    fold limit items = .ok terms ↔ checkNots items = .ok () ∧
      ∃ links, FoldsNots limit items links ∧ FoldsLinks limit [] links terms := by
  simp only [fold, bind_eq_ok, foldNots_eq_ok, foldLinks_eq_ok]
  constructor
  · intro h
    obtain ⟨⟨⟩, hcheck, h⟩ := h
    exact ⟨hcheck, h⟩
  · intro h
    obtain ⟨hcheck, h⟩ := h
    exact ⟨(), hcheck, h⟩

/-! ### What is left -/

section Left

variable {limit : Nat} {items : List Pending} {links : List Link} {done terms : List Built}

theorem FoldsLinks.ne_nil (h : FoldsLinks limit done links terms) (hne : done ≠ [] ∨ links ≠ []) :
    terms ≠ [] := by
  induction h with
  | nil done =>
    rcases hne with hdone | hnil
    · simpa using hdone
    · exact absurd rfl hnil
  | term _ ih => exact ih (.inl (List.cons_ne_nil _ _))
  | logic _ _ ih => exact ih (.inl (List.cons_ne_nil _ _))

theorem FoldsNots.ne_nil (h : FoldsNots limit items links) (hne : items ≠ []) : links ≠ [] := by
  cases h with
  | nil => exact absurd rfl hne
  | link | not => simp

/-- Something is left of every sequence that is not empty. -/
theorem fold_ne_nil (h : fold limit items = .ok terms) (hne : items ≠ []) : terms ≠ [] := by
  obtain ⟨-, links, hlinks, hterms⟩ := fold_eq_ok.mp h
  exact hterms.ne_nil (.inr (hlinks.ne_nil hne))

/-- An item that can stand alone is a term, and stays as it is. -/
theorem fold_singleton {item : Pending} (h : fold limit [item] = .ok terms) :
    ∃ term, item = .term term ∧ terms = [term] := by
  obtain ⟨hcheck, links, hlinks, hterms⟩ := fold_eq_ok.mp h
  cases hlinks with
  | not => cases hcheck
  | link link hrest =>
    cases hrest
    cases link with
    | logic op => cases hterms
    | term term =>
      cases hterms with
      | term hrest =>
        cases hrest
        exact ⟨term, rfl, rfl⟩

end Left

/-! ### What is at fault -/

section Faults

variable {limit : Nat}

theorem failsOnly_within {node : Node} {height : Nat} :
    FailsOnly (· = .tooDeep limit) (Built.within limit node height) := by
  rw [Built.within]
  split
  · exact .ok _
  · exact .error rfl

theorem failsOnly_checkNots (items : List Pending) :
    FailsOnly (fun e => e = .notAtEnd ∨ e = .missingOperand "NOT") (checkNots items) := by
  fun_induction checkNots items with
  | case1 => exact .ok _
  | case2 => exact .error (.inl rfl)
  | case3 => exact .error (.inr rfl)
  | case4 _ _ _ _ ih => exact ih

theorem checkNots_of_cons {item : Pending} {rest : List Pending}
    (h : checkNots (item :: rest) = .ok ()) : checkNots rest = .ok () := by
  rw [checkNots.eq_def] at h
  split at h
  · next heq => cases heq
  · cases h
  · cases h
  · next heq =>
    cases heq
    exact h

/-- What is left of the items behind a `NOT` starts with a term. -/
theorem exists_term_of_foldsNots {rest : List Pending} {links : List Link}
    (hcheck : checkNots (.not :: rest) = .ok ()) (h : FoldsNots limit rest links) :
    ∃ operand others, links = .term operand :: others := by
  cases h with
  | nil => cases hcheck
  | not => exact ⟨_, _, rfl⟩
  | link link _ =>
    cases link with
    | logic op => cases hcheck
    | term term => exact ⟨term, _, rfl⟩

/-- After the check every `NOT` finds its operand, so only the limit of the height can be in the way. -/
theorem failsOnly_foldNots {items : List Pending} (h : checkNots items = .ok ()) :
    FailsOnly (· = .tooDeep limit) (foldNots limit items) := by
  induction items with
  | nil => exact .ok _
  | cons item rest ih =>
    have hrest := ih (checkNots_of_cons h)
    cases item with
    | link link =>
      rw [foldNots]
      exact hrest.map _
    | not =>
      rw [foldNots]
      refine hrest.bind fun links hlinks => ?_
      obtain ⟨operand, others, rfl⟩ := exists_term_of_foldsNots h (foldNots_eq_ok.mp hlinks)
      exact failsOnly_within.bind fun _ _ => .ok _

theorem failsOnly_foldLinks (done : List Built) (links : List Link) :
    FailsOnly (fun e => e = .tooDeep limit ∨ ∃ op : LogicOp, e = .missingOperand op.keyword)
      (foldLinks limit done links) := by
  fun_induction foldLinks limit done links with
  | case1 => exact .ok _
  | case2 _ _ _ ih => exact ih
  | case3 _ _ _ _ _ ih => exact (failsOnly_within.imp fun _ => .inl).bind fun term _ => ih term
  | case4 _ op _ => exact .error (.inr ⟨op, rfl⟩)

/-- Folding fails for an operator without its operands or for the limit of the height. -/
theorem failsOnly_fold {items : List Pending} :
    FailsOnly (fun e => e = .notAtEnd ∨ e = .tooDeep limit ∨ ∃ name, e = .missingOperand name)
      (fold limit items) := by
  refine ((failsOnly_checkNots items).imp ?_).bind fun _ hcheck => ?_
  · rintro e (rfl | rfl)
    · exact .inl rfl
    · exact .inr (.inr ⟨_, rfl⟩)
  · refine ((failsOnly_foldNots hcheck).imp fun e he => .inr (.inl he)).bind fun links _ => ?_
    refine (failsOnly_foldLinks [] links).imp ?_
    rintro e (rfl | ⟨op, rfl⟩)
    · exact .inr (.inl rfl)
    · exact .inr (.inr ⟨_, rfl⟩)

end Faults

/-! ### Two sequences -/

section Append

variable {limit : Nat} {items more : List Pending} {links others : List Link}
  {done terms rest : List Built}

theorem checkNots_append (h : checkNots items = .ok ()) (hmore : checkNots more = .ok ()) :
    checkNots (items ++ more) = .ok () := by
  fun_induction checkNots items with
  | case1 => exact hmore
  | case2 => cases h
  | case3 => cases h
  | case4 item items hend hlogic ih =>
    rw [List.cons_append, checkNots]
    · exact ih h
    · exact fun hitem happend => hend hitem (List.append_eq_nil_iff.mp happend).1
    · -- what stands behind a `NOT` is an item of the first sequence, as that one does not end there
      intro op tail hitem happend
      cases items with
      | nil => exact hend hitem rfl
      | cons next items =>
        cases (List.cons.inj happend).1
        exact hlogic op items hitem rfl

theorem FoldsNots.append (h : FoldsNots limit items links) (hmore : FoldsNots limit more others) :
    FoldsNots limit (items ++ more) (links ++ others) := by
  induction h with
  | nil => exact hmore
  | link link _ ih => exact .link link ih
  | not _ hbuilt ih => exact .not ih hbuilt

/-- Terms in front of those at hand are left as they are. -/
theorem FoldsLinks.after (h : FoldsLinks limit done links terms) (earlier : List Built) :
    FoldsLinks limit (done ++ earlier) links (earlier.reverse ++ terms) := by
  induction h with
  | nil done =>
    rw [← List.reverse_append]
    exact .nil _
  | term _ ih => exact .term ih
  | logic hbuilt _ ih => exact .logic hbuilt ih

theorem FoldsLinks.append (h : FoldsLinks limit done links terms)
    (hmore : FoldsLinks limit [] others rest) :
    FoldsLinks limit done (links ++ others) (terms ++ rest) := by
  induction h with
  | nil done => exact hmore.after done
  | term _ ih => exact .term ih
  | logic hbuilt _ ih => exact .logic hbuilt ih

/-- Folding works on each of two sequences that can be folded by themselves. -/
theorem fold_append (h : fold limit items = .ok terms) (hmore : fold limit more = .ok rest) :
    fold limit (items ++ more) = .ok (terms ++ rest) := by
  obtain ⟨hcheck, links, hlinks, hterms⟩ := fold_eq_ok.mp h
  obtain ⟨hcheck', others, hothers, hrest⟩ := fold_eq_ok.mp hmore
  exact fold_eq_ok.mpr ⟨checkNots_append hcheck hcheck', links ++ others,
    hlinks.append hothers, hterms.append hrest⟩

end Append

/-! ### Sequences without operators -/

section NoOperator

variable {limit : Nat} {items : List Pending} {links : List Link} {done terms : List Built}

theorem fold_terms (terms : List Built) : fold limit (terms.map .term) = .ok terms := by
  induction terms with
  | nil => rfl
  | cons term rest ih =>
    have hterm : fold limit [.term term] = .ok [term] := rfl
    exact fold_append hterm ih

/-- No operator is left where no connective was. -/
theorem FoldsLinks.eq_of_no_operator (h : FoldsLinks limit done links terms)
    (hterms : ∀ term ∈ terms, term.node.kind.nests = false) :
    ∃ more, links = more.map .term ∧ terms = done.reverse ++ more := by
  induction h with
  | nil done => exact ⟨[], rfl, by simp⟩
  | @term done terms term rest _ ih =>
    obtain ⟨more, rfl, rfl⟩ := ih hterms
    exact ⟨term :: more, rfl, by simp⟩
  | @logic done terms left right built op rest hbuilt _ ih =>
    obtain ⟨more, -, rfl⟩ := ih hterms
    have hkind := hterms built (by simp)
    obtain ⟨rfl, -⟩ := Built.within_eq_ok.mp hbuilt
    cases hkind

theorem FoldsNots.eq_of_no_operator (h : FoldsNots limit items (terms.map .term))
    (hterms : ∀ term ∈ terms, term.node.kind.nests = false) : items = terms.map .term := by
  induction terms generalizing items with
  | nil =>
    cases h
    rfl
  | cons term rest ih =>
    obtain ⟨hterm, hrest⟩ := List.forall_mem_cons.mp hterms
    cases h with
    | link _ h => rw [ih h hrest, List.map_cons]
    | not _ hbuilt =>
      obtain ⟨rfl, -⟩ := Built.within_eq_ok.mp hbuilt
      cases hterm

/-- What folding leaves without an operator is what was there. -/
theorem fold_eq_ok_iff_of_no_operator (hterms : ∀ term ∈ terms, term.node.kind.nests = false) :
    fold limit items = .ok terms ↔ items = terms.map .term := by
  constructor
  · intro h
    obtain ⟨-, links, hlinks, hfold⟩ := fold_eq_ok.mp h
    obtain ⟨more, rfl, rfl⟩ := hfold.eq_of_no_operator hterms
    exact hlinks.eq_of_no_operator hterms
  · rintro rfl
    exact fold_terms terms

end NoOperator

end RowSearch.Query
