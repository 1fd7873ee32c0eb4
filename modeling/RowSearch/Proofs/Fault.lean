import RowSearch.Proofs.Fold
/-!
# Operators at fault

Which operator is named when a sequence cannot be folded. An operator is at fault where it lacks an
operand: a `NOT` at the end or in front of a connective, a connective at either end or in front of
another one. Folding looks for a `NOT` at fault first, through the whole sequence, and only then for a
connective; of each kind the leftmost one is reported. So the leftmost operator at fault is the one that
is reported unless it is a connective and some `NOT` behind it is at fault as well.
-/

namespace RowSearch.Query

/-! ### Places -/

/-- An item of a sequence with the items before it and behind it. -/
structure Place where
  before : List Pending
  item : Pending
  after : List Pending
deriving DecidableEq

def placesFrom (before : List Pending) : List Pending → List Place
  | [] => []
  | item :: rest => ⟨before, item, rest⟩ :: placesFrom (before ++ [item]) rest

def places (items : List Pending) : List Place :=
  placesFrom [] items

def startsLogic : List Pending → Bool
  | .link (.logic _) :: _ => true
  | _ => false

namespace Place

def notFault? (p : Place) : Option QueryError :=
  match p.item, p.after with
  | .not, [] => some .notAtEnd
  | .not, .link (.logic _) :: _ => some (.missingOperand "NOT")
  | _, _ => none

def logicFault? (p : Place) : Option QueryError :=
  match p.item with
  | .link (.logic op) =>
    if p.before = [] ∨ p.after = [] ∨ startsLogic p.after = true then
      some (.missingOperand op.keyword)
    else none
  | _ => none

/-- What is reported of an operator at fault. -/
def fault? (p : Place) : Option QueryError :=
  p.notFault?.or p.logicFault?

end Place

open Place

namespace Place

variable {p : Place} {e : QueryError}

theorem notFault?_eq_some (h : p.notFault? = some e) :
    p.item = .not ∧ (e = .notAtEnd ∨ e = .missingOperand "NOT") := by
  rw [notFault?] at h
  split at h
  · next hitem _ => exact ⟨hitem, .inl (Option.some.inj h).symm⟩
  · next hitem _ => exact ⟨hitem, .inr (Option.some.inj h).symm⟩
  · cases h

theorem logicFault?_eq_some (h : p.logicFault? = some e) :
    ∃ op : LogicOp, p.item = .logic op ∧ e = .missingOperand op.keyword := by
  rw [logicFault?] at h
  split at h
  · next op hitem =>
    split at h
    · exact ⟨op, hitem, (Option.some.inj h).symm⟩
    · cases h
  · cases h

/-- Only a connective is at fault in the pass for the connectives. -/
theorem logicFault?_eq_none (h : ∀ op : LogicOp, p.item ≠ .logic op) : p.logicFault? = none := by
  rw [Option.eq_none_iff_forall_ne_some]
  intro e he
  obtain ⟨op, hitem, -⟩ := logicFault?_eq_some he
  exact h op hitem

/-- What is reported of a connective is not what is reported of a `NOT`. -/
theorem ne_of_logicFault? {q : Place} {e' : QueryError} (hlogic : p.logicFault? = some e)
    (hnot : q.notFault? = some e') : e ≠ e' := by
  obtain ⟨op, -, rfl⟩ := logicFault?_eq_some hlogic
  obtain ⟨-, rfl | rfl⟩ := notFault?_eq_some hnot
  · simp
  · cases op <;> simp [LogicOp.keyword]

end Place

/-! ### Negations -/

/-- The check for `NOT` reports the leftmost one at fault. -/
theorem checkNots_eq_error {items : List Pending} {e : QueryError} (before : List Pending) :
    checkNots items = .error e ↔ (placesFrom before items).findSome? notFault? = some e := by
  fun_induction checkNots items generalizing before with
  | case1 => simp [placesFrom]
  | case2 => simp [placesFrom, notFault?]
  | case3 =>
    rw [placesFrom, List.findSome?_cons]
    simp [notFault?]
  | case4 item rest hend hlogic ih =>
    have hnone : notFault? ⟨before, item, rest⟩ = none := by
      rw [notFault?]
      split <;> simp_all
    rw [ih (before ++ [item]), placesFrom, List.findSome?_cons, hnone]

/-! ### Connectives -/

section Connectives

variable {limit : Nat} {items : List Pending} {links : List Link} {done : List Built}
  {before : List Pending} {e : QueryError}

/-- Of what stands in front of a sequence it only matters whether there is anything. -/
theorem findSome?_logicFault_congr (before before' items : List Pending)
    (h : before = [] ↔ before' = []) :
    (placesFrom before items).findSome? logicFault? =
      (placesFrom before' items).findSome? logicFault? := by
  induction items generalizing before before' with
  | nil => rfl
  | cons item rest ih =>
    have hhead : logicFault? ⟨before, item, rest⟩ = logicFault? ⟨before', item, rest⟩ := by
      simp only [logicFault?, h]
    have hrest := ih (before ++ [item]) (before' ++ [item]) (by simp)
    simp only [placesFrom, List.findSome?_cons, hhead, hrest]

/-- Behind a connective it does not matter whether the negations have their operands. -/
theorem FoldsNots.logicFault_eq (h : FoldsNots limit items links) (op : LogicOp) :
    logicFault? ⟨before, .logic op, items⟩ = logicFault? ⟨before, .logic op, links.map .link⟩ := by
  cases h with
  | nil => rfl
  | not => simp [logicFault?, startsLogic]
  | link link _ => cases link <;> simp [logicFault?, startsLogic]

/-- The same connective is at fault before the negations have their operands and after. -/
theorem FoldsNots.findSome?_logicFault (h : FoldsNots limit items links) (before : List Pending) :
    (placesFrom before items).findSome? logicFault? =
      (placesFrom before (links.map .link)).findSome? logicFault? := by
  induction h generalizing before with
  | nil => rfl
  | @not rest others operand built _ _ ih =>
    have hcongr := findSome?_logicFault_congr (before ++ [.not] ++ [.term operand])
      (before ++ [.term built]) (others.map .link) (by simp)
    simpa [placesFrom, List.findSome?_cons, ih, logicFault?_eq_none] using hcongr
  | @link link rest others hrest ih =>
    have hhead : logicFault? ⟨before, .link link, rest⟩ =
        logicFault? ⟨before, .link link, others.map .link⟩ := by
      cases link with
      | term term => rfl
      | logic op => exact hrest.logicFault_eq op
    simp only [placesFrom, List.map_cons, List.findSome?_cons, hhead, ih]

/-- The pass for the connectives reports the leftmost one at fault. -/
theorem foldLinks_eq_error (hlimit : foldLinks limit done links ≠ .error (.tooDeep limit))
    (before : List Pending) (hbefore : before = [] ↔ done = []) :
    foldLinks limit done links = .error e ↔
      (placesFrom before (links.map .link)).findSome? logicFault? = some e := by
  fun_induction foldLinks limit done links generalizing before with
  | case1 => simp [placesFrom]
  | case2 done term rest ih =>
    have hrest := ih hlimit (before ++ [.term term]) (by simp)
    simpa [placesFrom, List.findSome?_cons, logicFault?_eq_none] using hrest
  | case3 left done op right rest ih =>
    have hhead : logicFault? ⟨before, .logic op, .term right :: rest.map .link⟩ = none := by
      simp [logicFault?, startsLogic, hbefore]
    cases hbuilt : left.logic limit op right with
    | error e' =>
      obtain rfl := failsOnly_within e' hbuilt
      rw [hbuilt] at hlimit
      exact absurd rfl hlimit
    | ok built =>
      rw [hbuilt] at hlimit
      have hrest := ih built hlimit (before ++ [.logic op] ++ [.term right]) (by simp)
      change foldLinks limit (built :: done) rest = .error e ↔ _
      simpa [placesFrom, List.findSome?_cons, hhead, logicFault?_eq_none] using hrest
  | case4 done op rest hno =>
    have hfault : before = [] ∨ rest = [] ∨ startsLogic (rest.map .link) = true := by
      cases done with
      | nil => exact .inl (hbefore.mpr rfl)
      | cons left done =>
        right
        cases rest with
        | nil => exact .inl rfl
        | cons link rest =>
          cases link with
          | logic op => exact .inr rfl
          | term right => exact absurd rfl (hno left done right rest rfl)
    have hhead : logicFault? ⟨before, .logic op, rest.map .link⟩ =
        some (.missingOperand op.keyword) := by
      simp [logicFault?, hfault]
    simp [placesFrom, hhead]

end Connectives

/-! ### What is reported -/

section Reported

variable {limit : Nat} {items : List Pending} {e : QueryError}

/-- The leftmost `NOT` at fault is reported, and without one the leftmost connective at fault. -/
theorem fold_eq_error_iff (hlimit : fold limit items ≠ .error (.tooDeep limit)) :
    fold limit items = .error e ↔
      ((places items).findSome? notFault?).or ((places items).findSome? logicFault?) = some e := by
  cases hcheck : checkNots items with
  | error e' =>
    have hfold : fold limit items = .error e' := by
      rw [fold, hcheck]
      rfl
    rw [hfold, places, (checkNots_eq_error []).mp hcheck]
    simp
  | ok _ =>
    have hnone : (places items).findSome? notFault? = none := by
      rw [Option.eq_none_iff_forall_ne_some]
      intro e' he'
      rw [(checkNots_eq_error []).mpr he'] at hcheck
      cases hcheck
    rw [hnone, Option.none_or]
    cases hlinks : foldNots limit items with
    | error e' =>
      obtain rfl := failsOnly_foldNots hcheck e' hlinks
      rw [fold, hcheck, hlinks] at hlimit
      exact absurd rfl hlimit
    | ok links =>
      have hfold : fold limit items = foldLinks limit [] links := by
        rw [fold, hcheck, hlinks]
        rfl
      rw [hfold] at hlimit ⊢
      rw [places, (foldNots_eq_ok.mp hlinks).findSome?_logicFault]
      exact foldLinks_eq_error hlimit [] (by simp)

theorem exists_fold_error_iff (hlimit : fold limit items ≠ .error (.tooDeep limit)) :
    (∃ e, fold limit items = .error e) ↔ ∃ p ∈ places items, p.fault? ≠ none := by
  simp only [fold_eq_error_iff hlimit]
  rw [← Option.isSome_iff_exists, Option.isSome_or, Bool.or_eq_true, List.findSome?_isSome_iff,
    List.findSome?_isSome_iff, ← exists_or]
  refine exists_congr fun p => ?_
  rw [← and_or_left, ← Bool.or_eq_true, ← Option.isSome_or, ← Option.ne_none_iff_isSome]
  rfl

/-- The first fault of a sequence is the first one of its kind. -/
theorem findSome?_of_leftmost {earlier later : List Place} {o : Place}
    (hplaces : places items = earlier ++ o :: later) (hearlier : ∀ p ∈ earlier, p.fault? = none) :
    (o.notFault? = some e → (places items).findSome? notFault? = some e) ∧
      (o.logicFault? = some e → (places items).findSome? logicFault? = some e) := by
  have hnots : earlier.findSome? notFault? = none :=
    List.findSome?_eq_none_iff.mpr fun p hp => (Option.or_eq_none_iff.mp (hearlier p hp)).1
  have hlogics : earlier.findSome? logicFault? = none :=
    List.findSome?_eq_none_iff.mpr fun p hp => (Option.or_eq_none_iff.mp (hearlier p hp)).2
  constructor
  · intro h
    simp [hplaces, List.findSome?_append, hnots, h]
  · intro h
    simp [hplaces, List.findSome?_append, hlogics, h]

/-- A sequence cannot be folded just when some operator is at fault, if the limit of the height is not
exceeded. The leftmost operator at fault is the one that is reported just when it is a `NOT` or no
`NOT` is at fault. -/
theorem fold_reports_leftmost_iff (hlimit : fold limit items ≠ .error (.tooDeep limit)) :
    ((∃ e, fold limit items = .error e) ↔ ∃ p ∈ places items, p.fault? ≠ none) ∧
    ∀ (earlier : List Place) (o : Place) (later : List Place) (e : QueryError),
      places items = earlier ++ o :: later → (∀ p ∈ earlier, p.fault? = none) →
      o.fault? = some e →
      (fold limit items = .error e ↔ o.item = .not ∨ ∀ p ∈ places items, p.notFault? = none) := by
  refine ⟨exists_fold_error_iff hlimit, fun earlier o later e hplaces hearlier hfault => ?_⟩
  obtain ⟨hfirstNot, hfirstLogic⟩ := findSome?_of_leftmost (e := e) hplaces hearlier
  rw [fold_eq_error_iff hlimit, ← List.findSome?_eq_none_iff]
  cases hnot : o.notFault? with
  | some e' =>
    obtain rfl : e' = e := by simpa [fault?, hnot] using hfault
    simp [hfirstNot hnot, (notFault?_eq_some hnot).1]
  | none =>
    have hlogic : o.logicFault? = some e := by simpa [fault?, hnot] using hfault
    obtain ⟨op, hitem, -⟩ := logicFault?_eq_some hlogic
    rw [hfirstLogic hlogic, hitem]
    cases hother : (places items).findSome? notFault? with
    | none => simp
    | some e' =>
      -- a `NOT` behind the connective takes its place in the report
      obtain ⟨q, -, hq⟩ := List.exists_of_findSome?_eq_some hother
      simp [(ne_of_logicFault? hlogic hq).symm]

/-- Of `NOT AND b NOT` the `NOT` in front of the connective is reported. -/
theorem fold_reports_leftmost_not :
    fold 4 [.not, .logic .and, .term ⟨.word "b", 1⟩, .not] ≠ .error (.tooDeep 4) ∧
      fold 4 [.not, .logic .and, .term ⟨.word "b", 1⟩, .not] = .error (.missingOperand "NOT") := by
  have hlimit : fold 4 [.not, .logic .and, .term ⟨.word "b", 1⟩, .not] ≠ .error (.tooDeep 4) := by
    decide
  refine ⟨hlimit, ?_⟩
  exact ((fold_reports_leftmost_iff hlimit).2 [] _ _ _ rfl (by simp) rfl).mpr (.inl rfl)

/-- Of `AND a NOT` the leftmost operator at fault is the connective, and the `NOT` is reported. -/
theorem fold_passes_over_connective :
    (places [.logic .and, .term ⟨.word "a", 1⟩, .not]).find? (·.fault?.isSome) =
        some ⟨[], .logic .and, [.term ⟨.word "a", 1⟩, .not]⟩ ∧
      fault? ⟨[], .logic .and, [.term ⟨.word "a", 1⟩, .not]⟩ = some (.missingOperand "AND") ∧
      ∀ limit, fold limit [.logic .and, .term ⟨.word "a", 1⟩, .not] = .error .notAtEnd :=
  ⟨by decide, by decide, fun _ => rfl⟩

end Reported

end RowSearch.Query
