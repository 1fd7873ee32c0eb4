import RowSearch.Proofs.Operation
/-!
# Folding one operator at a time

Folding is meant to give the operators their operands one after the other, in the order of their kinds
and among those of one kind from the left. Here this is a pair of rules, each of which folds one operator
of a sequence, and a loop that applies a rule for as long as there is something to fold. The two passes
are quicker: they go through the sequence once each, and the first of them goes from the right.

The `NOT` pass and the loop meet because a step of the loop does not change what the pass makes of the
sequence; the loop for the connectives folds them in the order of the pass. The limit of the height is
the only thing the loop does not know of, so folding goes the way of the loop unless that limit ends it.
-/

namespace RowSearch.Query

/-! ### The rules -/

/-- A rule folds one operator of a sequence or fails at it, or finds none that it could fold. -/
structure Rule where
  step : List Pending → Option (Except QueryError (List Pending))
  shorter : ∀ {items next : List Pending}, step items = some (.ok next) → next.length < items.length

def Rule.exhaust (rule : Rule) (items : List Pending) : Except QueryError (List Pending) :=
  match h : rule.step items with
  | none => .ok items
  | some (.error e) => .error e
  | some (.ok next) =>
    have := rule.shorter h
    rule.exhaust next
termination_by items.length

/-- The leftmost `NOT` with anything but another `NOT` behind it takes what stands there. -/
def foldReadyNot : List Pending → Option (Except QueryError (List Pending))
  | [] => none
  | [.not] => some (.error .notAtEnd)
  | .not :: .link (.logic _) :: _ => some (.error (.missingOperand "NOT"))
  | .not :: .link (.term x) :: rest => some (.ok (.term ⟨.not x.node, x.height + 1⟩ :: rest))
  | item :: rest => (foldReadyNot rest).map (·.map (item :: ·))

/-- The leftmost connective takes its two neighbours, which have to be terms. -/
def foldFirstLogic : List Pending → Option (Except QueryError (List Pending))
  | [] => none
  | .link (.logic op) :: _ => some (.error (.missingOperand op.keyword))
  | .link (.term x) :: .link (.logic op) :: .link (.term y) :: rest =>
    some (.ok (.term ⟨.logic op x.node y.node, max x.height y.height + 1⟩ :: rest))
  | _ :: .link (.logic op) :: _ => some (.error (.missingOperand op.keyword))
  | item :: rest => (foldFirstLogic rest).map (·.map (item :: ·))

theorem foldReadyNot_eq_ok {items next : List Pending} (h : foldReadyNot items = some (.ok next)) :
    ∃ before x after, items = before ++ .not :: .term x :: after ∧
      next = before ++ .term ⟨.not x.node, x.height + 1⟩ :: after := by
  fun_induction foldReadyNot items generalizing next with
  | case1 | case2 | case3 => simp at h
  | case4 x rest =>
    cases h
    exact ⟨[], x, rest, rfl, rfl⟩
  | case5 item rest _ _ _ ih =>
    simp only [Option.map_eq_some_iff, map_eq_ok] at h
    obtain ⟨_, hrest, out, rfl, rfl⟩ := h
    obtain ⟨before, x, after, rfl, rfl⟩ := ih hrest
    exact ⟨item :: before, x, after, rfl, rfl⟩

theorem length_foldFirstLogic {items next : List Pending}
    (h : foldFirstLogic items = some (.ok next)) : next.length < items.length := by
  fun_induction foldFirstLogic items generalizing next with
  | case1 | case2 | case4 => simp at h
  | case3 =>
    cases h
    simp only [List.length_cons]
    omega
  | case5 item rest _ _ _ ih =>
    simp only [Option.map_eq_some_iff, map_eq_ok] at h
    obtain ⟨_, hrest, out, rfl, rfl⟩ := h
    simpa using ih hrest

def notRule : Rule where
  step := foldReadyNot
  shorter h := by
    obtain ⟨before, x, after, rfl, rfl⟩ := foldReadyNot_eq_ok h
    simp

def logicRule : Rule where
  step := foldFirstLogic
  shorter := length_foldFirstLogic

/-- Folds the operators one at a time: first every `NOT`, then every connective. -/
def foldStepwise (items : List Pending) : Except QueryError (List Pending) := do
  logicRule.exhaust (← notRule.exhaust items)

/-! ### The loop -/

namespace Rule

variable {rule : Rule} {items next : List Pending} {e : QueryError}

theorem exhaust_of_none (h : rule.step items = none) : rule.exhaust items = .ok items := by
  rw [exhaust]
  split <;> simp_all

theorem exhaust_of_error (h : rule.step items = some (.error e)) :
    rule.exhaust items = .error e := by
  rw [exhaust]
  split <;> simp_all

theorem exhaust_of_ok (h : rule.step items = some (.ok next)) :
    rule.exhaust items = rule.exhaust next := by
  rw [exhaust]
  split <;> simp_all

/-- A computation that no step of a rule changes, and that says what the rule says where it stops, goes
the way of the loop. -/
theorem capped_exhaust (run : List Pending → Except QueryError (List Pending))
    (hnone : ∀ items, rule.step items = none → run items = .ok items)
    (herror : ∀ items e', rule.step items = some (.error e') → run items = .error e')
    (hok : ∀ items next, rule.step items = some (.ok next) → Capped e (run items) (run next)) :
    ∀ items, Capped e (run items) (rule.exhaust items) := by
  intro items
  induction hlength : items.length using Nat.strong_induction_on generalizing items with
  | _ n ih =>
    subst hlength
    match hstep : rule.step items with
    | none =>
      rw [exhaust_of_none hstep, hnone items hstep]
      exact .refl _
    | some (.error e') =>
      rw [exhaust_of_error hstep, herror items e' hstep]
      exact .refl _
    | some (.ok next) =>
      rw [exhaust_of_ok hstep]
      exact (hok items next hstep).trans (ih next.length (rule.shorter hstep) next rfl)

end Rule

/-! ### The negations -/

section Negations

variable {limit : Nat} {items next : List Pending} {e : QueryError}

theorem exists_links_of_foldReadyNot (h : foldReadyNot items = none) :
    ∃ links : List Link, items = links.map Pending.link := by
  fun_induction foldReadyNot items with
  | case1 => exact ⟨[], rfl⟩
  | case2 | case3 | case4 => simp at h
  | case5 item rest hend hlogic hterm ih =>
    obtain ⟨links, rfl⟩ := ih (by simpa using h)
    cases item with
    | link link => exact ⟨link :: links, rfl⟩
    | not =>
      -- the `NOT` would be ready
      cases links with
      | nil => exact (hend rfl rfl).elim
      | cons link links =>
        cases link with
        | logic op => exact (hlogic op _ rfl rfl).elim
        | term x => exact (hterm x _ rfl rfl).elim

theorem checkNots_links (links : List Link) : checkNots (links.map Pending.link) = .ok () := by
  induction links with
  | nil => rfl
  | cons link links ih => simpa using ih

theorem foldNots_links (limit : Nat) (links : List Link) :
    foldNots limit (links.map Pending.link) = .ok links := by
  induction links with
  | nil => rfl
  | cons link links ih => exact map_eq_ok.mpr ⟨links, ih, rfl⟩

theorem checkNots_of_foldReadyNot (h : foldReadyNot items = some (.error e)) :
    checkNots items = .error e := by
  fun_induction foldReadyNot items with
  | case1 | case4 => simp at h
  | case2 | case3 =>
    cases h
    rfl
  | case5 item rest hend hlogic hterm ih =>
    simp only [Option.map_eq_some_iff, map_eq_error] at h
    obtain ⟨_, hrest, rfl⟩ := h
    rw [checkNots]
    · exact ih hrest
    · exact hend
    · exact hlogic

theorem checkNots_folded (before : List Pending) (x y : Built) (after : List Pending) :
    checkNots (before ++ .not :: .term x :: after) = checkNots (before ++ .term y :: after) := by
  induction before with
  | nil => simp [checkNots_not]
  | cons item before ih =>
    cases item with
    | link link => simpa using ih
    | not =>
      cases before with
      | nil => simp [checkNots_not]
      | cons first before =>
        by_cases hfirst : ∃ op, first = .logic op
        · obtain ⟨op, rfl⟩ := hfirst
          rfl
        · rw [not_exists] at hfirst
          simpa [checkNots_not hfirst] using ih

theorem capped_foldNots_folded (limit : Nat) (before : List Pending) (x : Built)
    (after : List Pending) :
    Capped (.tooDeep limit) (foldNots limit (before ++ .not :: .term x :: after))
      (foldNots limit (before ++ .term ⟨.not x.node, x.height + 1⟩ :: after)) := by
  induction before with
  | nil =>
    rw [List.nil_append, List.nil_append]
    cases hafter : foldNots limit after with
    | error e =>
      left
      have hterm : foldNots limit (.term x :: after) = .error e := map_eq_error.mpr hafter
      rw [foldNots_not_eq_error hterm]
      exact (map_eq_error.mpr hafter).symm
    | ok links =>
      have hterm (y : Built) : foldNots limit (.term y :: after) = .ok (.term y :: links) :=
        map_eq_ok.mpr ⟨links, hafter, rfl⟩
      by_cases hheight : x.height + 1 ≤ limit
      · left
        rw [hterm]
        exact foldNots_eq_ok.mpr
          (.not (foldNots_eq_ok.mp (hterm x)) (Built.within_eq_ok.mpr ⟨rfl, hheight⟩))
      · right
        rw [foldNots, hterm]
        show (x.not limit >>= fun built => .ok (Link.term built :: links)) = _
        rw [Built.not, Built.within, if_neg hheight]
        rfl
  | cons item before ih =>
    cases item with
    | link link =>
      rw [List.cons_append, List.cons_append, foldNots, foldNots]
      exact ih.map _
    | not =>
      rw [List.cons_append, List.cons_append, foldNots, foldNots]
      exact ih.bind fun _ => .refl _

/-- The check and the pass for `NOT` go the way of the loop. -/
theorem capped_notRule (items : List Pending) :
    Capped (.tooDeep limit)
      ((checkNots items >>= fun _ => foldNots limit items).map (·.map Pending.link))
      (notRule.exhaust items) := by
  refine Rule.capped_exhaust
    (fun items => (checkNots items >>= fun _ => foldNots limit items).map (·.map Pending.link))
    (fun items h => ?_) (fun items e h => ?_) (fun items next h => ?_) items
  · obtain ⟨links, rfl⟩ := exists_links_of_foldReadyNot h
    rw [checkNots_links, foldNots_links]
    rfl
  · rw [checkNots_of_foldReadyNot h]
    rfl
  · obtain ⟨before, x, after, rfl, rfl⟩ := foldReadyNot_eq_ok h
    rw [checkNots_folded before x ⟨.not x.node, x.height + 1⟩]
    exact ((Capped.refl _).bind fun _ => capped_foldNots_folded limit before x after).map _

end Negations

/-! ### The connectives -/

section Connectives

variable {limit : Nat}

theorem foldFirstLogic_skip (x y : Built) (rest : List Pending) :
    foldFirstLogic (.term x :: .term y :: rest) =
      (foldFirstLogic (.term y :: rest)).map (·.map (.term x :: ·)) := by
  rw [foldFirstLogic] <;> simp

theorem foldFirstLogic_terms (terms : List Built) :
    foldFirstLogic (terms.map Pending.term) = none := by
  induction terms with
  | nil => rfl
  | cons x terms ih =>
    cases terms with
    | nil => rfl
    | cons y terms =>
      rw [List.map_cons, List.map_cons, foldFirstLogic_skip]
      simpa using ih

theorem foldFirstLogic_between (x : Built) (op : LogicOp) (y : Built) (rest : List Pending) :
    foldFirstLogic (.term x :: .logic op :: .term y :: rest) =
      some (.ok (.term ⟨.logic op x.node y.node, max x.height y.height + 1⟩ :: rest)) := by
  rw [foldFirstLogic]

theorem foldFirstLogic_bare (x : Built) (op : LogicOp) {links : List Link}
    (h : ∀ y rest, links ≠ .term y :: rest) :
    foldFirstLogic (.term x :: .logic op :: links.map Pending.link) =
      some (.error (.missingOperand op.keyword)) := by
  cases links with
  | nil => rfl
  | cons link links =>
    cases link with
    | logic _ => rfl
    | term y => exact absurd rfl (h y links)

/-- Terms in front of the left operand are left alone. -/
theorem foldFirstLogic_after (terms : List Built) {x : Built} {op : LogicOp} {after : List Pending}
    {out : Except QueryError (List Pending)}
    (h : foldFirstLogic (.term x :: .logic op :: after) = some out) :
    foldFirstLogic (terms.map Pending.term ++ .term x :: .logic op :: after) =
      some (out.map (terms.map Pending.term ++ ·)) := by
  induction terms with
  | nil =>
    rw [List.map_nil, List.nil_append, h]
    cases out <;> rfl
  | cons y terms ih =>
    have hskip : foldFirstLogic
        (.term y :: (terms.map Pending.term ++ .term x :: .logic op :: after)) =
        (foldFirstLogic (terms.map Pending.term ++ .term x :: .logic op :: after)).map
          (·.map (.term y :: ·)) := by
      cases terms <;> exact foldFirstLogic_skip ..
    rw [List.map_cons, List.cons_append, hskip, ih]
    cases out <;> rfl

/-- The pass for the connectives goes the way of the loop. The terms at hand are what the loop has made
of the items so far. -/
theorem capped_logicRule (done : List Built) (links : List Link) :
    Capped (.tooDeep limit) ((foldLinks limit done links).map (·.map Pending.term))
      (logicRule.exhaust (done.reverse.map Pending.term ++ links.map Pending.link)) := by
  fun_induction foldLinks limit done links with
  | case1 done =>
    left
    rw [List.map_nil, List.append_nil, Rule.exhaust_of_none (foldFirstLogic_terms _)]
    rfl
  | case2 done term rest ih => simpa using ih
  | case3 left done op right rest ih =>
    have hitems : (left :: done).reverse.map Pending.term ++
        (Link.logic op :: .term right :: rest).map Pending.link =
        done.reverse.map Pending.term ++
          .term left :: .logic op :: .term right :: rest.map Pending.link := by simp
    have hstep := foldFirstLogic_after done.reverse (foldFirstLogic_between left op right
      (rest.map Pending.link))
    rw [hitems, Rule.exhaust_of_ok hstep]
    by_cases hheight : max left.height right.height + 1 ≤ limit
    · have hlogic : left.logic limit op right =
          .ok ⟨.logic op left.node right.node, max left.height right.height + 1⟩ :=
        Built.within_eq_ok.mpr ⟨rfl, hheight⟩
      have hrest := ih ⟨.logic op left.node right.node, max left.height right.height + 1⟩
      rw [List.reverse_cons, List.map_append, List.append_assoc] at hrest
      rw [hlogic]
      exact hrest
    · right
      rw [Built.logic, Built.within, if_neg hheight]
      rfl
  | case4 done op rest hnone =>
    left
    cases done with
    | nil =>
      have hstep : logicRule.step (.logic op :: rest.map Pending.link) =
          some (.error (.missingOperand op.keyword)) := by simp [logicRule, foldFirstLogic]
      exact (Rule.exhaust_of_error hstep).symm
    | cons left done =>
      have hitems : (left :: done).reverse.map Pending.term ++
          (Link.logic op :: rest).map Pending.link =
          done.reverse.map Pending.term ++ .term left :: .logic op :: rest.map Pending.link := by simp
      have hstep := foldFirstLogic_after done.reverse
        (foldFirstLogic_bare left op fun right others => hnone left done right others rfl)
      rw [hitems, Rule.exhaust_of_error hstep]
      rfl

end Connectives

/-- Folding goes the way of the loop, unless the limit of the height ends it. -/
theorem capped_foldStepwise (limit : Nat) (items : List Pending) :
    Capped (.tooDeep limit) ((fold limit items).map (·.map Pending.term)) (foldStepwise items) := by
  have hfold : fold limit items =
      (checkNots items >>= fun _ => foldNots limit items) >>= foldLinks limit [] := by
    rw [fold]
    cases checkNots items <;> rfl
  rw [hfold, foldStepwise]
  rcases capped_notRule items with hsame | hdeep
  · rw [← hsame]
    cases checkNots items >>= fun _ => foldNots limit items with
    | error e => exact .refl _
    | ok links => exact capped_logicRule [] links
  · right
    rw [map_eq_error.mp hdeep]
    rfl

/-- Folding in two passes is folding one operator at a time. If the limit of the height is not exceeded,
both leave the same terms of a sequence or fail with the same error. -/
theorem fold_eq_foldStepwise {limit : Nat} {items : List Pending}
    (hlimit : fold limit items ≠ .error (.tooDeep limit)) :
    (fold limit items).map (·.map Pending.term) = foldStepwise items := by
  rcases capped_foldStepwise limit items with hsame | hdeep
  · exact hsame
  · exact absurd (map_eq_error.mp hdeep) hlimit

/-- The runs `NOT NOT a OR b` and `NOT AND`, folded one operator at a time. -/
theorem foldStepwise_of_negations :
    foldStepwise [.not, .not, .term (.of (.word "a")), .logic .or, .term (.of (.word "b"))] =
      .ok [.term ⟨.logic .or (.not (.not (.word "a"))) (.word "b"), 4⟩] ∧
    foldStepwise [.not, .logic .and] = .error (.missingOperand "NOT") := by
  constructor
  · have hlimit : fold 4 [.not, .not, .term (.of (.word "a")), .logic .or, .term (.of (.word "b"))] ≠
        .error (.tooDeep 4) := by decide
    rw [← fold_eq_foldStepwise hlimit]
    rfl
  · have hlimit : fold 4 [.not, .logic .and] ≠ .error (.tooDeep 4) := by decide
    rw [← fold_eq_foldStepwise hlimit]
    rfl

end RowSearch.Query
