import RowSearch.Proofs.Structure
import RowSearch.Proofs.Unbroken
/-!
# Every token is of some kind

Building asks three times what a token is: which kind claims it, then what its parts are, and last
whether an operator has its operands. Each answer rests on the one before, and none of the places
where an answer could be missing is ever reached. What is not empty is a word if it is nothing else,
since no blank is left in it; a kind that claims a token has found the parts for which it is asked
again; and the negations that are folded have been checked to stand in front of something.
-/

namespace RowSearch.Query

open Text (isBlank)
open Zone (top)

/-! ### Kinds -/

/-- What is known of a token by its kind: that it is empty or a keyword, or the parts into which it is
taken apart. No token is a root. -/
inductive Identified (config : Config) (token : List Char) : Kind → Prop
  | empty : token = [] → Identified config token .empty
  | not : token = "NOT".toList → Identified config token .not
  | logic {op : LogicOp} : LogicOp.ofToken? token = some op → Identified config token .logic
  | comparison {key value : List Char} {op : CompareOp} :
    splitComparison? config.extendedOperators token = some (key, op, value) →
    Identified config token .comparison
  | call {f : Function} {inner : List Char} :
    splitCall? token = some (f, inner) → Identified config token .call
  | quoted {body : List Char} : unquote? token = some body → Identified config token .quoted
  | word : token ≠ [] → hasTopBlank token = false → Identified config token .word

section Kinds

variable {config : Config} {token : List Char}

theorem identified_of_claims {kind : Kind} (h : kind.claims config token = true) :
    Identified config token kind := by
  cases kind with
  | root => cases h
  | empty => exact .empty (List.isEmpty_iff.mp h)
  | not => exact .not (of_decide_eq_true h)
  | logic =>
    obtain ⟨op, hop⟩ := Option.isSome_iff_exists.mp h
    exact .logic hop
  | comparison =>
    obtain ⟨⟨key, op, value⟩, hsplit⟩ := Option.isSome_iff_exists.mp h
    exact .comparison hsplit
  | call =>
    obtain ⟨⟨f, inner⟩, hsplit⟩ := Option.isSome_iff_exists.mp h
    exact .call hsplit
  | quoted =>
    obtain ⟨body, hbody⟩ := Option.isSome_iff_exists.mp h
    exact .quoted hbody
  | word =>
    rw [Kind.claims, Bool.and_eq_true, Bool.not_eq_true', Bool.not_eq_true'] at h
    exact .word (fun heq => by rw [heq] at h; cases h.1) h.2

/-- A kind claims every token that is closed and has no blanks at its top. -/
theorem exists_ofToken (config : Config) (hbalanced : Balanced token)
    (hhides : Hides isBlank top token) :
    ∃ kind, Kind.ofToken config token = .ok kind ∧ Identified config token kind := by
  have hclaimed : ∃ kind ∈ Kind.order, kind.claims config token = true := by
    by_cases hempty : token = []
    · exact ⟨.empty, by decide, by rw [hempty]; rfl⟩
    · refine ⟨.word, by decide, ?_⟩
      rw [Kind.claims, hasTopBlank_of_hides hbalanced hhides]
      simpa using hempty
  obtain ⟨kind, hfound⟩ := Option.isSome_iff_exists.mp (List.find?_isSome.mpr hclaimed)
  have hkind := Kind.ofToken_eq_ok.mpr hfound
  exact ⟨kind, hkind, identified_of_claims (Kind.claims_of_ofToken hkind)⟩

end Kinds

/-! ### Errors -/

/-- The errors of queries. A token of no kind is not one of them, and neither is a missing column. -/
def Foreseen : QueryError → Prop
  | .noTypeFound _ | .missingField _ => False
  | _ => True

section Errors

variable {config : Config} {inner : List Char → Except QueryError Built}

theorem failsOnly_tokens {text : List Char} : FailsOnly Foreseen (tokens text) := by
  intro e h
  by_cases hopen : OpenQuote text
  · rw [tokens_of_openQuote hopen] at h
    cases h
    trivial
  · by_cases hunbalanced : Unbalanced (parentheses text)
    · rw [tokens_of_unbalanced hopen hunbalanced] at h
      cases h
      trivial
    · obtain ⟨parts, hparts⟩ := exists_tokens_iff.mpr ((balanced_iff hopen).mpr hunbalanced)
      cases hparts.symm.trans h

theorem foreseen_tooDeep {limit : Nat} : ∀ e, e = .tooDeep limit → Foreseen e := by
  rintro e rfl
  trivial

theorem failsOnly_term {limit height : Nat} {node : Node} :
    FailsOnly Foreseen (do return Pending.term (← Built.within limit node height)) :=
  (failsOnly_within.imp foreseen_tooDeep).bind fun _ _ => .ok _

theorem failsOnly_pending (hinner : ∀ text, FailsOnly Foreseen (inner text)) {token : List Char}
    (hbalanced : Balanced token) (hhides : Hides isBlank top token) :
    FailsOnly Foreseen (pending config inner token) := by
  obtain ⟨kind, hkind, hidentified⟩ := exists_ofToken config hbalanced hhides
  rw [pending, hkind]
  refine (FailsOnly.ok kind).bind fun _ heq => ?_
  cases heq
  cases hidentified with
  | empty _ => exact failsOnly_term
  | not _ => exact .ok _
  | logic hop =>
    simp only [hop]
    exact .ok _
  | comparison hsplit =>
    simp only [hsplit]
    exact (hinner _).bind fun _ _ => (hinner _).bind fun _ _ => failsOnly_term
  | call hsplit =>
    simp only [hsplit]
    obtain ⟨args, hargs, -⟩ := exists_arguments hsplit
    rw [hargs]
    refine (FailsOnly.ok args).bind fun _ _ => ?_
    refine (FailsOnly.mapM fun arg _ => hinner arg).bind fun _ _ => ?_
    refine FailsOnly.bind ?_ fun _ _ => failsOnly_term
    rw [Function.checkArity]
    split
    · exact .ok _
    · exact .error trivial
  | quoted hbody =>
    simp only [hbody]
    exact failsOnly_term
  | word _ _ => exact failsOnly_term

theorem failsOnly_buildFrom (levels : Nat) (text : List Char) :
    FailsOnly Foreseen (buildFrom config levels text) := by
  induction levels generalizing text with
  | zero => exact .error trivial
  | succ levels ih =>
    rw [buildFrom]
    refine failsOnly_tokens.bind fun parts hparts => ?_
    refine (FailsOnly.mapM fun token htoken => ?_).bind fun items _ => ?_
    · exact failsOnly_pending ih (balanced_of_tokens hparts token htoken)
        (hides_of_tokens hparts token htoken)
    · refine (failsOnly_fold.imp ?_).bind fun _ _ => failsOnly_within.imp foreseen_tooDeep
      rintro e (rfl | rfl | ⟨name, rfl⟩) <;> trivial

end Errors

/-- No query fails because a token is of no kind or a column is missing. Every token of every text that
is split, be it a query or a part of one at any depth, is claimed by a kind, and what that kind is asked
for is found; and when the negations of a sequence have been checked, each of them has its operand. -/
theorem build_foreseen (config : Config) :
    (∀ query e, build config query = .error e →
      (∀ token, e ≠ .noTypeFound token) ∧ ∀ name, e ≠ .missingField name) ∧
    (∀ text parts, tokens text = .ok parts → ∀ token ∈ parts,
      ∃ kind, Kind.ofToken config token = .ok kind ∧ Identified config token kind) ∧
    ∀ limit items, checkNots items = .ok () →
      ∀ e, foldNots limit items = .error e → e = .tooDeep limit := by
  refine ⟨fun query e h => ?_, fun text parts hparts token htoken => ?_, fun limit items hcheck => ?_⟩
  · have hforeseen : Foreseen e := failsOnly_buildFrom _ query e (map_eq_error.mp h)
    refine ⟨fun token heq => ?_, fun name heq => ?_⟩
    · rwa [heq] at hforeseen
    · rwa [heq] at hforeseen
  · exact exists_ofToken config (balanced_of_tokens hparts token htoken)
      (hides_of_tokens hparts token htoken)
  · exact failsOnly_foldNots hcheck

end RowSearch.Query
