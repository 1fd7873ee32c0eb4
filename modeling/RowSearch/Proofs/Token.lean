import RowSearch.Proofs.Balance
import RowSearch.Query.Kind
/-!
# The parts of a token

A token that is a comparison, a call or a quoted text is taken apart at places that a scan has found.
Here the places are turned into equations: the token is the parts written one after another with the
symbol, the parentheses or the quotes between them, and each part is balanced when the token is. The
parts of a call and of a quoted text determine the token and are found again in it.
-/

namespace RowSearch.Query

open Text (isBlank Blank Tight)
open Zone (top)

/-! ### Comparisons -/

namespace CompareOp

/-- What stands at the start of a text that starts with a comparison: its first character, and then
at most an equals sign. -/
theorem atStart?_eq_some {extended : Bool} {c : Char} {rest : List Char} {op : CompareOp}
    (h : atStart? extended (c :: rest) = some op) :
    Mark.ofChar c = .neutral ∧
      ((op.symbol.toList = [c]) ∨
        ∃ after, op.symbol.toList = [c, '='] ∧ rest = '=' :: after) := by
  rw [atStart?] at h
  split at h
  · next hlong =>
    simp only [Bool.and_eq_true, Bool.or_eq_true, decide_eq_true_eq] at hlong
    obtain ⟨⟨-, hnext⟩, hc⟩ := hlong
    obtain ⟨after, rfl⟩ := List.head?_eq_some_iff.mp hnext
    rcases hc with (rfl | rfl) | rfl <;> cases h <;> exact ⟨by decide, .inr ⟨after, rfl, rfl⟩⟩
  · split at h
    · next hc =>
      subst hc
      cases h
      exact ⟨by decide, .inl rfl⟩
    · split at h
      · next hc =>
        subst hc
        cases h
        exact ⟨by decide, .inl rfl⟩
      · split at h
        · next hc =>
          subst hc
          cases h
          exact ⟨by decide, .inl rfl⟩
        · cases h

theorem neutral_symbol (op : CompareOp) : ∀ c ∈ op.symbol.toList, Mark.ofChar c = .neutral := by
  cases op <;> decide

end CompareOp

/-- A comparison that a scan finds is written where it is found, at the top. -/
theorem exists_of_mem_comparisonsFrom {extended : Bool} {z : Zone} {start skip place : Nat}
    {text : List Char} {op : CompareOp} (hskip : ∀ c ∈ text.take skip, Mark.ofChar c = .neutral)
    (hz : 0 < skip → z.escaped = false)
    (h : (place, op) ∈ comparisonsFrom extended z start skip text) :
    ∃ before after, text = before ++ op.symbol.toList ++ after ∧ place = start + before.length ∧
      z.run before = top := by
  induction text generalizing z start skip with
  | nil =>
    cases skip <;> cases h
  | cons c rest ih =>
    cases skip with
    | succ skip =>
      have hescaped := hz (Nat.succ_pos skip)
      obtain ⟨before, after, rfl, rfl, hrun⟩ := ih (fun d hd => hskip d (List.mem_cons_of_mem _ hd))
        (fun _ => hescaped) h
      refine ⟨c :: before, after, rfl, by rw [List.length_cons]; omega, ?_⟩
      rw [Zone.run_cons, hskip c List.mem_cons_self, Zone.step_neutral,
        Zone.settle_of_not_escaped hescaped, hrun]
    | zero =>
      rw [comparisonsFrom] at h
      split at h
      · next found hfound =>
        obtain ⟨rfl, hstart⟩ : z = top ∧ CompareOp.atStart? extended (c :: rest) = some found := by
          split at hfound
          · next htop => exact ⟨htop, hfound⟩
          · cases hfound
        obtain ⟨hneutral, hsymbol⟩ := CompareOp.atStart?_eq_some hstart
        rcases List.mem_cons.mp h with heq | hrest
        · cases heq
          rcases hsymbol with hsymbol | ⟨after, hsymbol, rfl⟩
          · exact ⟨[], rest, by rw [hsymbol]; rfl, rfl, rfl⟩
          · exact ⟨[], after, by rw [hsymbol]; rfl, rfl, rfl⟩
        · have hnext : ∀ d ∈ rest.take (found.width - 1), Mark.ofChar d = .neutral := by
            intro d hd
            rcases hsymbol with hsymbol | ⟨after, hsymbol, rfl⟩
            · rw [CompareOp.width, hsymbol] at hd
              exact (List.not_mem_nil hd).elim
            · rw [CompareOp.width, hsymbol] at hd
              rw [List.mem_singleton.mp hd]
              decide
          obtain ⟨before, after, rfl, rfl, hrun⟩ := ih hnext (fun _ => rfl) hrest
          refine ⟨c :: before, after, rfl, by rw [List.length_cons]; omega, ?_⟩
          rw [Zone.run_cons, hneutral, Zone.step_neutral, Zone.settle_of_not_escaped rfl, hrun]
      · obtain ⟨before, after, rfl, rfl, hrun⟩ := ih (fun d hd => (List.not_mem_nil hd).elim)
          (fun hpos => absurd hpos (Nat.lt_irrefl 0)) h
        refine ⟨c :: before, after, rfl, by rw [List.length_cons]; omega, ?_⟩
        rw [Zone.run_cons, hrun]

theorem splitComparison?_eq_some {extended : Bool} {token key value : List Char} {op : CompareOp}
    (h : splitComparison? extended token = some (key, op, value)) :
    token = key ++ op.symbol.toList ++ value ∧ top.run key = top := by
  rw [splitComparison?] at h
  split at h
  · next place found hfound =>
    cases h
    have hmem : (place, op) ∈ comparisonsFrom extended top 0 0 token := by
      rw [comparisons] at hfound
      rw [hfound]
      exact List.mem_singleton_self _
    obtain ⟨before, after, htoken, hplace, hrun⟩ := exists_of_mem_comparisonsFrom
      (fun d hd => (List.not_mem_nil hd).elim) (fun hpos => absurd hpos (Nat.lt_irrefl 0)) hmem
    rw [Nat.zero_add] at hplace
    have htake : token.take place = before := by
      rw [htoken, hplace, List.append_assoc, List.take_left]
    have hdrop : token.drop (place + op.width) = after := by
      rw [htoken, hplace, CompareOp.width, ← List.length_append, List.drop_left]
    rw [htake, hdrop]
    exact ⟨htoken, hrun⟩
  · cases h

theorem run?_of_splitComparison? {extended : Bool} {token key value : List Char} {op : CompareOp}
    (h : splitComparison? extended token = some (key, op, value)) (htoken : Balanced token) :
    top.run? key = some top ∧ Balanced value := by
  obtain ⟨rfl, hkey⟩ := splitComparison?_eq_some h
  obtain ⟨z, hrun, hz⟩ := htoken
  rw [Zone.run?_append, Zone.run?_append] at hrun
  obtain ⟨z', hrest, hvalue⟩ := Option.bind_eq_some_iff.mp hrun
  obtain ⟨z'', hrun', hsymbol⟩ := Option.bind_eq_some_iff.mp hrest
  cases (Zone.run_eq_of_run? hrun').symm.trans hkey
  rw [Zone.run?_neutral rfl op.neutral_symbol] at hsymbol
  cases hsymbol
  exact ⟨hrun', z, hvalue, hz⟩

/-! ### Calls -/

namespace Function

theorem ofKey?_eq_some {key : List Char} {f : Function} : ofKey? key = some f ↔ f.key.toList = key := by
  rw [ofKey?]
  constructor
  · intro h
    simpa using List.find?_some h
  · intro heq
    subst heq
    cases f <;> decide

theorem neutral_key (f : Function) : ∀ c ∈ f.key.toList, Mark.ofChar c = .neutral := by
  cases f <;> decide

end Function

/-- A call is a key and, in parentheses, a text in which no group is left early. -/
theorem splitCall?_eq_some {token inner : List Char} {f : Function} :
    splitCall? token = some (f, inner) ↔
      token = f.key.toList ++ '(' :: (inner ++ [')']) ∧ top.run? inner = some top := by
  constructor
  · intro h
    rw [splitCall?] at h
    split at h
    · cases h
    · next c tail hdrop =>
      have hc : c = '(' := by
        have hhead := List.head?_dropWhile_not (· ≠ '(') token
        rw [hdrop] at hhead
        simpa using hhead
      subst hc
      split at h
      · next g n hkey hlength =>
        split at h
        · next hlast =>
          cases h
          obtain ⟨body, rest, rfl, rfl, hrun⟩ := groupLength?_eq_some.mp hlength
          obtain rfl : rest = [] := by
            rw [List.length_append, List.length_cons] at hlast
            exact List.eq_nil_of_length_eq_zero (by omega)
          rw [List.take_left]
          refine ⟨?_, hrun⟩
          rw [Function.ofKey?_eq_some.mp hkey, ← hdrop]
          exact List.takeWhile_append_dropWhile.symm
        · cases h
      · cases h
  · intro h
    obtain ⟨rfl, hrun⟩ := h
    have hkey : ∀ c ∈ f.key.toList, decide (c ≠ '(') = true := by
      intro c hc
      have hneutral := f.neutral_key c hc
      rw [Mark.ofChar_eq_neutral] at hneutral
      exact decide_eq_true hneutral.2.2.1
    have hlength : groupLength? (inner ++ [')']) = some inner.length :=
      groupLength?_eq_some.mpr ⟨inner, [], rfl, rfl, hrun⟩
    rw [splitCall?, List.dropWhile_append_of_pos hkey, List.takeWhile_append_of_pos hkey,
      List.dropWhile_cons_of_neg (by decide), List.takeWhile_cons_of_neg (by decide),
      List.append_nil]
    dsimp only
    rw [Function.ofKey?_eq_some.mpr rfl, hlength]
    simp

/-! ### Quoted texts -/

theorem unquote?_eq_some {token body : List Char} :
    unquote? token = some body ↔ token = '"' :: (body ++ ['"']) ∧ QuoteBody body := by
  constructor
  · intro h
    rw [unquote?.eq_def] at h
    split at h
    · next rest =>
      split at h
      · next n hlength =>
        split at h
        · next hlast =>
          cases h
          obtain ⟨text, tail, rfl, rfl, hbody⟩ := quoteLength?_eq_some.mp hlength
          obtain rfl : tail = [] := by
            rw [List.length_append, List.length_cons] at hlast
            exact List.eq_nil_of_length_eq_zero (by omega)
          rw [List.take_left]
          exact ⟨rfl, hbody⟩
        · cases h
      · cases h
    · cases h
  · intro h
    obtain ⟨rfl, hbody⟩ := h
    rw [unquote?, quoteLength?_append hbody]
    simp

end RowSearch.Query
