import RowSearch.Proofs.Level
import RowSearch.Proofs.Token
/-!
# Errors of structure

An open quote and parentheses that do not match are found by one look at the query from its start, or
not at all. Both are said here without the scanners: a quote is open when the text behind it has no
end for its span, and parentheses match when their running depth never is negative and ends at zero.
The argument is that every fragment on which building goes on one level deeper is balanced when the
query is, whatever layout was taken out of it and wherever it was cut, and that splitting a balanced
text succeeds.
-/

namespace RowSearch.Query

open Zone (top)

/-! ### Open quotes -/

/-- A text outside of which no quoted span reaches: a backslash comes with the character behind it,
and each quote with the span that it opens. -/
inductive Outside : List Char → Prop
  | nil : Outside []
  | escape (c : Char) {rest : List Char} : Outside rest → Outside ('\\' :: c :: rest)
  | span {body rest : List Char} :
    QuoteBody body → Outside rest → Outside ('"' :: (body ++ '"' :: rest))
  | plain {c : Char} {rest : List Char} :
    c ≠ '\\' → c ≠ '"' → Outside rest → Outside (c :: rest)

/-- The text behind a quote ends the span that the quote opens. -/
def EndsSpan (text : List Char) : Prop :=
  ∃ body rest, QuoteBody body ∧ text = body ++ '"' :: rest

/-- Outside of all spans stands a quote, not escaped, whose span does not end. -/
def OpenQuote (text : List Char) : Prop :=
  ∃ before after, Outside before ∧ text = before ++ '"' :: after ∧ ¬EndsSpan after

theorem run_span {body : List Char} (h : QuoteBody body) (d : Nat) (rest : List Char) :
    (⟨d, false, false⟩ : Zone).run ('"' :: (body ++ '"' :: rest)) =
      (⟨d, false, false⟩ : Zone).run rest := by
  have hopen : (⟨d, false, false⟩ : Zone).step (Mark.ofChar '"') = ⟨d, true, false⟩ := rfl
  have hclose : (⟨d, true, false⟩ : Zone).step (Mark.ofChar '"') = ⟨d, false, false⟩ := rfl
  rw [Zone.run_cons, hopen, Zone.run_append, Zone.run_eq_of_run? (Zone.run?_quoteBody h),
    Zone.run_cons, hclose]

theorem Outside.exists_run {text : List Char} (h : Outside text) (d : Nat) :
    ∃ d', (⟨d, false, false⟩ : Zone).run text = ⟨d', false, false⟩ := by
  induction h generalizing d with
  | nil => exact ⟨d, rfl⟩
  | escape c _ ih =>
    rw [Zone.run_escape rfl]
    exact ih d
  | span hbody _ ih =>
    rw [run_span hbody]
    exact ih d
  | plain hescape hquote _ ih =>
    obtain ⟨d', hstep⟩ := Segment.exists_step_plain (d := d) (q := false) hescape hquote
    rw [Zone.run_cons, hstep]
    exact ih d'

theorem run_quoted_of_not_endsSpan {text : List Char} (h : ¬EndsSpan text) (d : Nat) :
    ((⟨d, true, false⟩ : Zone).run text).quoted = true := by
  induction text using units_induction generalizing d with
  | nil => rfl
  | dangling => rfl
  | escape c rest ih =>
    rw [Zone.run_escape rfl]
    refine ih ?_ d
    intro h
    obtain ⟨body, after, hbody, rfl⟩ := h
    exact h ⟨'\\' :: c :: body, after, .escape c hbody, rfl⟩
  | quote rest => exact absurd ⟨[], rest, .nil, rfl⟩ h
  | plain c rest hescape hquote ih =>
    rw [Zone.run_cons, Zone.step_quoted hescape hquote]
    refine ih ?_ d
    intro h
    obtain ⟨body, after, hbody, rfl⟩ := h
    exact h ⟨c :: body, after, .plain hescape hquote hbody, rfl⟩

theorem openQuote_of_run {text : List Char} {d : Nat}
    (h : ((⟨d, false, false⟩ : Zone).run text).quoted = true) : OpenQuote text := by
  -- by length, as behind a whole span the text goes on more than one unit further
  induction hlength : text.length using Nat.strong_induction_on generalizing text d with
  | h n ih =>
    subst hlength
    induction text using units_induction with
    | nil => cases h
    | dangling => cases h
    | escape c rest _ =>
      rw [Zone.run_escape rfl] at h
      have hshorter : rest.length < ('\\' :: c :: rest).length := by
        simp only [List.length_cons]
        omega
      obtain ⟨before, after, hbefore, rfl, hafter⟩ := ih _ hshorter h rfl
      exact ⟨'\\' :: c :: before, after, .escape c hbefore, rfl, hafter⟩
    | quote rest _ =>
      by_cases hends : EndsSpan rest
      · obtain ⟨body, tail, hbody, rfl⟩ := hends
        rw [run_span hbody] at h
        have hshorter : tail.length < ('"' :: (body ++ '"' :: tail)).length := by
          simp only [List.length_cons, List.length_append]
          omega
        obtain ⟨before, after, hbefore, rfl, hafter⟩ := ih _ hshorter h rfl
        refine ⟨'"' :: (body ++ '"' :: before), after, .span hbody hbefore, ?_, hafter⟩
        simp only [List.cons_append, List.append_assoc]
      · exact ⟨[], rest, .nil, rfl, hends⟩
    | plain c rest hescape hquote _ =>
      obtain ⟨d', hstep⟩ := Segment.exists_step_plain (d := d) (q := false) hescape hquote
      rw [Zone.run_cons, hstep] at h
      have hshorter : rest.length < (c :: rest).length := by
        simp only [List.length_cons]
        omega
      obtain ⟨before, after, hbefore, rfl, hafter⟩ := ih _ hshorter h rfl
      exact ⟨c :: before, after, .plain hescape hquote hbefore, rfl, hafter⟩

theorem openQuote_iff {text : List Char} : OpenQuote text ↔ (top.run text).quoted = true := by
  constructor
  · intro h
    obtain ⟨before, after, hbefore, rfl, hafter⟩ := h
    obtain ⟨d, hrun⟩ := hbefore.exists_run 0
    have hopen : (⟨d, false, false⟩ : Zone).step (Mark.ofChar '"') = ⟨d, true, false⟩ := rfl
    rw [Zone.run_append, top, hrun, Zone.run_cons, hopen]
    exact run_quoted_of_not_endsSpan hafter d
  · exact openQuote_of_run

/-! ### Parentheses -/

/-- The parentheses of a text that starts inside of quotes or outside. Those within quotes and behind
a backslash are left out. -/
def parenthesesFrom (inside : Bool) : List Char → List Char
  | [] => []
  | '\\' :: _ :: rest => parenthesesFrom inside rest
  | '"' :: rest => parenthesesFrom (!inside) rest
  | c :: rest =>
    if inside = false ∧ (c = '(' ∨ c = ')') then c :: parenthesesFrom inside rest
    else parenthesesFrom inside rest

def parentheses (text : List Char) : List Char :=
  parenthesesFrom false text

def openCount (parens : List Char) : Int :=
  parens.count '(' - parens.count ')'

/-- The running depth goes negative or does not end at zero. -/
def Unbalanced (parens : List Char) : Prop :=
  (∃ n, openCount (parens.take n) < 0) ∨ openCount parens ≠ 0

/-- From a depth the running depth stays at zero or above and ends at zero. -/
def Levels (d : Int) (parens : List Char) : Prop :=
  (∀ n, 0 ≤ d + openCount (parens.take n)) ∧ d + openCount parens = 0

@[simp] theorem openCount_nil : openCount [] = 0 := rfl

theorem openCount_opening (parens : List Char) :
    openCount ('(' :: parens) = openCount parens + 1 := by
  simp [openCount]
  omega

theorem openCount_closing (parens : List Char) :
    openCount (')' :: parens) = openCount parens - 1 := by
  simp [openCount]
  omega

theorem not_unbalanced_iff {parens : List Char} : ¬Unbalanced parens ↔ Levels 0 parens := by
  rw [Unbalanced, Levels, not_or, not_exists]
  refine and_congr (forall_congr' fun n => ?_) ?_
  · rw [Int.not_lt, Int.zero_add]
  · rw [Decidable.not_not, Int.zero_add]

theorem levels_nil {d : Nat} : Levels d [] ↔ d = 0 := by
  constructor
  · intro h
    have hend := h.2
    rw [openCount_nil] at hend
    omega
  · intro heq
    subst heq
    exact ⟨fun n => by rw [List.take_nil]; exact Int.le_refl 0, rfl⟩

theorem levels_opening {d : Nat} {parens : List Char} :
    Levels d ('(' :: parens) ↔ Levels (d + 1 : Nat) parens := by
  rw [Levels, Levels, openCount_opening]
  refine and_congr ⟨fun h n => ?_, fun h n => ?_⟩ (by omega)
  · have hn := h (n + 1)
    rw [List.take_succ_cons, openCount_opening] at hn
    omega
  · cases n with
    | zero =>
      rw [List.take_zero, openCount_nil]
      omega
    | succ n =>
      have hn := h n
      rw [List.take_succ_cons, openCount_opening]
      omega

theorem levels_closing {d : Nat} {parens : List Char} :
    Levels (d + 1 : Nat) (')' :: parens) ↔ Levels d parens := by
  rw [Levels, Levels, openCount_closing]
  refine and_congr ⟨fun h n => ?_, fun h n => ?_⟩ (by omega)
  · have hn := h (n + 1)
    rw [List.take_succ_cons, openCount_closing] at hn
    omega
  · cases n with
    | zero =>
      rw [List.take_zero, openCount_nil]
      omega
    | succ n =>
      have hn := h n
      rw [List.take_succ_cons, openCount_closing]
      omega

theorem not_levels_closing {parens : List Char} : ¬Levels (0 : Nat) (')' :: parens) := by
  intro h
  have hfirst := h.1 1
  rw [List.take_succ_cons, openCount_closing, List.take_zero, openCount_nil] at hfirst
  omega

theorem parenthesesFrom_dangling (inside : Bool) : parenthesesFrom inside ['\\'] = [] := by
  cases inside <;> rfl

theorem parenthesesFrom_quote (inside : Bool) (rest : List Char) :
    parenthesesFrom inside ('"' :: rest) = parenthesesFrom (!inside) rest := by
  rw [parenthesesFrom]

theorem parenthesesFrom_plain (inside : Bool) {c : Char} (rest : List Char) (hescape : c ≠ '\\')
    (hquote : c ≠ '"') :
    parenthesesFrom inside (c :: rest) =
      if inside = false ∧ (c = '(' ∨ c = ')') then c :: parenthesesFrom inside rest
      else parenthesesFrom inside rest := by
  rw [parenthesesFrom]
  · exact fun _ _ h _ => hescape h
  · exact hquote

/-- When the quotes of a text are closed, a run comes to its end with nothing open exactly when the
parentheses match. -/
theorem settled_run?_iff {d : Nat} {inside : Bool} {text : List Char}
    (h : ((⟨d, inside, false⟩ : Zone).run text).quoted = false) :
    (∃ z, (⟨d, inside, false⟩ : Zone).run? text = some z ∧ z.Settled) ↔
      Levels d (parenthesesFrom inside text) := by
  induction text using units_induction generalizing d inside with
  | nil =>
    cases h
    rw [parenthesesFrom, levels_nil]
    constructor
    · intro h
      obtain ⟨z, hz, hsettled⟩ := h
      cases hz
      exact hsettled.1
    · intro heq
      subst heq
      exact ⟨_, rfl, rfl, rfl⟩
  | dangling =>
    cases h
    have hrun : (⟨d, false, false⟩ : Zone).run? ['\\'] = some ⟨d, false, true⟩ := by
      rw [Zone.run?_cons, Zone.step?_of_ne_closing (by decide)]
      rfl
    rw [parenthesesFrom_dangling, levels_nil, hrun]
    constructor
    · intro h
      obtain ⟨z, hz, hsettled⟩ := h
      cases hz
      exact hsettled.1
    · intro heq
      subst heq
      exact ⟨_, rfl, rfl, rfl⟩
  | escape c rest ih =>
    rw [Zone.run_escape rfl] at h
    rw [Zone.run?_escape rfl, parenthesesFrom]
    exact ih h
  | quote rest ih =>
    have hstep : (⟨d, inside, false⟩ : Zone).step (Mark.ofChar '"') = ⟨d, !inside, false⟩ := rfl
    rw [Zone.run_cons, hstep] at h
    rw [Zone.run?_cons, Zone.step?_of_ne_closing (by decide), hstep, parenthesesFrom_quote]
    exact ih h
  | plain c rest hescape hquote ih =>
    rw [parenthesesFrom_plain inside rest hescape hquote]
    cases inside with
    | true =>
      rw [Zone.run_cons, Zone.step_quoted hescape hquote] at h
      rw [Zone.run?_cons, Zone.step?_quoted, Zone.step_quoted hescape hquote, if_neg (by simp)]
      exact ih h
    | false =>
      by_cases hopening : c = '('
      · subst hopening
        have hstep : (⟨d, false, false⟩ : Zone).step (Mark.ofChar '(') = ⟨d + 1, false, false⟩ := rfl
        rw [Zone.run_cons, hstep] at h
        rw [Zone.run?_cons, Zone.step?_of_ne_closing (by decide), hstep, if_pos ⟨rfl, .inl rfl⟩,
          levels_opening]
        exact ih h
      · by_cases hclosing : c = ')'
        · subst hclosing
          rw [if_pos ⟨rfl, .inr rfl⟩]
          cases d with
          | zero =>
            refine iff_of_false ?_ not_levels_closing
            intro h
            obtain ⟨z, hz, -⟩ := h
            cases hz
          | succ d =>
            rw [levels_closing]
            exact ih h
        · have hneutral : Mark.ofChar c = .neutral :=
            Mark.ofChar_eq_neutral.mpr ⟨hescape, hquote, hopening, hclosing⟩
          rw [Zone.run_cons, hneutral, Zone.step_neutral] at h
          rw [Zone.run?_cons, hneutral, Zone.step?_neutral, if_neg (by simp [hopening, hclosing])]
          exact ih h

theorem balanced_iff {text : List Char} (h : ¬OpenQuote text) :
    Balanced text ↔ ¬Unbalanced (parentheses text) := by
  rw [openQuote_iff, Bool.not_eq_true] at h
  rw [not_unbalanced_iff]
  exact settled_run?_iff h

/-! ### Splitting into tokens -/

theorem tokens_of_openQuote {text : List Char} (h : OpenQuote text) :
    tokens text = .error .mismatchedQuotes := by
  rw [tokens, normalize_eq_error.mpr ⟨openQuote_iff.mp h, rfl⟩]
  rfl

theorem tokens_of_unbalanced {text : List Char} (hquotes : ¬OpenQuote text)
    (h : Unbalanced (parentheses text)) : tokens text = .error .mismatchedParenthesis := by
  have hspace : ∀ c ∈ [' '], Mark.ofChar c = .neutral := by decide
  have hclosed : (top.run text).quoted = false := by
    rwa [openQuote_iff, Bool.not_eq_true] at hquotes
  have htidy : (top.run (tidy text)).quoted = false := by
    rw [run_tidy_quoted, hclosed]
  cases hsplit : splitAt [' '] (tidy text) with
  | error e =>
    cases eq_mismatchedParenthesis_of_splitAt (List.cons_ne_nil _ _) hspace hsplit htidy
    rw [tokens, normalize_eq_ok.mpr ⟨hclosed, rfl⟩]
    change (splitAt [' '] (tidy text) >>= _) = _
    rw [hsplit]
    rfl
  | ok pieces =>
    have hbalanced := (exists_splitAt_iff (List.cons_ne_nil _ _) hspace).mp ⟨pieces, hsplit⟩
    exact absurd h ((balanced_iff hquotes).mp (balanced_tidy.mp hbalanced))

/-! ### Steps that find no fault with the structure -/

/-- Where a computation fails, the structure of the query is not at fault. -/
def Unstructural {α : Type} (x : Except QueryError α) : Prop :=
  ∀ e, x = .error e → e.isStructural = false

namespace Unstructural

variable {α β : Type}

theorem ok (a : α) : Unstructural (.ok a : Except QueryError α) :=
  FailsOnly.ok a

theorem error {e : QueryError} (h : e.isStructural = false) :
    Unstructural (.error e : Except QueryError α) :=
  FailsOnly.error h

theorem bind {x : Except QueryError α} {f : α → Except QueryError β} (hx : Unstructural x)
    (hf : ∀ a, x = .ok a → Unstructural (f a)) : Unstructural (x >>= f) :=
  FailsOnly.bind hx hf

theorem map {x : Except QueryError α} (f : α → β) (hx : Unstructural x) :
    Unstructural (x.map f) :=
  FailsOnly.map f hx

theorem mapM {f : α → Except QueryError β} {xs : List α} (h : ∀ x ∈ xs, Unstructural (f x)) :
    Unstructural (xs.mapM f) :=
  FailsOnly.mapM h

end Unstructural

theorem unstructural_within {limit height : Nat} {node : Node} :
    Unstructural (Built.within limit node height) := by
  refine failsOnly_within.imp ?_
  rintro e rfl
  rfl

theorem unstructural_term {limit height : Nat} {node : Node} :
    Unstructural (do return Pending.term (← Built.within limit node height)) :=
  unstructural_within.bind fun _ _ => .ok _

theorem unstructural_ofToken {config : Config} {token : List Char} :
    Unstructural (Kind.ofToken config token) := by
  rw [Kind.ofToken]
  split
  · exact .ok _
  · exact .error rfl

theorem unstructural_checkArity {f : Function} {count : Nat} :
    Unstructural (f.checkArity count) := by
  rw [Function.checkArity]
  split
  · exact .ok _
  · exact .error rfl

theorem unstructural_fold {limit : Nat} {items : List Pending} :
    Unstructural (fold limit items) := by
  refine failsOnly_fold.imp ?_
  rintro e (rfl | rfl | ⟨name, rfl⟩) <;> rfl

/-! ### Building from balanced texts -/

section

variable {config : Config} {inner : List Char → Except QueryError Built}

theorem exists_arguments {token text : List Char} {f : Function}
    (h : splitCall? token = some (f, text)) :
    ∃ args, splitAt [','] text = .ok args ∧ ∀ arg ∈ args, Balanced arg := by
  have hcomma : ∀ c ∈ [','], Mark.ofChar c = .neutral := by decide
  have hbalanced := balanced_of_run? (splitCall?_eq_some.mp h).2
  obtain ⟨args, hargs⟩ := (exists_splitAt_iff (List.cons_ne_nil _ _) hcomma).mpr hbalanced
  exact ⟨args, hargs, balanced_of_mem_splitAt (List.cons_ne_nil _ _) hargs⟩

theorem unstructural_pending (hinner : ∀ text, Balanced text → Unstructural (inner text))
    {token : List Char} (htoken : Balanced token) : Unstructural (pending config inner token) := by
  rw [pending]
  refine unstructural_ofToken.bind fun kind _ => ?_
  cases kind with
  | root => exact .error rfl
  | empty => exact unstructural_term
  | not => exact .ok _
  | logic =>
    dsimp only
    split
    · exact .ok _
    · exact .error rfl
  | comparison =>
    dsimp only
    split
    · next key op value hsplit =>
      obtain ⟨hkey, hvalue⟩ := run?_of_splitComparison? hsplit htoken
      refine (hinner key (balanced_of_run? hkey)).bind fun left _ => ?_
      exact (hinner value hvalue).bind fun right _ => unstructural_term
    · exact .error rfl
  | call =>
    dsimp only
    split
    · next f text hsplit =>
      obtain ⟨args, hargs, hbalanced⟩ := exists_arguments hsplit
      rw [hargs]
      refine (Unstructural.ok args).bind fun parts hparts => ?_
      cases hparts
      refine (Unstructural.mapM fun arg harg => hinner arg (hbalanced arg harg)).bind fun _ _ => ?_
      exact unstructural_checkArity.bind fun _ _ => unstructural_term
    · exact .error rfl
  | quoted =>
    dsimp only
    split
    · exact unstructural_term
    · exact .error rfl
  | word => exact unstructural_term

theorem unstructural_buildFrom (levels : Nat) {text : List Char} (h : Balanced text) :
    Unstructural (buildFrom config levels text) := by
  induction levels generalizing text with
  | zero => exact .error rfl
  | succ levels ih =>
    obtain ⟨parts, hparts⟩ := exists_tokens_iff.mpr h
    rw [buildFrom, hparts]
    refine (Unstructural.ok parts).bind fun parts' hparts' => ?_
    cases hparts'
    refine (Unstructural.mapM fun token htoken => ?_).bind fun items _ => ?_
    · exact unstructural_pending (fun _ => ih) (balanced_of_tokens hparts token htoken)
    · exact unstructural_fold.bind fun _ _ => unstructural_within

end

/-! ### The fragments of a query -/

/-- A query and all texts on which building it goes on: both sides of comparisons and the arguments
of calls, at any depth. -/
inductive Fragment (config : Config) (query : List Char) : List Char → Prop
  | whole : Fragment config query query
  | key {text token key value : List Char} {parts : List (List Char)} {op : CompareOp} :
    Fragment config query text → tokens text = .ok parts → token ∈ parts →
    splitComparison? config.extendedOperators token = some (key, op, value) →
    Fragment config query key
  | value {text token key value : List Char} {parts : List (List Char)} {op : CompareOp} :
    Fragment config query text → tokens text = .ok parts → token ∈ parts →
    splitComparison? config.extendedOperators token = some (key, op, value) →
    Fragment config query value
  | argument {text token inner arg : List Char} {parts args : List (List Char)} {f : Function} :
    Fragment config query text → tokens text = .ok parts → token ∈ parts →
    splitCall? token = some (f, inner) → splitAt [','] inner = .ok args → arg ∈ args →
    Fragment config query arg

theorem Fragment.balanced {config : Config} {query text : List Char}
    (h : Fragment config query text) (hquery : Balanced query) : Balanced text := by
  induction h with
  | whole => exact hquery
  | key _ hparts htoken hsplit _ =>
    exact balanced_of_run? (run?_of_splitComparison? hsplit (balanced_of_tokens hparts _ htoken)).1
  | value _ hparts htoken hsplit _ =>
    exact (run?_of_splitComparison? hsplit (balanced_of_tokens hparts _ htoken)).2
  | argument _ _ _ _ hargs harg _ =>
    exact balanced_of_mem_splitAt (List.cons_ne_nil _ _) hargs _ harg

/-! ### The errors of a query -/

theorem build_of_tokens_eq_error {config : Config} {query : List Char} {e : QueryError}
    (h : tokens query = .error e) : build config query = .error e := by
  rw [build, buildFrom, h]
  rfl

theorem unstructural_build {config : Config} {query : List Char} (h : Balanced query) :
    Unstructural (build config query) :=
  (unstructural_buildFrom _ h).map _

/-- The query alone decides whether its structure is at fault, under all settings alike: it is where
a quote is open, and else where the parentheses do not match. If neither is the case then no fragment
of the query has such a fault, on whatever level it is built, and the arguments of every call can be
told apart. -/
theorem build_structural_error_iff (config : Config) (query : List Char) :
    (build config query = .error .mismatchedQuotes ↔ OpenQuote query) ∧
    (¬OpenQuote query →
      (build config query = .error .mismatchedParenthesis ↔ Unbalanced (parentheses query))) ∧
    (¬OpenQuote query → ¬Unbalanced (parentheses query) →
      (∀ e, build config query = .error e → e.isStructural = false) ∧
      ∀ text, Fragment config query text →
        (∀ levels e, buildFrom config levels text = .error e → e.isStructural = false) ∧
        ∀ parts token f inner, tokens text = .ok parts → token ∈ parts →
          splitCall? token = some (f, inner) → ∃ args, splitAt [','] inner = .ok args) := by
  have hbalanced : ¬OpenQuote query → ¬Unbalanced (parentheses query) → Balanced query :=
    fun hquotes => (balanced_iff hquotes).mpr
  refine ⟨⟨fun h => ?_, fun h => build_of_tokens_eq_error (tokens_of_openQuote h)⟩, ?_, ?_⟩
  · by_contra hquotes
    by_cases hparens : Unbalanced (parentheses query)
    · rw [build_of_tokens_eq_error (tokens_of_unbalanced hquotes hparens)] at h
      cases h
    · exact Bool.noConfusion (unstructural_build (hbalanced hquotes hparens) _ h)
  · intro hquotes
    refine ⟨fun h => ?_, fun h => build_of_tokens_eq_error (tokens_of_unbalanced hquotes h)⟩
    by_contra hparens
    exact Bool.noConfusion (unstructural_build (hbalanced hquotes hparens) _ h)
  · intro hquotes hparens
    have hquery := hbalanced hquotes hparens
    refine ⟨unstructural_build hquery, fun text htext => ⟨fun levels => ?_, ?_⟩⟩
    · exact unstructural_buildFrom levels (htext.balanced hquery)
    · intro parts token f inner _ _ hsplit
      obtain ⟨args, hargs, -⟩ := exists_arguments hsplit
      exact ⟨args, hargs⟩

end RowSearch.Query
