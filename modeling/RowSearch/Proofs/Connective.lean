import RowSearch.Proofs.Cache
import RowSearch.Proofs.Visible
/-!
# Connectives over groups

A query in parentheses means what the query means alone, and `AND`, `OR` and `NOT` between such groups
mean the connectives of logic. The query inside may be anything, as long as it is in normal form and is
one argument when it is split at its commas: it is built one level deeper there, and its value goes
through the group as it is.

That the larger query can be built is all that has to be known. It rules out that a query inside ends
with a backslash, which would take the closing parenthesis out of account.
-/

namespace RowSearch.Query

open Text (isBlank Blank Tight)
open Wildcard (Engine)
open Zone (top)

/-- A query in normal form that is a single argument. -/
structure Lone (query : List Char) : Prop where
  normal : normalize query = .ok query
  single : splitAt [','] query = .ok [query]

abbrev grouped (query : List Char) : List Char :=
  callText .group query

namespace Lone

variable {query : List Char}

/-- The run over the query closes what it opens; a backslash may come last. -/
theorem exists_run? (h : Lone query) :
    ∃ e, ∀ d, (⟨d, false, false⟩ : Zone).run? query = some ⟨d, false, e⟩ := by
  obtain ⟨⟨_, _, e⟩, hrun, rfl, rfl⟩ :=
    (exists_splitAt_iff (List.cons_ne_nil _ _) (by decide)).mp ⟨_, h.single⟩
  refine ⟨e, fun d => ?_⟩
  induction d with
  | zero => exact hrun
  | succ d ih => exact Zone.run?_deeper ih

/-- A query with parentheses around it is left as deep as it was entered, or one level deeper if it
ends with a backslash. -/
theorem run?_grouped (h : Lone query) :
    ∃ k, (k = 0 → top.run? query = some top) ∧
      ∀ d, (⟨d, false, false⟩ : Zone).run? (grouped query) = some ⟨d + k, false, false⟩ := by
  obtain ⟨e, hrun⟩ := h.exists_run?
  have hopen (d : Nat) :
      (⟨d, false, false⟩ : Zone).step? (Mark.ofChar '(') = some ⟨d + 1, false, false⟩ :=
    Zone.step?_of_ne_closing (by decide)
  have hclose (d : Nat) : (⟨d + 1, false, e⟩ : Zone).step? (Mark.ofChar ')') =
      some ((⟨d + 1, false, e⟩ : Zone).step .closing) :=
    Zone.step?_of_ne_top (Zone.deeper_ne_top ⟨d, false, e⟩)
  have hgrouped (d : Nat) : (⟨d, false, false⟩ : Zone).run? (grouped query) =
      some ((⟨d + 1, false, e⟩ : Zone).step .closing) := by
    change (⟨d, false, false⟩ : Zone).run? ('(' :: (query ++ [')'])) = _
    rw [Zone.run?_cons, hopen, Option.bind_some, Zone.run?_append, hrun, Option.bind_some,
      Zone.run?_cons, hclose]
    rfl
  cases e with
  | false => exact ⟨0, fun _ => hrun 0, hgrouped⟩
  | true => exact ⟨1, fun h => absurd h Nat.one_ne_zero, hgrouped⟩

end Lone

/-! ### Rows of groups and keywords -/

theorem Lone.laid {query : List Char} (h : Lone query) (hrun : top.run? query = some top) :
    Laid (grouped query) where
  toSolid := solid_callText hrun .group
  head := by
    intro c hc
    cases hc
    decide
  firm := firm_callText .group query
  tidy := (tidyFrom_callText .group query 0 false).trans
    (congrArg (callText .group) (tidyFrom_eq_self_of_normalize h.normal))

theorem laid_keyword (op : LogicOp) : Laid op.keyword.toList :=
  laid_of_letters (by cases op <;> decide) (by cases op <;> decide)

theorem laid_not : Laid "NOT".toList :=
  laid_of_letters (by decide) (by decide)

def joined (op : LogicOp) (left right : List Char) : List Char :=
  [' '].intercalate [grouped left, op.keyword.toList, grouped right]

def negated (query : List Char) : List Char :=
  [' '].intercalate ["NOT".toList, grouped query]

section Build

variable {config : Config} {levels : Nat} {left right query : List Char}

/-- A row of groups can be balanced only if the queries in them close what they open. -/
theorem closed_of_joined {op : LogicOp} (hleft : Lone left) (hright : Lone right)
    (h : Balanced (joined op left right)) :
    top.run? left = some top ∧ top.run? right = some top := by
  obtain ⟨k, hk, hleftRun⟩ := hleft.run?_grouped
  obtain ⟨m, hm, hrightRun⟩ := hright.run?_grouped
  have hspace (d : Nat) : (⟨d, false, false⟩ : Zone).run? [' '] = some ⟨d, false, false⟩ :=
    Zone.run?_neutral rfl (by decide)
  have hkeyword (d : Nat) :
      (⟨d, false, false⟩ : Zone).run? op.keyword.toList = some ⟨d, false, false⟩ :=
    Zone.run?_neutral rfl (by cases op <;> decide)
  have hrun : top.run? (joined op left right) = some ⟨0 + k + m, false, false⟩ := by
    rw [joined, List.intercalate_cons_cons, List.intercalate_cons_cons, List.intercalate_singleton,
      top]
    simp only [Zone.run?_append, hleftRun, hspace, hkeyword, hrightRun, Option.bind_some]
  have hdepth : 0 + k + m = 0 := (h.settled hrun).1
  exact ⟨hk (by omega), hm (by omega)⟩

theorem closed_of_negated (hquery : Lone query) (h : Balanced (negated query)) :
    top.run? query = some top := by
  obtain ⟨k, hk, hqueryRun⟩ := hquery.run?_grouped
  have hnot : top.run? "NOT".toList = some top := Zone.run?_neutral rfl (by decide)
  have hspace : top.run? [' '] = some top := Zone.run?_neutral rfl (by decide)
  have hrun : top.run? (negated query) = some ⟨0 + k, false, false⟩ := by
    rw [negated, List.intercalate_cons_cons, List.intercalate_singleton, Zone.run?_append,
      Zone.run?_append, hnot, Option.bind_some, hspace, Option.bind_some]
    exact hqueryRun 0
  have hdepth : 0 + k = 0 := (h.settled hrun).1
  exact hk (by omega)

theorem closed_of_grouped (hquery : Lone query) (h : Balanced (grouped query)) :
    top.run? query = some top := by
  obtain ⟨k, hk, hqueryRun⟩ := hquery.run?_grouped
  have hdepth : 0 + k = 0 := (h.settled (hqueryRun 0)).1
  exact hk (by omega)

def groupOf (built : Built) : Built :=
  ⟨.call .group [built.node], built.height + 1⟩

theorem eq_groupOf_of_reads {inner : List Char → Except QueryError Built} (hquery : Lone query)
    (hrun : top.run? query = some top) {item : Pending}
    (h : Reads config inner (grouped query) item) :
    ∃ built, inner query = .ok built ∧ item = .term (groupOf built) := by
  obtain ⟨built, hbuilt, hitem, -⟩ := (reads_callText hrun hquery.single).mp h
  exact ⟨built, hbuilt, hitem⟩

theorem build_joined {op : LogicOp} (hleft : Lone left) (hright : Lone right) {built : Built}
    (h : buildFrom config (levels + 1) (joined op left right) = .ok built) :
    ∃ x y, buildFrom config levels left = .ok x ∧ buildFrom config levels right = .ok y ∧
      built.node = .root [.logic op (groupOf x).node (groupOf y).node] := by
  obtain ⟨parts, items, terms, hparts, hitems, hterms, rfl, -⟩ := buildFrom_eq_ok.mp h
  obtain ⟨hleftRun, hrightRun⟩ :=
    closed_of_joined hleft hright (exists_tokens_iff.mp ⟨parts, hparts⟩)
  have hlaid : ∀ piece ∈ [grouped left, op.keyword.toList, grouped right], Laid piece :=
    List.forall_mem_cons.mpr ⟨hleft.laid hleftRun, List.forall_mem_cons.mpr ⟨laid_keyword op,
      List.forall_mem_singleton.mpr (hright.laid hrightRun)⟩⟩
  cases hparts.symm.trans (tokens_intercalate (List.cons_ne_nil _ _) hlaid)
  rcases hitems with _ | ⟨hfirst, _ | ⟨hsecond, _ | ⟨hthird, _ | _⟩⟩⟩
  obtain ⟨x, hx, rfl⟩ := eq_groupOf_of_reads hleft hleftRun hfirst
  obtain ⟨y, hy, rfl⟩ := eq_groupOf_of_reads hright hrightRun hthird
  cases hsecond.unique (reads_keyword op)
  obtain ⟨-, links, hlinks, hfold⟩ := fold_eq_ok.mp hterms
  cases foldNots_eq_ok.mpr hlinks
  cases hfold with
  | term hfold =>
    cases hfold with
    | logic hbuilt hfold =>
      cases hfold
      obtain ⟨rfl, -⟩ := Built.within_eq_ok.mp hbuilt
      exact ⟨x, y, hx, hy, rfl⟩

theorem build_negated (hquery : Lone query) {built : Built}
    (h : buildFrom config (levels + 1) (negated query) = .ok built) :
    ∃ x, buildFrom config levels query = .ok x ∧ built.node = .root [.not (groupOf x).node] := by
  obtain ⟨parts, items, terms, hparts, hitems, hterms, rfl, -⟩ := buildFrom_eq_ok.mp h
  have hrun := closed_of_negated hquery (exists_tokens_iff.mp ⟨parts, hparts⟩)
  have hlaid : ∀ piece ∈ ["NOT".toList, grouped query], Laid piece :=
    List.forall_mem_cons.mpr ⟨laid_not, List.forall_mem_singleton.mpr (hquery.laid hrun)⟩
  cases hparts.symm.trans (tokens_intercalate (List.cons_ne_nil _ _) hlaid)
  rcases hitems with _ | ⟨hfirst, _ | ⟨hsecond, _ | _⟩⟩
  cases hfirst.unique reads_not
  obtain ⟨x, hx, rfl⟩ := eq_groupOf_of_reads hquery hrun hsecond
  obtain ⟨-, links, hlinks, hfold⟩ := fold_eq_ok.mp hterms
  obtain ⟨operand, hoperand, hlinks⟩ := bind_eq_ok.mp (foldNots_eq_ok.mpr hlinks)
  cases hoperand
  obtain ⟨built, hbuilt, hlinks⟩ := bind_eq_ok.mp hlinks
  cases hlinks
  cases hfold with
  | term hfold =>
    cases hfold
    obtain ⟨rfl, -⟩ := Built.within_eq_ok.mp hbuilt
    exact ⟨x, hx, rfl⟩

theorem build_grouped (hquery : Lone query) {built : Built}
    (h : buildFrom config (levels + 1) (grouped query) = .ok built) :
    ∃ x, buildFrom config levels query = .ok x ∧ built.node = .root [(groupOf x).node] := by
  obtain ⟨parts, items, terms, hparts, hitems, hterms, rfl, -⟩ := buildFrom_eq_ok.mp h
  have hrun := closed_of_grouped hquery (exists_tokens_iff.mp ⟨parts, hparts⟩)
  have hlaid : ∀ piece ∈ [grouped query], Laid piece :=
    List.forall_mem_singleton.mpr (hquery.laid hrun)
  have htokens := tokens_intercalate (List.cons_ne_nil _ _) hlaid
  rw [List.intercalate_singleton] at htokens
  cases hparts.symm.trans htokens
  rcases hitems with _ | ⟨hfirst, _ | _⟩
  obtain ⟨x, hx, rfl⟩ := eq_groupOf_of_reads hquery hrun hfirst
  obtain ⟨-, links, hlinks, hfold⟩ := fold_eq_ok.mp hterms
  cases foldNots_eq_ok.mpr hlinks
  cases hfold with
  | term hfold =>
    cases hfold
    exact ⟨x, hx, rfl⟩

end Build

/-! ### What the trees mean -/

def found (engine : Engine) (config : Config) (row : Row) (node : Node) : Bool :=
  (node.holds (plainMatcher engine) config row).run

section Eval

variable {engine : Engine} {config : Config} {row : Row}

theorem eval_group (node : Node) :
    (Node.call .group [node]).eval (plainMatcher engine) config row =
      node.eval (plainMatcher engine) config row := by
  simp only [Node.eval, Node.evalAll]
  rfl

theorem found_group (node : Node) :
    found engine config row (.call .group [node]) = found engine config row node := by
  rw [found, Node.holds, eval_group]
  rfl

theorem found_root (node : Node) :
    found engine config row (.root [node]) = found engine config row node := by
  rw [found, Node.holds, Node.eval]
  rfl

theorem found_and (x y : Node) :
    found engine config row (.logic .and x y) =
      (found engine config row x && found engine config row y) := by
  rw [found, Node.holds, Node.eval]
  change (truthy (plainMatcher engine) config row
    (if found engine config row x = true then Value.bool (found engine config row y) else .bool false)).run = _
  cases found engine config row x with
  | false => rfl
  | true => rfl

theorem found_or (x y : Node) :
    found engine config row (.logic .or x y) =
      (found engine config row x || found engine config row y) := by
  rw [found, Node.holds, Node.eval]
  change (truthy (plainMatcher engine) config row
    (if found engine config row x = true then .bool true else Value.bool (found engine config row y))).run = _
  cases found engine config row x with
  | false => rfl
  | true => rfl

theorem found_not (node : Node) :
    found engine config row (.not node) = !found engine config row node := by
  rw [found, Node.holds, Node.eval]
  rfl

end Eval

end RowSearch.Query

namespace RowSearch.Search

open Query
open Wildcard (Engine PatternCache)

/-- Whether a row matches, when nothing has been cached yet. -/
def verdict (search : Search) (row : Row) (engine : Engine) : Except QueryError Bool :=
  ((search.test row engine).run .empty).1

theorem verdict_eq (search : Search) (row : Row) (engine : Engine) :
    search.verdict row engine = match search.missing? row with
      | some field => .error (.missingField field.name)
      | none => .ok (found engine search.config row search.root) := by
  have hplain : search.verdict row engine = (search.testBy (plainMatcher engine) row).run :=
    (search.agrees_test row .empty PatternCache.sound_empty).1
  rw [hplain, testBy]
  cases search.missing? row with
  | some field => rfl
  | none => rfl

theorem build_of_buildFrom {query : String} {fields : List Field} {config : Config} {built : Built}
    (h : buildFrom config config.maxDepth.toNat query.toList = .ok built) :
    build query fields config = .ok { query, fields, config, root := built.node } := by
  have hbuild : Query.build config query.toList = .ok built.node :=
    map_eq_ok.mpr ⟨built, buildFrom_succ h, rfl⟩
  rw [build, hbuild]
  rfl

theorem exists_buildFrom {query : String} {fields : List Field} {config : Config} {search : Search}
    (h : build query fields config = .ok search) :
    ∃ built, buildFrom config (config.maxDepth.toNat + 1) query.toList = .ok built ∧
      search = { query, fields, config, root := built.node } := by
  obtain ⟨root, hroot, rfl⟩ := map_eq_ok.mp h
  obtain ⟨built, hbuilt, rfl⟩ := map_eq_ok.mp hroot
  exact ⟨built, hbuilt, rfl⟩

section Verdicts

variable {config : Config} {fields : List Field} {query q q₁ q₂ : String} {search : Search}

/-- Searches for the same fields fail at the same rows, and where they do not the trees decide. -/
theorem verdict_eq_of_found {engine : Engine} {row : Row} {s₁ s₂ : Search} {f : Bool → Bool → Bool}
    (h₁ : search.missing? row = s₁.missing? row) (h₂ : s₁.missing? row = s₂.missing? row)
    (h : found engine search.config row search.root =
      f (found engine s₁.config row s₁.root) (found engine s₂.config row s₂.root)) :
    search.verdict row engine = do return f (← s₁.verdict row engine) (← s₂.verdict row engine) := by
  rw [verdict_eq, verdict_eq, verdict_eq, h₁, h₂, h]
  cases s₂.missing? row with
  | some field => rfl
  | none => rfl

theorem verdict_eq_of_found_not {engine : Engine} {row : Row} {s : Search}
    (hfields : search.missing? row = s.missing? row)
    (h : found engine search.config row search.root = !found engine s.config row s.root) :
    search.verdict row engine = do return !(← s.verdict row engine) := by
  rw [verdict_eq, verdict_eq, hfields, h]
  cases s.missing? row with
  | some field => rfl
  | none => rfl

theorem verdict_joined {op : LogicOp} (htext : query.toList = joined op q₁.toList q₂.toList)
    (h₁ : Lone q₁.toList) (h₂ : Lone q₂.toList) (h : build query fields config = .ok search) :
    ∃ s₁ s₂, build q₁ fields config = .ok s₁ ∧ build q₂ fields config = .ok s₂ ∧
      ∀ engine row, search.verdict row engine = do
        return (match op with | .and => and | .or => or)
          (← s₁.verdict row engine) (← s₂.verdict row engine) := by
  obtain ⟨built, hbuilt, rfl⟩ := exists_buildFrom h
  rw [htext] at hbuilt
  obtain ⟨x, y, hx, hy, hnode⟩ := build_joined h₁ h₂ hbuilt
  refine ⟨_, _, build_of_buildFrom hx, build_of_buildFrom hy, fun engine row => ?_⟩
  refine verdict_eq_of_found rfl rfl ?_
  dsimp only
  rw [hnode, found_root]
  cases op with
  | and => rw [found_and, groupOf, groupOf, found_group, found_group]
  | or => rw [found_or, groupOf, groupOf, found_group, found_group]

theorem verdict_negated (htext : query.toList = negated q.toList) (hq : Lone q.toList)
    (h : build query fields config = .ok search) :
    ∃ s, build q fields config = .ok s ∧
      ∀ engine row, search.verdict row engine = do return !(← s.verdict row engine) := by
  obtain ⟨built, hbuilt, rfl⟩ := exists_buildFrom h
  rw [htext] at hbuilt
  obtain ⟨x, hx, hnode⟩ := build_negated hq hbuilt
  refine ⟨_, build_of_buildFrom hx, fun engine row => ?_⟩
  refine verdict_eq_of_found_not rfl ?_
  dsimp only
  rw [hnode, found_root, found_not, groupOf, found_group]

theorem verdict_grouped (htext : query.toList = grouped q.toList) (hq : Lone q.toList)
    (h : build query fields config = .ok search) :
    ∃ s, build q fields config = .ok s ∧ search.root = .root [.call .group [s.root]] ∧
      ∀ engine row, search.verdict row engine = s.verdict row engine := by
  obtain ⟨built, hbuilt, rfl⟩ := exists_buildFrom h
  rw [htext] at hbuilt
  obtain ⟨x, hx, hnode⟩ := build_grouped hq hbuilt
  refine ⟨_, build_of_buildFrom hx, hnode, fun engine row => ?_⟩
  rw [verdict_eq, verdict_eq]
  dsimp only
  rw [hnode, found_root, groupOf, found_group]
  rfl

end Verdicts

/-- Queries in parentheses mean what they mean alone, and the connectives between them mean the
connectives of logic. When the larger query can be built, the queries in it can be built as well. -/
theorem verdict_connectives (config : Config) (fields : List Field) (q₁ q₂ : String)
    (h₁ : Lone q₁.toList) (h₂ : Lone q₂.toList) :
    (∀ search, build ("(" ++ q₁ ++ ") AND (" ++ q₂ ++ ")") fields config = .ok search →
      ∃ s₁ s₂, build q₁ fields config = .ok s₁ ∧ build q₂ fields config = .ok s₂ ∧
        ∀ engine row, search.verdict row engine = do
          return (← s₁.verdict row engine) && (← s₂.verdict row engine)) ∧
    (∀ search, build ("(" ++ q₁ ++ ") OR (" ++ q₂ ++ ")") fields config = .ok search →
      ∃ s₁ s₂, build q₁ fields config = .ok s₁ ∧ build q₂ fields config = .ok s₂ ∧
        ∀ engine row, search.verdict row engine = do
          return (← s₁.verdict row engine) || (← s₂.verdict row engine)) ∧
    (∀ search, build ("NOT (" ++ q₁ ++ ")") fields config = .ok search →
      ∃ s₁, build q₁ fields config = .ok s₁ ∧
        ∀ engine row, search.verdict row engine = do return !(← s₁.verdict row engine)) ∧
    (∀ search, build ("(" ++ q₁ ++ ")") fields config = .ok search →
      ∃ s₁, build q₁ fields config = .ok s₁ ∧ search.root = .root [.call .group [s₁.root]] ∧
        ∀ engine row, search.verdict row engine = s₁.verdict row engine) := by
  have hand : ("(" ++ q₁ ++ ") AND (" ++ q₂ ++ ")").toList = joined .and q₁.toList q₂.toList := by
    simp [joined, callText, Function.key, LogicOp.keyword]
  have hor : ("(" ++ q₁ ++ ") OR (" ++ q₂ ++ ")").toList = joined .or q₁.toList q₂.toList := by
    simp [joined, callText, Function.key, LogicOp.keyword]
  have hnot : ("NOT (" ++ q₁ ++ ")").toList = negated q₁.toList := by
    simp [negated, callText, Function.key]
  have hgroup : ("(" ++ q₁ ++ ")").toList = grouped q₁.toList := by
    simp [callText, Function.key]
  exact ⟨fun _ => verdict_joined hand h₁ h₂, fun _ => verdict_joined hor h₁ h₂,
    fun _ => verdict_negated hnot h₁, fun _ => verdict_grouped hgroup h₁⟩

theorem verdict_connectives_of_comparison_and_phrase :
    ∃ search s₁ s₂, build "(a=1 OR b) AND (c (d) \"x, (y\")" [] .standard = .ok search ∧
      build "a=1 OR b" [] .standard = .ok s₁ ∧ build "c (d) \"x, (y\"" [] .standard = .ok s₂ ∧
        ∀ engine row, search.verdict row engine = do
          return (← s₁.verdict row engine) && (← s₂.verdict row engine) := by
  have hsearch : (build "(a=1 OR b) AND (c (d) \"x, (y\")" [] .standard).isOk = true := by
    decide +kernel
  cases h : build "(a=1 OR b) AND (c (d) \"x, (y\")" [] .standard with
  | error e =>
    rw [h] at hsearch
    cases hsearch
  | ok search =>
    obtain ⟨s₁, s₂, h₁, h₂, hrow⟩ :=
      (verdict_connectives .standard [] "a=1 OR b" "c (d) \"x, (y\""
        ⟨by decide +kernel, by decide +kernel⟩ ⟨by decide +kernel, by decide +kernel⟩).1 search h
    exact ⟨search, s₁, s₂, rfl, h₁, h₂, hrow⟩

end RowSearch.Search
