import RowSearch.Proofs.Connective
import RowSearch.Proofs.Measure
/-!
# Queries side by side

Two queries with a space between them are one query: its terms are those of the first and then those
of the second, and it matches where both match. What has to be shown is that nothing of one query
reaches into the other. The run over the first query ends at the top, so the space is a separator and
the second query is scanned as if it stood alone; the tokens are those of both, and as each query can
be built by itself, no operator of the one is in want of an operand of the other.

Only a text that ends with an operator or a backslash, or one that starts with an operator, could lose
the space or take it out of account.
-/

namespace RowSearch.Query

open Text (isBlank Tight)
open Wildcard (Engine)
open Zone (top)

/-! ### Texts that can stand side by side -/

/-- Whether a text ends with a backslash that nothing takes out of account. -/
def dangles : List Char → Bool
  | [] => false
  | ['\\'] => true
  | '\\' :: _ :: rest => dangles rest
  | _ :: rest => dangles rest

theorem dangles_plain {c : Char} (h : c ≠ '\\') (rest : List Char) :
    dangles (c :: rest) = dangles rest := by
  rw [dangles]
  · exact fun heq _ => h heq
  · exact fun _ _ heq _ => h heq

/-- A backslash is left over behind a text just if the text ends with one. -/
theorem run_escaped {z : Zone} (hz : z.escaped = false) (text : List Char) :
    (z.run text).escaped = dangles text := by
  induction text using units_induction generalizing z with
  | nil => exact hz
  | dangling =>
    obtain ⟨d, q, e⟩ := z
    cases hz
    rfl
  | escape c rest ih =>
    rw [Zone.run_escape hz, ih hz]
    rfl
  | quote rest ih =>
    obtain ⟨d, q, e⟩ := z
    cases hz
    rw [Zone.run_cons, dangles_plain (by decide)]
    exact ih rfl
  | plain c rest hescape hquote ih =>
    obtain ⟨d, q, e⟩ := z
    cases hz
    obtain ⟨d', hstep⟩ := Segment.exists_step_plain (d := d) (q := q) hescape hquote
    rw [Zone.run_cons, hstep, dangles_plain hescape]
    exact ih rfl

/-- A query in normal form that is not empty. -/
structure Normal (query : List Char) : Prop where
  normal : normalize query = .ok query
  nonempty : query ≠ []

/-- Two queries in normal form of which the first does not end, and the second does not start, with
something that reaches over a space. -/
structure Adjoins (left right : List Char) : Prop where
  leftNormal : Normal left
  rightNormal : Normal right
  last : ∀ c ∈ ['=', '<', '>'], left.getLast? ≠ some c
  closed : dangles left = false
  first : ∀ symbol ∈ ["=", "<", ">", "!="], ¬symbol.toList <+: right

section Texts

variable {left right text : List Char}

theorem Normal.tidy_eq (h : Normal text) : tidy text = text :=
  (normalize_eq_ok.mp h.normal).2.symm

theorem Normal.tight (h : Normal text) : Tight text := by
  rw [← h.tidy_eq]
  exact Text.tight_trim _

theorem Normal.exists_first (h : Normal text) : ∃ c rest, text = c :: rest ∧ isBlank c = false := by
  obtain ⟨c, rest, rfl⟩ := List.exists_cons_of_ne_nil h.nonempty
  exact ⟨c, rest, rfl, h.tight.1 c rfl⟩

theorem Normal.exists_last (h : Normal text) :
    ∃ before c, text = before ++ [c] ∧ isBlank c = false := by
  refine ⟨_, _, (List.dropLast_append_getLast h.nonempty).symm, ?_⟩
  exact h.tight.2 _ (List.getLast?_eq_some_getLast h.nonempty)

theorem ne_space_of_not_blank {c : Char} (h : isBlank c = false) : c ≠ ' ' := by
  intro heq
  subst heq
  cases h

/-- A normal text is cut at its spaces as it is. -/
theorem Normal.tokens_eq_ok (h : Normal text) {parts : List (List Char)} :
    tokens text = .ok parts ↔
      ∃ segments, Scans [' '] top text segments ∧ parts = segments.map Text.trim := by
  obtain ⟨c, rest, hcons, hc⟩ := h.exists_first
  obtain ⟨before, d, hconcat, hd⟩ := h.exists_last
  have hbody : trimSeparators [' '] text = text :=
    trimSeparators_eq_self ⟨c, rest, hcons, hc, ne_space_of_not_blank hc⟩
      ⟨before, d, hconcat, hd, ne_space_of_not_blank hd⟩
  have hsplit : splitAt [' '] (tidy text) =
      (segmentsFrom [' '] top 0 text).map fun segments => segments.map Text.trim := by
    rw [h.tidy_eq, splitAt, hbody, if_neg h.nonempty, if_neg (List.cons_ne_nil _ _)]
  rw [Query.tokens_eq_ok, hsplit]
  constructor
  · intro htokens
    obtain ⟨-, pieces, hpieces, rfl⟩ := htokens
    obtain ⟨segments, hsegments, rfl⟩ := map_eq_ok.mp hpieces
    have hscans : Scans [' '] top text segments := scans_of_segmentsFrom (List.cons_ne_nil _ _) hsegments
    exact ⟨segments, hscans, if_neg (List.map_eq_nil_iff.not.mpr hscans.ne_nil)⟩
  · intro htokens
    obtain ⟨segments, hscans, rfl⟩ := htokens
    have hsegments := hscans.segmentsFrom_eq (List.cons_ne_nil _ _) (by decide)
    exact ⟨(normalize_eq_ok.mp h.normal).1, _, map_eq_ok.mpr ⟨segments, hsegments, rfl⟩,
      (if_neg (List.map_eq_nil_iff.not.mpr hscans.ne_nil)).symm⟩

namespace Adjoins

theorem not_startsComparison (h : Adjoins left right) : startsComparison right = false := by
  obtain ⟨c, rest, rfl, -⟩ := h.rightNormal.exists_first
  have hsymbol : c ≠ '=' ∧ c ≠ '<' ∧ c ≠ '>' ∧ (c = '!' → rest.head? ≠ some '=') := by
    refine ⟨?_, ?_, ?_, ?_⟩
    · rintro rfl
      exact h.first "=" (by decide) ⟨rest, rfl⟩
    · rintro rfl
      exact h.first "<" (by decide) ⟨rest, rfl⟩
    · rintro rfl
      exact h.first ">" (by decide) ⟨rest, rfl⟩
    · rintro rfl hhead
      obtain ⟨tail, rfl⟩ := List.head?_eq_some_iff.mp hhead
      exact h.first "!=" (by decide) ⟨tail, rfl⟩
  obtain ⟨heq, hlt, hgt, hbang⟩ := hsymbol
  simpa [startsComparison_cons, isComparison, heq, hlt, hgt] using hbang

theorem glueAfter_eq (h : Adjoins left right) : glueAfter top false left = false := by
  obtain ⟨before, c, hconcat, hc⟩ := h.leftNormal.exists_last
  have hsymbol : ∀ symbol ∈ ['=', '<', '>'], c ≠ symbol := by
    intro symbol hmem heq
    refine h.last symbol hmem ?_
    rw [hconcat, List.getLast?_concat, heq]
  have hcomparison : isComparison c = false := by
    rw [isComparison]
    simp [hsymbol]
  rw [hconcat]
  exact glueAfter_concat hc hcomparison top false before

theorem run?_left (h : Adjoins left right) (hbalanced : Balanced left) : top.run? left = some top := by
  obtain ⟨⟨d, q, e⟩, hrun, hd, hq⟩ := hbalanced
  have hescaped := run_escaped (z := top) rfl left
  rw [Zone.run_eq_of_run? hrun, h.closed] at hescaped
  cases hd
  cases hq
  cases hescaped
  exact hrun

/-- The queries with a space between them are in normal form. -/
theorem normal (h : Adjoins left right) (hrun : top.run? left = some top) :
    Normal (left ++ ' ' :: right) := by
  obtain ⟨c, rest, hcons, hc⟩ := h.leftNormal.exists_first
  obtain ⟨before, d, hconcat, hd⟩ := h.rightNormal.exists_last
  have hfirst : left ++ ' ' :: right = c :: (rest ++ ' ' :: right) := by
    rw [hcons, List.cons_append]
  have hlast : left ++ ' ' :: right = (left ++ ' ' :: before) ++ [d] := by
    rw [hconcat, List.append_assoc, List.cons_append]
  have htight : Tight (left ++ ' ' :: right) := Text.tight_of_ends hfirst hc hlast hd
  have hright : startsComparison (right.dropWhile isBlank) = false := by
    have hstart := Text.trimStart_eq_self h.rightNormal.tight.1
    rw [Text.trimStart] at hstart
    rw [hstart]
    exact h.not_startsComparison
  have happart : Apart left (' ' :: right) := by
    apply apart_of_not_startsComparison
    rw [List.dropWhile_cons_of_pos (by decide)]
    exact hright
  have hspace : tidyFrom top false (' ' :: right) = ' ' :: right := by
    rw [tidyFrom_space rfl (by decide) hright, tidyFrom_glue h.rightNormal.tight.1 _ true false]
    exact congrArg (' ' :: ·) (tidyFrom_eq_self_of_normalize h.rightNormal.normal)
  have htidy : tidyFrom top false (left ++ ' ' :: right) = left ++ ' ' :: right := by
    rw [tidyFrom_append happart, tidyFrom_eq_self_of_normalize h.leftNormal.normal,
      Zone.run_eq_of_run? hrun, h.glueAfter_eq, hspace]
  have hquoted : (top.run (left ++ ' ' :: right)).quoted = false := by
    rw [Zone.run_append, Zone.run_eq_of_run? hrun]
    exact (normalize_eq_ok.mp h.rightNormal.normal).1
  refine ⟨normalize_eq_ok.mpr ⟨hquoted, ?_⟩, by simp⟩
  rw [tidy, htidy, Text.trim_eq_self htight]

end Adjoins

end Texts

/-! ### The tokens of both -/

/-- A text that ends at the top is cut at the separator behind it, and both sides are cut as if they
stood alone. -/
theorem Scans.join {separator : Char} (hneutral : Mark.ofChar separator = .neutral) {z : Zone}
    {x y : List Char} {xs ys : List (List Char)} (hx : Scans [separator] z x xs)
    (hrun : z.run? x = some top) (hy : Scans [separator] top y ys) :
    Scans [separator] z (x ++ separator :: y) (xs ++ ys) := by
  induction hx with
  | done =>
    cases hrun
    exact .cut hy
  | @cut rest segments _ ih =>
    rw [Zone.run?_append, Zone.run?_neutral rfl (by simpa using hneutral)] at hrun
    exact .cut (ih hrun)
  | @keep z z' c rest segments hstep hsep hrest ih =>
    rw [Zone.run?_cons, hstep] at hrun
    obtain ⟨first, more, rfl⟩ := List.exists_cons_of_ne_nil hrest.ne_nil
    refine .keep hstep (fun hcut => hsep ⟨hcut.1, hcut.2.1, ?_⟩) (ih hrun)
    simpa [List.cons_prefix_cons] using hcut.2.2

theorem Adjoins.tokens_eq {left right : List Char} (h : Adjoins left right)
    {parts more : List (List Char)} (hleft : tokens left = .ok parts) (hright : tokens right = .ok more) :
    tokens (left ++ ' ' :: right) = .ok (parts ++ more) := by
  have hrun := h.run?_left (exists_tokens_iff.mp ⟨parts, hleft⟩)
  obtain ⟨segments, hsegments, rfl⟩ := h.leftNormal.tokens_eq_ok.mp hleft
  obtain ⟨others, hothers, rfl⟩ := h.rightNormal.tokens_eq_ok.mp hright
  have hjoin := hsegments.join (by decide) hrun hothers
  exact (h.normal hrun).tokens_eq_ok.mpr ⟨segments ++ others, hjoin, List.map_append.symm⟩

/-! ### The tree of both -/

theorem Adjoins.buildFrom_eq {config : Config} {levels : Nat} {left right : List Char}
    (h : Adjoins left right) {x y : Built} (hx : buildFrom config (levels + 1) left = .ok x)
    (hy : buildFrom config (levels + 1) right = .ok y) :
    ∃ terms others, x = rootOf terms ∧ y = rootOf others ∧
      buildFrom config (levels + 1) (left ++ ' ' :: right) = .ok (rootOf (terms ++ others)) := by
  obtain ⟨parts, items, terms, hparts, hitems, hterms, rfl, htall⟩ := buildFrom_eq_ok.mp hx
  obtain ⟨more, items', others, hmore, hitems', hothers, rfl, htall'⟩ := buildFrom_eq_ok.mp hy
  refine ⟨terms, others, rfl, rfl, buildFrom_eq_ok.mpr ?_⟩
  refine ⟨parts ++ more, items ++ items', terms ++ others, h.tokens_eq hparts hmore,
    List.rel_append hitems hitems', fold_append hterms hothers, rfl, ?_⟩
  rw [tallest_append]
  omega

theorem found_all {engine : Engine} {config : Config} {row : Row} (terms : List Node) :
    (Node.allTrue (plainMatcher engine) config row terms).run = terms.all (found engine config row) := by
  induction terms with
  | nil => rfl
  | cons first rest ih =>
    rw [List.all_cons, ← ih, Node.allTrue]
    change (if found engine config row first = true then _ else _ : Id Bool).run = _
    cases found engine config row first with
    | false => rfl
    | true => rfl

/-- A root matches where all of its terms do, also if there is only one. -/
theorem found_terms {engine : Engine} {config : Config} {row : Row} (terms : List Node) :
    found engine config row (.root terms) = terms.all (found engine config row) := by
  rcases terms with _ | ⟨first, _ | ⟨second, rest⟩⟩
  · rfl
  · rw [found_root, List.all_cons, List.all_nil, Bool.and_true]
  · rw [← found_all, found, Node.holds, Node.eval]
    · rfl
    · simp

end RowSearch.Query

namespace RowSearch.Search

open Query

/-- Two queries that can each be built can be built side by side, with a space between them. The terms
of the query are those of the first and then those of the second, and it matches a row if both match,
and fails at a row if both fail. -/
theorem build_adjoined {config : Config} {fields : List Field} {q₁ q₂ : String} {s₁ s₂ : Search}
    (h : Adjoins q₁.toList q₂.toList) (h₁ : build q₁ fields config = .ok s₁)
    (h₂ : build q₂ fields config = .ok s₂) :
    ∃ search terms₁ terms₂, build (q₁ ++ " " ++ q₂) fields config = .ok search ∧
      s₁.root = .root terms₁ ∧ s₂.root = .root terms₂ ∧ search.root = .root (terms₁ ++ terms₂) ∧
        ∀ engine row, search.verdict row engine = do
          return (← s₁.verdict row engine) && (← s₂.verdict row engine) := by
  obtain ⟨x, hx, rfl⟩ := exists_buildFrom h₁
  obtain ⟨y, hy, rfl⟩ := exists_buildFrom h₂
  obtain ⟨terms, others, rfl, rfl, hboth⟩ := h.buildFrom_eq hx hy
  have htext : (q₁ ++ " " ++ q₂).toList = q₁.toList ++ ' ' :: q₂.toList := by
    simp
  have hbuild : Query.build config (q₁ ++ " " ++ q₂).toList = .ok (rootOf (terms ++ others)).node := by
    rw [htext]
    exact map_eq_ok.mpr ⟨_, hboth, rfl⟩
  refine ⟨{ query := q₁ ++ " " ++ q₂, fields, config, root := (rootOf (terms ++ others)).node },
    terms.map (·.node), others.map (·.node), map_eq_ok.mpr ⟨_, hbuild, rfl⟩, rfl, rfl, ?_,
    fun engine row => ?_⟩
  · exact congrArg Node.root List.map_append
  · refine verdict_eq_of_found rfl rfl ?_
    dsimp only [rootOf]
    rw [found_terms, found_terms, found_terms, List.map_append, List.all_append]

theorem build_adjoined_of_negation_and_escape :
    let s₁ : Search := ⟨"NOT a=\"b (\" OR c\\\\", [], .standard, .root [.logic .or
      (.not (.comparison .eq (.root [.word "a"]) (.root [.quoted "b ("]))) (.word "c\\\\")]⟩
    let s₂ : Search := ⟨"!d, (x OR \"y\\\"\") AND z", [], .standard, .root [.word "!d,",
      .logic .and (.call .group [.root [.logic .or (.word "x") (.quoted "y\\\"")]]) (.word "z")]⟩
    ∃ search, build "NOT a=\"b (\" OR c\\\\ !d, (x OR \"y\\\"\") AND z" [] .standard = .ok search ∧
      ∀ engine row, search.verdict row engine = do
        return (← s₁.verdict row engine) && (← s₂.verdict row engine) := by
  intro s₁ s₂
  have hadjoins : Adjoins s₁.query.toList s₂.query.toList :=
    ⟨⟨by decide +kernel, by decide⟩, ⟨by decide +kernel, by decide⟩, by decide, by decide, by decide⟩
  have h₁ : build s₁.query [] .standard = .ok s₁ := by decide +kernel
  have h₂ : build s₂.query [] .standard = .ok s₂ := by decide +kernel
  obtain ⟨search, -, -, hsearch, -, -, -, hrow⟩ := build_adjoined hadjoins h₁ h₂
  exact ⟨search, hsearch, hrow⟩

end RowSearch.Search
