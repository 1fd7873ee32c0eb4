import RowSearch.Proofs.Measure
import RowSearch.Proofs.Sentence.Layout
/-!
# Building sentences

Every rendering of a sentence is built, and the tree is the one that the sentence stands for. One
level reads each part as its item and folds the items; the queries inside of a part are renderings
with fewer roots, so they are built by the level below. Nothing but the two limits can be in the way.
-/

namespace RowSearch.Query

open Text (isBlank Blank)
open Zone (top)

namespace Sentence

/-! ### Folding the items -/

/-- The trees of a sentence, more than one for a query of several chains. -/
def nodes : {k : Category} → Sentence k → List Node
  | .operand, x => [x.meaning]
  | .term, x => [x.meaning]
  | .unary, x => [x.meaning]
  | .chain, x => [x.meaning]
  | .query, x => x.meaning

def Item.pending : Item → Pending
  | not => .not
  | logic op => .logic op
  | term x => .term (.of x.meaning)

def links : {k : Category} → Sentence k → List Link
  | _, word w => [.term (.of (word w).meaning)]
  | _, phrase p => [.term (.of (phrase p).meaning)]
  | _, call f query => [.term (.of (call f query).meaning)]
  | _, operand x => x.links
  | _, comparison op key value => [.term (.of (comparison op key value).meaning)]
  | _, term x => x.links
  | _, not x => [.term (.of (not x).meaning)]
  | _, unary x => x.links
  | _, link op left right => left.links ++ .logic op :: right.links
  | _, chain x => x.links
  | _, more init last => init.links ++ last.links

theorem heightAll_not (x : Sentence .unary) :
    Node.heightAll (not x).nodes = Node.heightAll x.nodes + 1 := by
  simp only [nodes, meaning, Node.heightAll_singleton, Node.height]

theorem heightAll_link (op : LogicOp) (left : Sentence .chain) (right : Sentence .unary) :
    Node.heightAll (link op left right).nodes =
      max (Node.heightAll left.nodes) (Node.heightAll right.nodes) + 1 := by
  simp only [nodes, meaning, Node.heightAll_singleton, Node.height]

theorem heightAll_more (init : Sentence .query) (last : Sentence .chain) :
    Node.heightAll (more init last).nodes =
      max (Node.heightAll init.nodes) (Node.heightAll last.nodes) :=
  Node.heightAll_append _ _

theorem rootsAll_not (x : Sentence .unary) :
    Node.rootsAll (not x).nodes = Node.rootsAll x.nodes := by
  simp only [nodes, meaning, Node.rootsAll_singleton, Node.roots]

theorem rootsAll_link (op : LogicOp) (left : Sentence .chain) (right : Sentence .unary) :
    Node.rootsAll (link op left right).nodes =
      max (Node.rootsAll left.nodes) (Node.rootsAll right.nodes) := by
  simp only [nodes, meaning, Node.rootsAll_singleton, Node.roots]

theorem rootsAll_more (init : Sentence .query) (last : Sentence .chain) :
    Node.rootsAll (more init last).nodes =
      max (Node.rootsAll init.nodes) (Node.rootsAll last.nodes) :=
  Node.rootsAll_append _ _

theorem links_of_unary (x : Sentence .unary) : x.links = [.term (.of x.meaning)] := by
  cases x with
  | not x => rfl
  | term x =>
    cases x with
    | comparison op key value => rfl
    | operand x => cases x <;> rfl

theorem exists_items {k : Category} (s : Sentence k) :
    ∃ first rest, s.items = first :: rest ∧ ∀ op, first ≠ .logic op := by
  induction s with
  | word | phrase | call | comparison => exact ⟨_, [], rfl, fun _ h => nomatch h⟩
  | operand _ ih | term _ ih | unary _ ih | chain _ ih => exact ih
  | not x _ => exact ⟨.not, x.items, rfl, fun _ h => nomatch h⟩
  | link op left right ih _ =>
    obtain ⟨first, rest, hitems, hfirst⟩ := ih
    exact ⟨first, rest ++ .logic op :: right.items, by rw [items, hitems, List.cons_append], hfirst⟩
  | more init last ih _ =>
    obtain ⟨first, rest, hitems, hfirst⟩ := ih
    exact ⟨first, rest ++ last.items, by rw [items, hitems, List.cons_append], hfirst⟩

theorem checkNots_items {k : Category} (s : Sentence k) (rest : List Pending) :
    checkNots (s.items.map Item.pending ++ rest) = checkNots rest := by
  induction s generalizing rest with
  | word | phrase | call | comparison => cases rest <;> rfl
  | operand _ ih | term _ ih | unary _ ih | chain _ ih => exact ih rest
  | not x ih =>
    obtain ⟨first, others, hitems, hfirst⟩ := x.exists_items
    have hskip : checkNots (.not :: (x.items.map Item.pending ++ rest)) =
        checkNots (x.items.map Item.pending ++ rest) := by
      rw [hitems]
      cases first with
      | logic op => exact absurd rfl (hfirst op)
      | not => rfl
      | term t => rfl
    exact hskip.trans (ih rest)
  | link op left right ihleft ihright =>
    rw [items, List.map_append, List.append_assoc, ihleft, List.map_cons]
    exact ihright rest
  | more init last ihinit ihlast =>
    rw [items, List.map_append, List.append_assoc, ihinit, ihlast]

section Fold

variable {limit : Nat}

theorem within_eq_of {node : Node} (h : node.height ≤ limit) :
    Built.within limit node node.height = .ok (.of node) :=
  if_pos h

theorem foldsNots_items {k : Category} (s : Sentence k) (h : Node.heightAll s.nodes ≤ limit)
    {rest : List Pending} {others : List Link} (hrest : FoldsNots limit rest others) :
    FoldsNots limit (s.items.map Item.pending ++ rest) (s.links ++ others) := by
  induction s generalizing rest others with
  | word | phrase | call | comparison => exact .link _ hrest
  | operand _ ih | term _ ih | unary _ ih | chain _ ih => exact ih h hrest
  | not x ih =>
    have hheight : (Node.not x.meaning).height ≤ limit := by
      rwa [nodes, Node.heightAll_singleton] at h
    rw [heightAll_not] at h
    have hoperand := ih (by omega) hrest
    rw [links_of_unary] at hoperand
    exact .not hoperand (within_eq_of hheight)
  | link op left right ihleft ihright =>
    rw [heightAll_link] at h
    rw [items, links, List.map_append, List.append_assoc, List.append_assoc]
    exact ihleft (by omega) (.link (.logic op) (ihright (by omega) hrest))
  | more init last ihinit ihlast =>
    rw [heightAll_more] at h
    rw [items, links, List.map_append, List.append_assoc, List.append_assoc]
    exact ihinit (by omega) (ihlast (by omega) hrest)

theorem foldLinks_links {k : Category} (s : Sentence k) (h : Node.heightAll s.nodes ≤ limit)
    (done : List Built) (rest : List Link) :
    foldLinks limit done (s.links ++ rest) =
      foldLinks limit ((s.nodes.map Built.of).reverse ++ done) rest := by
  induction s generalizing done rest with
  | word | phrase | call | comparison | not => rfl
  | operand _ ih | term _ ih | unary _ ih | chain _ ih => exact ih h done rest
  | link op left right ihleft ihright =>
    have hheight : (Node.logic op left.meaning right.meaning).height ≤ limit := by
      rwa [nodes, Node.heightAll_singleton] at h
    rw [heightAll_link] at h
    have hleft : Node.heightAll left.nodes ≤ limit := by omega
    have hlogic : (Built.of left.meaning).logic limit op (.of right.meaning) =
        .ok (.of (link op left right).meaning) := within_eq_of hheight
    rw [links, List.append_assoc, ihleft hleft, links_of_unary]
    change ((Built.of left.meaning).logic limit op (.of right.meaning) >>= fun built =>
      foldLinks limit (built :: done) rest) = _
    rw [hlogic]
    rfl
  | more init last ihinit ihlast =>
    rw [heightAll_more] at h
    have hinit : Node.heightAll init.nodes ≤ limit := by omega
    have hlast : Node.heightAll last.nodes ≤ limit := by omega
    have hnodes : (more init last).nodes = init.nodes ++ last.nodes := rfl
    rw [links, List.append_assoc, ihinit hinit, ihlast hlast, hnodes, List.map_append,
      List.reverse_append, List.append_assoc]

theorem fold_items {k : Category} (s : Sentence k) (h : Node.heightAll s.nodes ≤ limit) :
    fold limit (s.items.map Item.pending) = .ok (s.nodes.map Built.of) := by
  have hcheck := s.checkNots_items []
  have hnots := s.foldsNots_items h .nil
  have hlinks := s.foldLinks_links h [] []
  simp only [List.append_nil] at hcheck hnots hlinks
  refine fold_eq_ok.mpr ⟨hcheck, s.links, hnots, foldLinks_eq_ok.mp ?_⟩
  rw [hlinks, foldLinks, List.reverse_reverse]

end Fold

end Sentence

/-! ### Reading the parts -/

theorem splitCall?_of_not_mem {text : List Char} (h : '(' ∉ text) : splitCall? text = none := by
  by_contra hsome
  obtain ⟨⟨f, inner⟩, hcall⟩ := Option.ne_none_iff_exists'.mp hsome
  rw [(splitCall?_eq_some.mp hcall).1] at h
  exact h (List.mem_append_right _ List.mem_cons_self)

theorem hasTopBlankFrom_of_plain {text : List Char}
    (h : ∀ c ∈ text, isBlank c = false ∧ Mark.ofChar c = .neutral) :
    hasTopBlankFrom 0 text = false := by
  induction text with
  | nil => rfl
  | cons c rest ih =>
    obtain ⟨hblank, hneutral⟩ := h c List.mem_cons_self
    have hascii : Text.isAsciiBlank c = false := by
      by_contra hc
      rw [Text.isBlank_of_isAsciiBlank (by simpa using hc)] at hblank
      cases hblank
    rw [hasTopBlankFrom, hneutral]
    dsimp only
    rw [hascii, Bool.false_or]
    exact ih fun d hd => h d (List.mem_cons_of_mem _ hd)

section Operands

variable {config : Config} {inner : List Char → Except QueryError Built}

theorem Word.reads (w : Word) (hlimit : 1 ≤ heightLimit config) :
    Reads config inner w.text (.term (.of (.word (String.ofList w.text)))) := by
  have hmarks : ∀ c ∈ w.text, c ≠ '"' ∧ c ≠ '(' ∧ c ≠ ')' ∧ c ≠ '\\' := by
    intro c hc
    have hplain := (w.plain c hc).2
    simp only [List.mem_cons, List.not_mem_nil, or_false, not_or] at hplain
    exact hplain
  have hproper : Proper w.text := ⟨w.ne_nil, w.ne_not, w.ne_keyword⟩
  have hhides : Hides comparing top w.text :=
    .of_forall fun c hc => (not_special (w.plain c hc).1).2.1
  have hcall : splitCall? w.text = none :=
    splitCall?_of_not_mem fun hc => (hmarks _ hc).2.1 rfl
  have hquote : unquote? w.text = none := by
    by_contra hsome
    obtain ⟨body, hbody⟩ := Option.ne_none_iff_exists'.mp hsome
    have hmem : '"' ∈ w.text := by
      rw [(unquote?_eq_some.mp hbody).1]
      exact List.mem_cons_self
    exact (hmarks _ hmem).1 rfl
  have hblank : hasTopBlank w.text = false := by
    refine hasTopBlankFrom_of_plain fun c hc => ⟨(not_special (w.plain c hc).1).1, ?_⟩
    obtain ⟨hq, hopening, hclosing, hescape⟩ := hmarks c hc
    exact Mark.ofChar_eq_neutral.mpr ⟨hescape, hq, hopening, hclosing⟩
  exact .word (Kind.ofToken_word hproper hhides hcall hquote hblank) hlimit

theorem Phrase.reads (p : Phrase) (hlimit : 1 ≤ heightLimit config) :
    Reads config inner ('"' :: (p.body ++ ['"'])) (.term (.of (.quoted (String.ofList p.body)))) := by
  have hproper : Proper ('"' :: (p.body ++ ['"'])) := .of_mem List.mem_cons_self (by decide)
  have hcall : splitCall? ('"' :: (p.body ++ ['"'])) = none := by
    by_contra hsome
    obtain ⟨⟨f, text⟩, hsplit⟩ := Option.ne_none_iff_exists'.mp hsome
    have htoken := (splitCall?_eq_some.mp hsplit).1
    cases f <;> cases htoken
  have hquote : unquote? ('"' :: (p.body ++ ['"'])) = some p.body :=
    unquote?_eq_some.mpr ⟨rfl, p.closed⟩
  exact .quoted (Kind.ofToken_quoted hproper (p.hides (by decide)) hcall hquote) hquote hlimit

namespace Sentence

/-- What building needs of the queries inside of a part: each rendering with no more roots than there
are levels is built, within the limit of the height. -/
def Builds (config : Config) (levels : Nat) (inner : List Char → Except QueryError Built) : Prop :=
  ∀ (query : Sentence .query) (text : List Char), Renders query text →
    query.Known config.extendedOperators → (Node.root query.meaning).roots ≤ levels →
    (Node.root query.meaning).height ≤ heightLimit config →
    inner text = .ok (.of (.root query.meaning))

def Item.Fits (config : Config) (levels : Nat) : Item → Prop
  | not | logic _ => True
  | term x => x.Known config.extendedOperators ∧ x.meaning.roots ≤ levels ∧
    x.meaning.height ≤ heightLimit config

theorem Renders.reads_operand {levels : Nat} (hinner : Builds config levels inner)
    {x : Sentence .operand} {text : List Char} (h : Renders x text)
    (hknown : x.Known config.extendedOperators) (hroots : x.meaning.roots ≤ levels)
    (hheight : x.meaning.height ≤ heightLimit config) :
    Reads config inner text (.term (.of x.meaning)) := by
  cases h with
  | word w => exact w.reads hheight
  | phrase p => exact p.reads hheight
  | @call f query before text after hbefore htext hafter =>
    have hrootsQuery : Node.rootsAll [Node.root query.meaning] ≤ levels := hroots
    have hheightQuery : Node.heightAll [Node.root query.meaning] + 1 ≤ heightLimit config := hheight
    rw [Node.rootsAll_singleton] at hrootsQuery
    rw [Node.heightAll_singleton] at hheightQuery
    have hbuilt := hinner query text htext hknown hrootsQuery (by omega)
    have hclosed := htext.framed.run?_blank hbefore hafter
    have hargument := htext.splitAt_comma hbefore hafter
    refine (reads_callText hclosed hargument).mpr ⟨_, hbuilt, ?_, hheightQuery⟩
    rw [Built.of, meaning, Node.height, Node.heightAll_singleton]
    rfl

/-- An operand as the side of a comparison is a query of its own. -/
theorem Renders.build_side {levels : Nat} (hinner : Builds config levels inner)
    {x : Sentence .operand} {text : List Char} (h : Renders x text)
    (hknown : x.Known config.extendedOperators) (hroots : (Node.root [x.meaning]).roots ≤ levels)
    (hheight : (Node.root [x.meaning]).height ≤ heightLimit config) :
    inner text = .ok (.of (.root [x.meaning])) :=
  hinner (Sentence.chain (Sentence.unary (Sentence.term (Sentence.operand x)))) text
    (.chain (.unary (.term (.operand h)))) hknown hroots hheight

theorem Shows.reads {levels : Nat} (hinner : Builds config levels inner) {item : Item}
    {part : List Char} (h : Shows item part) (hfits : item.Fits config levels) :
    Reads config inner part item.pending := by
  cases h with
  | not => exact reads_not
  | logic op => exact reads_keyword op
  | operand hx => exact hx.reads_operand hinner hfits.1 hfits.2.1 hfits.2.2
  | @comparison op key value x y hx hy =>
    obtain ⟨⟨hop, hkey, hvalue⟩, hroots, hheight⟩ := hfits
    have hroots' : max (Node.root [key.meaning]).roots (Node.root [value.meaning]).roots ≤ levels :=
      hroots
    have hheight' : max (Node.root [key.meaning]).height (Node.root [value.meaning]).height + 1 ≤
        heightLimit config := hheight
    have hleft := hx.build_side hinner hkey (by omega) (by omega)
    have hright := hy.build_side hinner hvalue (by omega) (by omega)
    have hhead : y.head? ≠ some '=' := by
      intro hy'
      obtain ⟨c, rest, rfl, hc⟩ := hy.framed.first
      cases hy'
      cases hc
    have hsplit := splitComparison?_of_sides hop (hx.hides_special.imp fun _ => comparing_special)
      (Zone.run_eq_of_run? hx.framed.run) (hy.hides_special.imp fun _ => comparing_special) hhead
    have hproper : Proper (x ++ (op.symbol.toList ++ y)) := by
      obtain ⟨c, hc, hletter⟩ : ∃ c ∈ op.symbol.toList, c ∉ "NOTANDOR".toList := by
        cases op <;> exact ⟨_, List.mem_cons_self, by decide⟩
      exact .of_mem (List.mem_append_right _ (List.mem_append_left _ hc)) hletter
    exact .comparison (Kind.ofToken_comparison hproper hsplit) hsplit hleft hright hheight'

theorem reads_of_shows {levels : Nat} (hinner : Builds config levels inner) {items : List Item}
    {parts : List (List Char)} (h : List.Forall₂ Shows items parts)
    (hfits : ∀ item ∈ items, item.Fits config levels) :
    List.Forall₂ (Reads config inner) parts (items.map Item.pending) := by
  induction h with
  | nil => exact .nil
  | cons hitem _ ih =>
    obtain ⟨hfirst, hrest⟩ := List.forall_mem_cons.mp hfits
    exact .cons (hitem.reads hinner hfirst) (ih hrest)

/-- The limits hold for the terms of a sentence when they hold for its trees. -/
theorem items_fit {levels : Nat} {k : Category} (s : Sentence k)
    (hknown : s.Known config.extendedOperators) (hroots : Node.rootsAll s.nodes ≤ levels)
    (hheight : Node.heightAll s.nodes ≤ heightLimit config) :
    ∀ item ∈ s.items, item.Fits config levels := by
  induction s with
  | word | phrase | call | comparison =>
    rw [nodes, Node.rootsAll_singleton] at hroots
    rw [nodes, Node.heightAll_singleton] at hheight
    exact List.forall_mem_singleton.mpr ⟨hknown, hroots, hheight⟩
  | operand _ ih | term _ ih | unary _ ih | chain _ ih => exact ih hknown hroots hheight
  | not x ih =>
    rw [rootsAll_not] at hroots
    rw [heightAll_not] at hheight
    exact List.forall_mem_cons.mpr ⟨trivial, ih hknown hroots (by omega)⟩
  | link op left right ihleft ihright =>
    rw [rootsAll_link] at hroots
    rw [heightAll_link] at hheight
    have hleft := ihleft hknown.1 (by omega) (by omega)
    have hright := ihright hknown.2 (by omega) (by omega)
    exact List.forall_mem_append.mpr ⟨hleft, List.forall_mem_cons.mpr ⟨trivial, hright⟩⟩
  | more init last ihinit ihlast =>
    rw [rootsAll_more] at hroots
    rw [heightAll_more] at hheight
    have hinit := ihinit hknown.1 (by omega) (by omega)
    have hlast := ihlast hknown.2 (by omega) (by omega)
    exact List.forall_mem_append.mpr ⟨hinit, hlast⟩

/-! ### All levels -/

theorem rootOf_map (nodes : List Node) : rootOf (nodes.map Built.of) = .of (.root nodes) := by
  rw [rootOf, map_node_map_of, tallest_map]
  rfl

theorem Renders.buildFrom_eq {levels : Nat} {query : Sentence .query} {before text after : List Char}
    (h : Renders query text) (hbefore : Blank before) (hafter : Blank after)
    (hknown : query.Known config.extendedOperators)
    (hroots : (Node.root query.meaning).roots ≤ levels)
    (hheight : (Node.root query.meaning).height ≤ heightLimit config) :
    buildFrom config levels (before ++ text ++ after) = .ok (.of (.root query.meaning)) := by
  induction levels generalizing query before text after with
  | zero => exact absurd hroots (Nat.not_succ_le_zero _)
  | succ levels ih =>
    have hinner : Builds config levels (buildFrom config levels) := by
      intro query' text' htext' hknown' hroots' hheight'
      have hbuilt := ih htext' Text.blank_nil Text.blank_nil hknown' hroots' hheight'
      rwa [List.nil_append, List.append_nil] at hbuilt
    have hroots' : Node.rootsAll query.meaning ≤ levels := Nat.le_of_succ_le_succ hroots
    have hheight' : Node.heightAll query.meaning + 1 ≤ heightLimit config := hheight
    obtain ⟨parts, hparts, hshows⟩ := h.exists_tokens hbefore hafter
    have hfits := query.items_fit hknown hroots' (by rw [nodes]; omega)
    have hfold : fold (heightLimit config) (query.items.map Item.pending) =
        .ok (query.nodes.map Built.of) := query.fold_items (by rw [nodes]; omega)
    refine buildFrom_eq_ok.mpr ⟨parts, _, _, hparts, reads_of_shows hinner hshows hfits, hfold, ?_, ?_⟩
    · exact (rootOf_map query.meaning).symm
    · rw [tallest_map]
      exact hheight'

end Sentence

end Operands

/-- The parser accepts every sentence and builds the tree that it stands for, under every layout. The
roots on a path and the height of that tree are all that the settings limit. -/
theorem build_of_renders {config : Config} {query : Sentence .query} {before text after : List Char}
    (h : query.Renders text) (hbefore : Blank before) (hafter : Blank after)
    (hknown : query.Known config.extendedOperators)
    (hroots : (Node.root query.meaning).roots ≤ config.maxDepth.toNat + 1)
    (hheight : (Node.root query.meaning).height ≤ config.maxHeight.toNat) :
    build config (before ++ text ++ after) = .ok (.root query.meaning) :=
  map_eq_ok.mpr ⟨_, h.buildFrom_eq hbefore hafter hknown hroots hheight, rfl⟩

theorem build_of_negated_comparison_and_group :
    build .standard " NOT  a =\"x y\" OR ( b ) c".toList =
      .ok (.root [.logic .or (.not (.comparison .eq (.root [.word "a"]) (.root [.quoted "x y"])))
        (.call .group [.root [.word "b"]]), .word "c"]) := by
  have hblank (n : Nat) : Blank (List.replicate n ' ') := by
    intro c hc
    rw [List.eq_of_mem_replicate hc]
    decide
  have ha := Sentence.Renders.word (.single 'a' (by decide))
  have hb := Sentence.Renders.word (.single 'b' (by decide))
  have hc := Sentence.Renders.word (.single 'c' (by decide))
  have hx := Sentence.Renders.phrase ⟨['x', ' ', 'y'], .plain (by decide) (by decide)
    (.plain (by decide) (by decide) (.plain (by decide) (by decide) .nil))⟩
  have hcomparison := Sentence.Renders.comparison .eq ha (hblank 1) (hblank 0) hx
  have hnot := Sentence.Renders.not ⟨hblank 2, by decide⟩ (.term hcomparison)
  have hgroup := Sentence.Renders.call .group (hblank 1)
    (.chain (.unary (.term (.operand hb)))) (hblank 1)
  have hlink := Sentence.Renders.link .or (.unary hnot) ⟨hblank 1, by decide⟩ ⟨hblank 1, by decide⟩
    (.term (.operand hgroup))
  have hquery := Sentence.Renders.more (.chain hlink) ⟨hblank 1, by decide⟩
    (.unary (.term (.operand hc)))
  have hbuild : build .standard _ = _ :=
    build_of_renders hquery (hblank 1) (hblank 0) (by simp [Sentence.Known]) (by decide) (by decide)
  exact hbuild

end RowSearch.Query
