import RowSearch.Proofs.Level
import RowSearch.Proofs.Token
/-!
# The ink of a query

What building may not lose is the ink: all of a query but the blanks and the commas outside of its
quoted spans. A tree can be read from left to right, its operators and parentheses written out, and
what is read is the ink of the query it was built from, in the same order and without anything added.

The ink of a text is defined by its segments. The proofs use the same thing as a run over the
characters, which is blind to layout and goes along with concatenation; so each step of building, from
the normal form to the folding of operators, only has to be shown to keep it.
-/

namespace RowSearch.Query

open Text (isBlank Blank)
open Zone (top)

/-! ### Ink -/

/-- What is no ink outside of quotes: blanks and commas. -/
def isFaint (c : Char) : Bool :=
  isBlank c || c == ','

def Segment.ink : Segment → List Char
  | .bare text => text.filter (!isFaint ·)
  | .quoted body => (Segment.quoted body).source

/-- A text without the blanks and the commas outside of its quoted spans. Without an end for each
quote there are no spans, and the text is left as it is. -/
def ink (text : List Char) : List Char :=
  match Segment.cut text with
  | .ok segments => segments.flatMap Segment.ink
  | .error _ => text

mutual

/-- A tree read from left to right. -/
def Node.spell : Node → List Char
  | .root terms => spellAll terms
  | .empty => []
  | .not operand => "NOT".toList ++ operand.spell
  | .logic op left right => left.spell ++ op.keyword.toList ++ right.spell
  | .comparison op key value => key.spell ++ op.symbol.toList ++ value.spell
  | .call f args => f.key.toList ++ '(' :: (spellAll args ++ [')'])
  | .quoted text => '"' :: (text.toList ++ ['"'])
  | .word text => ink text.toList

def Node.spellAll : List Node → List Char
  | [] => []
  | first :: rest => first.spell ++ spellAll rest

end

/-! ### Ink as a run -/

def inkFrom (z : Zone) : List Char → List Char
  | [] => []
  | c :: rest =>
    if z.quoted = false ∧ isFaint c = true then inkFrom (z.step (Mark.ofChar c)) rest
    else c :: inkFrom (z.step (Mark.ofChar c)) rest

section Run

variable {z : Zone}

theorem inkFrom_faint {c : Char} (hz : z.quoted = false) (hc : isFaint c = true)
    (rest : List Char) : inkFrom z (c :: rest) = inkFrom (z.step (Mark.ofChar c)) rest :=
  if_pos ⟨hz, hc⟩

theorem inkFrom_keep {c : Char} (h : z.quoted = true ∨ isFaint c = false) (rest : List Char) :
    inkFrom z (c :: rest) = c :: inkFrom (z.step (Mark.ofChar c)) rest := by
  rw [inkFrom, if_neg]
  intro h
  obtain ⟨hz, hc⟩ := h
  rcases h with h | h
  · rw [hz] at h
    cases h
  · rw [hc] at h
    cases h

theorem inkFrom_bare (hz : z.quoted = false) (c : Char) (rest : List Char) :
    inkFrom z (c :: rest) = [c].filter (!isFaint ·) ++ inkFrom (z.step (Mark.ofChar c)) rest := by
  cases hc : isFaint c with
  | true =>
    rw [inkFrom_faint hz hc, List.filter_cons_of_neg (by simp [hc])]
    rfl
  | false =>
    rw [inkFrom_keep (.inr hc), List.filter_cons_of_pos (by simp [hc])]
    rfl

theorem inkFrom_append (z : Zone) (x y : List Char) :
    inkFrom z (x ++ y) = inkFrom z x ++ inkFrom (z.run x) y := by
  induction x generalizing z with
  | nil => rfl
  | cons c rest ih =>
    rw [List.cons_append, inkFrom, inkFrom, ih, Zone.run_cons]
    split <;> rfl

theorem blind_inkFrom : Blind inkFrom where
  cons h := by rw [inkFrom, inkFrom, h]
  blank hz hc := by
    rw [inkFrom_faint hz (by rw [isFaint, hc, Bool.true_or]), Mark.ofChar_of_isBlank hc,
      Zone.step_neutral]
  settle hc := by
    rw [inkFrom, inkFrom, hc, Zone.step_neutral, Zone.step_neutral, Zone.settle_settle,
      Zone.settle_quoted]

theorem inkFrom_depth (z : Zone) (d : Nat) (text : List Char) :
    inkFrom { z with depth := d } text = inkFrom z text := by
  induction text generalizing z d with
  | nil => rfl
  | cons c rest ih =>
    obtain ⟨d', hstep⟩ := Zone.exists_step_depth z d (Mark.ofChar c)
    rw [inkFrom, inkFrom, hstep, ih]

theorem isFaint_of_padding {separator text : List Char} (h : Padding separator text)
    (hseparator : ∀ c ∈ separator, isFaint c = true) : ∀ c ∈ text, isFaint c = true := by
  intro c hc
  rcases h c hc with hblank | hmem
  · rw [isFaint, hblank, Bool.true_or]
  · exact hseparator c hmem

theorem neutral_of_isFaint {c : Char} (h : isFaint c = true) : Mark.ofChar c = .neutral := by
  rw [isFaint, Bool.or_eq_true, beq_iff_eq] at h
  rcases h with hblank | rfl
  · exact Mark.ofChar_of_isBlank hblank
  · decide

theorem inkFrom_all_faint {text : List Char} (h : ∀ c ∈ text, isFaint c = true)
    (hz : z.quoted = false) : inkFrom z text = [] := by
  induction text generalizing z with
  | nil => rfl
  | cons c rest ih =>
    have hc := h c List.mem_cons_self
    rw [inkFrom_faint hz hc, neutral_of_isFaint hc, Zone.step_neutral]
    exact ih (fun d hd => h d (List.mem_cons_of_mem _ hd)) hz

theorem inkFrom_all_kept {text : List Char} (h : ∀ c ∈ text, isFaint c = false) :
    inkFrom z text = text := by
  induction text generalizing z with
  | nil => rfl
  | cons c rest ih =>
    rw [inkFrom_keep (.inr (h c List.mem_cons_self)),
      ih fun d hd => h d (List.mem_cons_of_mem _ hd)]

theorem inkFrom_quoteBody {body : List Char} (h : QuoteBody body) (d : Nat) :
    inkFrom ⟨d, true, false⟩ body = body := by
  induction h with
  | nil => rfl
  | escape c _ ih =>
    rw [inkFrom_keep (.inl rfl), inkFrom_keep (.inl rfl)]
    exact congrArg (fun rest => '\\' :: c :: rest) ih
  | plain hescape hquote _ ih =>
    rw [inkFrom_keep (.inl rfl), Zone.step_quoted hescape hquote, ih]

end Run

/-- The ink of the segments of a text is what the run keeps of it. -/
theorem inkFrom_of_cuts {d : Nat} {inside : Bool} {text first : List Char} {tail : List Segment}
    (h : Segment.Cuts inside text first tail) :
    match inside with
    | true => inkFrom ⟨d, true, false⟩ text = first ++ '"' :: tail.flatMap Segment.ink
    | false => inkFrom ⟨d, false, false⟩ text =
      first.filter (!isFaint ·) ++ tail.flatMap Segment.ink := by
  induction h generalizing d with
  | nil => rfl
  | dangling => rfl
  | @escape inside c rest first tail _ ih =>
    have hrest := ih (d := d)
    cases inside with
    | true =>
      dsimp only at hrest ⊢
      rw [inkFrom_keep (.inl rfl), inkFrom_keep (.inl rfl)]
      exact congrArg (fun text => '\\' :: c :: text) hrest
    | false =>
      have hstep : ((⟨d, false, false⟩ : Zone).step (Mark.ofChar '\\')).step (Mark.ofChar c) =
        ⟨d, false, false⟩ := rfl
      have hfirst : '\\' :: c :: first = ['\\'] ++ ([c] ++ first) := rfl
      dsimp only at hrest ⊢
      rw [inkFrom_bare rfl, inkFrom_bare rfl, hstep, hrest, hfirst, List.filter_append,
        List.filter_append]
      simp only [List.append_assoc]
  | @quote inside rest first tail _ ih =>
    have hrest := ih (d := d)
    cases inside with
    | true =>
      dsimp only
      rw [inkFrom_keep (.inl rfl)]
      exact congrArg ('"' :: ·) hrest
    | false =>
      dsimp only
      rw [inkFrom_keep (.inr (by decide)), List.flatMap_cons]
      refine congrArg ('"' :: ·) (Eq.trans hrest ?_)
      exact (List.append_assoc first ['"'] _).symm
  | @plain inside c rest first tail hescape hquote _ ih =>
    obtain ⟨d', hstep⟩ := Segment.exists_step_plain (d := d) (q := inside) hescape hquote
    have hrest := ih (d := d')
    cases inside with
    | true =>
      dsimp only
      rw [inkFrom_keep (.inl rfl), hstep]
      exact congrArg (c :: ·) hrest
    | false =>
      have hfirst : c :: first = [c] ++ first := rfl
      dsimp only at hrest ⊢
      rw [inkFrom_bare rfl, hstep, hrest, hfirst, List.filter_append, List.append_assoc]

theorem ink_eq {text : List Char} (h : (top.run text).quoted = false) :
    ink text = inkFrom top text := by
  obtain ⟨segments, hcut⟩ := Segment.exists_cutFrom_iff.mpr h
  obtain ⟨bare, rest, rfl, hcuts⟩ := Segment.exists_cuts hcut
  rw [ink, Segment.cut, hcut]
  exact (inkFrom_of_cuts (d := 0) hcuts).symm

/-! ### Cutting -/

theorem inkFrom_tidyFrom (text : List Char) :
    inkFrom top (tidyFrom top false text) = inkFrom top text :=
  blind_inkFrom.apply_tidyFrom (fun _ => rfl) text

theorem Pads.inkFrom_eq {separator text kept : List Char} (h : Pads separator text kept)
    (hseparator : ∀ c ∈ separator, isFaint c = true) (hkept : (top.run kept).quoted = false) :
    inkFrom top text = inkFrom top kept := by
  obtain ⟨before, after, hbefore, hafter, rfl⟩ := h
  have hfaint := isFaint_of_padding hbefore hseparator
  have hrun : top.run before = top :=
    Zone.run_eq_of_run? (Zone.run?_neutral rfl fun c hc => neutral_of_isFaint (hfaint c hc))
  rw [inkFrom_append, inkFrom_append, inkFrom_all_faint hfaint rfl, hrun,
    inkFrom_all_faint (isFaint_of_padding hafter hseparator), List.append_nil, List.nil_append]
  rw [Zone.run_append, hrun]
  exact hkept

theorem inkFrom_trim {text : List Char} (h : (top.run (Text.trim text)).quoted = false) :
    inkFrom top (Text.trim text) = inkFrom top text :=
  ((pads_trim [] text).inkFrom_eq (fun _ hc => (List.not_mem_nil hc).elim) h).symm

theorem Splits.inkFrom_eq {separator text : List Char} {segments : List (List Char)}
    (hseparator : ∀ c ∈ separator, isFaint c = true) (h : Splits separator top text segments) :
    inkFrom top text = segments.flatMap (inkFrom top) := by
  generalize hz : top = z at h
  induction h with
  | last _ _ =>
    cases hz
    rw [List.flatMap_singleton]
  | next hfirst _ ih =>
    cases hz
    have hrun : top.run separator = top :=
      Zone.run_eq_of_run? (Zone.run?_neutral rfl fun c hc => neutral_of_isFaint (hseparator c hc))
    rw [inkFrom_append, inkFrom_append, Zone.run_append, Zone.run_eq_of_run? hfirst, hrun,
      inkFrom_all_faint hseparator rfl, List.append_nil, ih rfl, List.flatMap_cons]

theorem inkFrom_splitAt {separator text : List Char} (hne : separator ≠ [])
    (hseparator : ∀ c ∈ separator, isFaint c = true) {segments : List (List Char)}
    (h : splitAt separator text = .ok segments) :
    inkFrom top text = segments.flatMap (inkFrom top) := by
  have hneutral : ∀ c ∈ separator, Mark.ofChar c = .neutral :=
    fun c hc => neutral_of_isFaint (hseparator c hc)
  have hpads := pads_trimSeparators separator text
  rcases splitAt_eq_ok hne h with ⟨hnil, rfl⟩ | ⟨pieces, hpieces, rfl⟩
  · rw [hnil] at hpads
    exact hpads.inkFrom_eq hseparator rfl
  · have hbody : Balanced (trimSeparators separator text) := hpieces.exists_run? hneutral
    rw [hpads.inkFrom_eq hseparator hbody.quoted, hpieces.inkFrom_eq hseparator, List.flatMap_map]
    refine List.flatMap_congr fun piece hpiece => (inkFrom_trim ?_).symm
    exact (balanced_trim.mpr (hpieces.balanced piece hpiece)).quoted

theorem inkFrom_tokens {text : List Char} {parts : List (List Char)}
    (h : tokens text = .ok parts) : inkFrom top text = parts.flatMap (inkFrom top) := by
  obtain ⟨hquoted, pieces, hpieces, rfl⟩ := tokens_eq_ok.mp h
  have htidy : (top.run (tidy text)).quoted = false := by rw [run_tidy_quoted, hquoted]
  have hsplit := inkFrom_splitAt (List.cons_ne_nil _ _) (by decide) hpieces
  rw [tidy, inkFrom_trim htidy, inkFrom_tidyFrom] at hsplit
  rw [hsplit]
  split
  · next hnil =>
    rw [hnil]
    rfl
  · rfl

/-! ### Items -/

def Link.spell : Link → List Char
  | .logic op => op.keyword.toList
  | .term built => built.node.spell

def Pending.spell : Pending → List Char
  | .not => "NOT".toList
  | .link item => item.spell

theorem spellAll_eq (terms : List Node) : Node.spellAll terms = terms.flatMap Node.spell := by
  induction terms with
  | nil => rfl
  | cons first rest ih => rw [Node.spellAll, ih, List.flatMap_cons]

theorem spellAll_map (terms : List Built) :
    Node.spellAll (terms.map (·.node)) = terms.flatMap fun term => term.node.spell := by
  rw [spellAll_eq, List.flatMap_map]

theorem isFaint_symbol (op : CompareOp) : ∀ c ∈ op.symbol.toList, isFaint c = false := by
  cases op <;> decide

theorem isFaint_keyword (op : LogicOp) : ∀ c ∈ op.keyword.toList, isFaint c = false := by
  cases op <;> decide

theorem isFaint_key (f : Function) : ∀ c ∈ f.key.toList, isFaint c = false := by
  cases f <;> decide

section Reading

variable {config : Config} {inner : List Char → Except QueryError Built}

theorem inkFrom_of_forall₂
    (hinner : ∀ text built, inner text = .ok built → inkFrom top text = built.node.spell)
    {parts : List (List Char)} {args : List Built}
    (h : List.Forall₂ (fun part arg => inner part = .ok arg) parts args) :
    parts.flatMap (inkFrom top) = Node.spellAll (args.map (·.node)) := by
  induction h with
  | nil => rfl
  | cons hpart _ ih =>
    rw [List.flatMap_cons, ih, hinner _ _ hpart]
    rfl

theorem Reads.inkFrom_eq
    (hinner : ∀ text built, inner text = .ok built → inkFrom top text = built.node.spell)
    {token : List Char} (htoken : Balanced token) {item : Pending}
    (h : Reads config inner token item) : inkFrom top token = item.spell := by
  cases h with
  | empty hkind _ =>
    obtain rfl : token = [] := List.isEmpty_iff.mp (Kind.claims_of_ofToken hkind)
    rfl
  | not hkind =>
    have hname : token = "NOT".toList := of_decide_eq_true (Kind.claims_of_ofToken hkind)
    rw [hname, Pending.spell]
    exact inkFrom_all_kept (by decide)
  | logic _ hop =>
    rw [← LogicOp.ofToken?_eq_some.mp hop]
    exact inkFrom_all_kept (isFaint_keyword _)
  | @comparison op key value left right _ hsplit hleft hright _ =>
    obtain ⟨rfl, hkey⟩ := splitComparison?_eq_some hsplit
    have hsymbol : top.run op.symbol.toList = top :=
      Zone.run_eq_of_run? (Zone.run?_neutral rfl op.neutral_symbol)
    rw [inkFrom_append, inkFrom_append, Zone.run_append, hkey, hsymbol,
      inkFrom_all_kept (isFaint_symbol op), hinner key left hleft, hinner value right hright]
    rfl
  | @call f text parts args _ hsplit hparts hargs _ _ =>
    obtain ⟨rfl, hrun⟩ := splitCall?_eq_some.mp hsplit
    have hkey : top.run f.key.toList = top :=
      Zone.run_eq_of_run? (Zone.run?_neutral rfl f.neutral_key)
    have hopen : top.step (Mark.ofChar '(') = top.deeper := rfl
    have hdeep : top.deeper.run text = top.deeper :=
      Zone.run_eq_of_run? (Zone.run?_deeper hrun)
    have hclose : inkFrom top.deeper [')'] = [')'] := inkFrom_all_kept (by decide)
    have htext : inkFrom top.deeper text = Node.spellAll (args.map (·.node)) := by
      rw [Zone.deeper, inkFrom_depth, inkFrom_splitAt (List.cons_ne_nil _ _) (by decide) hparts,
        inkFrom_of_forall₂ hinner hargs]
    rw [inkFrom_append, inkFrom_all_kept (isFaint_key f), hkey, inkFrom_keep (.inr (by decide)),
      hopen, inkFrom_append, hdeep, hclose, htext]
    rfl
  | @quoted text _ htext _ =>
    obtain ⟨rfl, hbody⟩ := unquote?_eq_some.mp htext
    have hopen : top.step (Mark.ofChar '"') = ⟨0, true, false⟩ := rfl
    have hrun : (⟨0, true, false⟩ : Zone).run text = ⟨0, true, false⟩ :=
      Zone.run_eq_of_run? (Zone.run?_quoteBody hbody)
    rw [inkFrom_keep (.inr (by decide)), hopen, inkFrom_append, inkFrom_quoteBody hbody, hrun,
      inkFrom_keep (.inl rfl), Pending.spell, Link.spell, Node.spell, String.toList_ofList]
    rfl
  | word _ _ =>
    rw [Pending.spell, Link.spell, Node.spell, String.toList_ofList, ink_eq htoken.quoted]

end Reading

/-! ### Folding -/

section Folding

variable {limit : Nat}

theorem Built.spell_of_logic {op : LogicOp} {left right built : Built}
    (h : left.logic limit op right = .ok built) :
    built.node.spell = left.node.spell ++ op.keyword.toList ++ right.node.spell := by
  obtain ⟨rfl, -⟩ := Built.within_eq_ok.mp h
  rfl

theorem FoldsNots.spell {items : List Pending} {links : List Link}
    (h : FoldsNots limit items links) :
    items.flatMap Pending.spell = links.flatMap Link.spell := by
  induction h with
  | nil => rfl
  | link link _ ih =>
    rw [List.flatMap_cons, ih]
    rfl
  | @not rest links operand built _ hbuilt ih =>
    obtain ⟨rfl, -⟩ := Built.within_eq_ok.mp hbuilt
    have hspell : Node.spell (.not operand.node) = "NOT".toList ++ operand.node.spell := rfl
    rw [List.flatMap_cons, ih, List.flatMap_cons, List.flatMap_cons, Link.spell, Link.spell, hspell,
      List.append_assoc]
    rfl

theorem FoldsLinks.spell {done terms : List Built} {links : List Link}
    (h : FoldsLinks limit done links terms) :
    done.reverse.flatMap (·.node.spell) ++ links.flatMap Link.spell =
      terms.flatMap (·.node.spell) := by
  induction h with
  | nil done => rw [List.flatMap_nil, List.append_nil]
  | term _ ih =>
    rw [← ih, List.reverse_cons, List.flatMap_append, List.flatMap_singleton, List.append_assoc,
      List.flatMap_cons]
    rfl
  | logic hbuilt _ ih =>
    rw [← ih, List.reverse_cons, List.reverse_cons, List.flatMap_append,
      List.flatMap_append, List.flatMap_singleton, List.flatMap_singleton, List.flatMap_cons,
      List.flatMap_cons, Built.spell_of_logic hbuilt]
    simp only [Link.spell, List.append_assoc]

theorem spell_fold {items : List Pending} {terms : List Built} (h : fold limit items = .ok terms) :
    items.flatMap Pending.spell = terms.flatMap (·.node.spell) := by
  obtain ⟨-, links, hlinks, hterms⟩ := fold_eq_ok.mp h
  rw [hlinks.spell, ← hterms.spell]
  rfl

end Folding

/-! ### Building -/

theorem inkFrom_of_reads {config : Config} {inner : List Char → Except QueryError Built}
    (hinner : ∀ text built, inner text = .ok built → inkFrom top text = built.node.spell)
    {parts : List (List Char)} {items : List Pending} (hparts : ∀ token ∈ parts, Balanced token)
    (h : List.Forall₂ (Reads config inner) parts items) :
    parts.flatMap (inkFrom top) = items.flatMap Pending.spell := by
  induction h with
  | nil => rfl
  | cons hitem _ ih =>
    rw [List.flatMap_cons, List.flatMap_cons,
      hitem.inkFrom_eq hinner (hparts _ List.mem_cons_self),
      ih fun token htoken => hparts token (List.mem_cons_of_mem _ htoken)]

theorem inkFrom_of_buildFrom {config : Config} {levels : Nat} {text : List Char} {built : Built}
    (h : buildFrom config levels text = .ok built) : inkFrom top text = built.node.spell := by
  induction levels generalizing text built with
  | zero => cases h
  | succ levels ih =>
    obtain ⟨parts, items, terms, hparts, hitems, hterms, rfl, -⟩ := buildFrom_eq_ok.mp h
    have hspell := inkFrom_of_reads (fun _ _ => ih) (balanced_of_tokens hparts) hitems
    rw [inkFrom_tokens hparts, hspell, spell_fold hterms, rootOf, Node.spell, spellAll_map]

/-- No text of a query is lost, repeated, moved or made up by building its tree. -/
theorem ink_eq_spell {config : Config} {query : List Char} {tree : Node}
    (h : build config query = .ok tree) : ink query = tree.spell := by
  obtain ⟨built, hbuilt, rfl⟩ := map_eq_ok.mp h
  obtain ⟨parts, _, _, hparts, -⟩ := buildFrom_eq_ok.mp hbuilt
  rw [ink_eq (tokens_eq_ok.mp hparts).1, inkFrom_of_buildFrom hbuilt]

theorem ink_of_negated_comparison :
    ink "NOT a = \"x, y\" , (b)".toList =
      (Node.root [.not (.comparison .eq (.root [.word "a"]) (.root [.quoted "x, y"])), .word ",",
        .call .group [.root [.word "b"]]]).spell := by
  have hbuild : build .standard "NOT a = \"x, y\" , (b)".toList =
      .ok (.root [.not (.comparison .eq (.root [.word "a"]) (.root [.quoted "x, y"])), .word ",",
        .call .group [.root [.word "b"]]]) := by
    decide +kernel
  exact ink_eq_spell hbuild

end RowSearch.Query
