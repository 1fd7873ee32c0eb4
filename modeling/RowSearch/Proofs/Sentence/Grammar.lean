import RowSearch.Proofs.Visible
/-!
# Sentences

The language that queries are written in, without reference to the parser. A sentence is given by its
structure; `Sentence.Renders` says which texts are renderings of it, and `Sentence.meaning` which tree
it stands for. White space is free in a rendering: between neighbours there is some, and around
comparison symbols and at the ends of a query there may be some. Whatever its layout, a rendering
closes what it opens and starts and ends with a character of a word, a phrase, a call or a keyword.
-/

namespace RowSearch.Query

open Text (isBlank Blank)
open Zone (top)

/-! ### The grammar -/

/-- A character that ends a word or separates. -/
def special (c : Char) : Bool :=
  isBlank c || comparing c || c == ','

/-- A bare word that is no keyword. -/
structure Word where
  text : List Char
  ne_nil : text ≠ []
  plain : ∀ c ∈ text, special c = false ∧ c ∉ ['"', '(', ')', '\\']
  ne_not : text ≠ "NOT".toList
  ne_keyword : ∀ op : LogicOp, text ≠ op.keyword.toList

def Word.single (c : Char) (h : special c = false ∧ c ∉ ['"', '(', ')', '\\']) : Word where
  text := [c]
  ne_nil := List.cons_ne_nil _ _
  plain := List.forall_mem_singleton.mpr h
  ne_not := by simp
  ne_keyword := fun op => by cases op <;> simp [LogicOp.keyword]

structure Phrase where
  body : List Char
  closed : QuoteBody body

def Gap (text : List Char) : Prop :=
  Blank text ∧ text ≠ []

inductive Category where
  | operand
  | term
  | unary
  | chain
  | query

/-- A sentence of a category. An operand is a word, a phrase, or a call, of which a group is one; a
term is an operand or a comparison of two; a unary is a term behind any number of `NOT`; a chain joins
unaries from the left; and a query is one chain or more. -/
inductive Sentence : Category → Type where
  | word (word : Word) : Sentence .operand
  | phrase (phrase : Phrase) : Sentence .operand
  | call (f : Function) (query : Sentence .query) : Sentence .operand
  | operand (operand : Sentence .operand) : Sentence .term
  | comparison (op : CompareOp) (key value : Sentence .operand) : Sentence .term
  | term (term : Sentence .term) : Sentence .unary
  | not (operand : Sentence .unary) : Sentence .unary
  | unary (unary : Sentence .unary) : Sentence .chain
  | link (op : LogicOp) (left : Sentence .chain) (right : Sentence .unary) : Sentence .chain
  | chain (chain : Sentence .chain) : Sentence .query
  | more (init : Sentence .query) (last : Sentence .chain) : Sentence .query

/-- What sentences stand for: queries for a sequence of trees, all others for one tree. -/
abbrev Category.Meaning : Category → Type
  | .query => List Node
  | _ => Node

namespace Sentence

def meaning : {k : Category} → Sentence k → k.Meaning
  | _, word w => Node.word (String.ofList w.text)
  | _, phrase p => Node.quoted (String.ofList p.body)
  | _, call f query => Node.call f [.root query.meaning]
  | _, operand x => x.meaning
  | _, comparison op key value => Node.comparison op (.root [key.meaning]) (.root [value.meaning])
  | _, term x => x.meaning
  | _, not x => Node.not x.meaning
  | _, unary x => x.meaning
  | _, link op left right => Node.logic op left.meaning right.meaning
  | _, chain x => [x.meaning]
  | _, more init last => init.meaning ++ [last.meaning]

/-- All comparisons of a sentence are known: those of two characters are when the settings say so. -/
def Known (extended : Bool) : {k : Category} → Sentence k → Prop
  | _, word _ | _, phrase _ => True
  | _, call _ query => query.Known extended
  | _, operand x => x.Known extended
  | _, comparison op key value =>
    (extended = true ∨ op = .eq ∨ op = .lt ∨ op = .gt) ∧ key.Known extended ∧ value.Known extended
  | _, term x => x.Known extended
  | _, not x => x.Known extended
  | _, unary x => x.Known extended
  | _, link _ left right => left.Known extended ∧ right.Known extended
  | _, chain x => x.Known extended
  | _, more init last => init.Known extended ∧ last.Known extended

/-- The renderings of a sentence, without blanks at the ends of the outermost query. -/
inductive Renders : {k : Category} → Sentence k → List Char → Prop
  | word (w : Word) : Renders (word w) w.text
  | phrase (p : Phrase) : Renders (phrase p) ('"' :: (p.body ++ ['"']))
  | call (f : Function) {query : Sentence .query} {before text after : List Char} :
    Blank before → Renders query text → Blank after →
    Renders (call f query) (callText f (before ++ text ++ after))
  | operand {x : Sentence .operand} {text : List Char} :
    Renders x text → Renders (operand x) text
  | comparison (op : CompareOp) {key value : Sentence .operand} {x before after y : List Char} :
    Renders key x → Blank before → Blank after → Renders value y →
    Renders (comparison op key value) (x ++ (before ++ (op.symbol.toList ++ (after ++ y))))
  | term {x : Sentence .term} {text : List Char} : Renders x text → Renders (term x) text
  | not {x : Sentence .unary} {gap text : List Char} :
    Gap gap → Renders x text → Renders (not x) ("NOT".toList ++ (gap ++ text))
  | unary {x : Sentence .unary} {text : List Char} : Renders x text → Renders (unary x) text
  | link (op : LogicOp) {left : Sentence .chain} {right : Sentence .unary}
    {x before after y : List Char} :
    Renders left x → Gap before → Gap after → Renders right y →
    Renders (link op left right) (x ++ (before ++ (op.keyword.toList ++ (after ++ y))))
  | chain {x : Sentence .chain} {text : List Char} : Renders x text → Renders (chain x) text
  | more {init : Sentence .query} {last : Sentence .chain} {x gap y : List Char} :
    Renders init x → Gap gap → Renders last y → Renders (more init last) (x ++ (gap ++ y))

end Sentence

/-! ### The ends of a rendering -/

/-- A text that closes what it opens, shows no comma and has characters at its ends that are part of
words, phrases or calls. -/
structure Framed (text : List Char) : Prop where
  run : top.run? text = some top
  commas : Hides (· == ',') top text
  first : ∃ c rest, text = c :: rest ∧ special c = false
  last : ∃ before c, text = before ++ [c] ∧ special c = false

theorem not_special {c : Char} (h : special c = false) :
    isBlank c = false ∧ comparing c = false ∧ c ≠ ',' := by
  rw [special, Bool.or_eq_false_iff, Bool.or_eq_false_iff, beq_eq_false_iff_ne] at h
  exact ⟨h.1.1, h.1.2, h.2⟩

namespace Framed

variable {x y text : List Char}

/-- Two framed texts with anything between them that means nothing to a scan and is no comma. -/
theorem append {between : List Char} (hx : Framed x)
    (hbetween : ∀ c ∈ between, Mark.ofChar c = .neutral ∧ c ≠ ',') (hy : Framed y) :
    Framed (x ++ (between ++ y)) where
  run := by
    rw [Zone.run?_append, hx.run, Option.bind_some, Zone.run?_append,
      Zone.run?_neutral rfl fun c hc => (hbetween c hc).1]
    exact hy.run
  commas := by
    have hrun : top.run between = top :=
      Zone.run_eq_of_run? (Zone.run?_neutral rfl fun c hc => (hbetween c hc).1)
    rw [hides_append, hides_append, Zone.run_eq_of_run? hx.run, hrun]
    exact ⟨hx.commas, .of_forall fun c hc => beq_eq_false_iff_ne.mpr (hbetween c hc).2, hy.commas⟩
  first := by
    obtain ⟨c, rest, rfl, hc⟩ := hx.first
    exact ⟨c, rest ++ (between ++ y), rfl, hc⟩
  last := by
    obtain ⟨before, c, rfl, hc⟩ := hy.last
    exact ⟨x ++ (between ++ before), c, by simp only [List.append_assoc], hc⟩

theorem of_letters (hne : text ≠ [])
    (h : ∀ c ∈ text, special c = false ∧ Mark.ofChar c = .neutral) : Framed text where
  run := Zone.run?_neutral rfl fun c hc => (h c hc).2
  commas := .of_forall fun c hc => beq_eq_false_iff_ne.mpr (not_special (h c hc).1).2.2
  first := by
    obtain ⟨c, rest, rfl⟩ := List.exists_cons_of_ne_nil hne
    exact ⟨c, rest, rfl, (h c List.mem_cons_self).1⟩
  last := ⟨_, _, (List.dropLast_append_getLast hne).symm, (h _ (List.getLast_mem hne)).1⟩

theorem firm (h : Framed text) : Firm text := by
  obtain ⟨before, c, htext, hc⟩ := h.last
  obtain ⟨hblank, hcomparing, -⟩ := not_special hc
  rw [comparing, Bool.or_eq_false_iff, beq_eq_false_iff_ne] at hcomparing
  exact ⟨before, c, htext, hblank, hcomparing.2, hcomparing.1⟩

theorem not_startsComparison (h : Framed text) :
    startsComparison (text.dropWhile isBlank) = false := by
  obtain ⟨c, rest, rfl, hc⟩ := h.first
  obtain ⟨hblank, hcomparing, -⟩ := not_special hc
  rw [List.dropWhile_cons_of_neg (by simp [hblank])]
  exact startsComparison_of_not_comparing hcomparing rest

end Framed

theorem neutral_of_blanks {gap : List Char} (h : Blank gap) :
    ∀ c ∈ gap, Mark.ofChar c = .neutral ∧ c ≠ ',' := by
  intro c hc
  refine ⟨Mark.ofChar_of_isBlank (h c hc), ?_⟩
  intro heq
  subst heq
  cases h ',' hc

theorem framed_keyword (op : LogicOp) : Framed op.keyword.toList :=
  .of_letters (by cases op <;> decide) (by cases op <;> decide)

theorem framed_not : Framed "NOT".toList :=
  .of_letters (by decide) (by decide)

theorem Word.framed (w : Word) : Framed w.text := by
  refine .of_letters w.ne_nil fun c hc => ?_
  obtain ⟨hspecial, hmarks⟩ := w.plain c hc
  refine ⟨hspecial, Mark.ofChar_eq_neutral.mpr ?_⟩
  simp only [List.mem_cons, List.not_mem_nil, or_false, not_or] at hmarks
  exact ⟨hmarks.2.2.2, hmarks.1, hmarks.2.1, hmarks.2.2.1⟩

theorem Phrase.run? (p : Phrase) (d : Nat) :
    (⟨d, false, false⟩ : Zone).run? ('"' :: (p.body ++ ['"'])) = some ⟨d, false, false⟩ := by
  have hopen : (⟨d, false, false⟩ : Zone).step? (Mark.ofChar '"') = some ⟨d, true, false⟩ :=
    Zone.step?_of_ne_closing (by decide)
  have hclose : (⟨d, true, false⟩ : Zone).step? (Mark.ofChar '"') = some ⟨d, false, false⟩ :=
    Zone.step?_of_ne_closing (by decide)
  rw [Zone.run?_cons, hopen, Option.bind_some, Zone.run?_append, Zone.run?_quoteBody p.closed,
    Option.bind_some, Zone.run?_cons, hclose]
  rfl

/-- A phrase shows the quote that opens it, and nothing else. -/
theorem Phrase.hides (p : Phrase) {q : Char → Bool} (hq : q '"' = false) :
    Hides q top ('"' :: (p.body ++ ['"'])) := by
  have hopen : top.step (Mark.ofChar '"') = ⟨0, true, false⟩ := rfl
  refine ⟨fun _ => hq, ?_⟩
  rw [hopen, hides_append, Zone.run_eq_of_run? (Zone.run?_quoteBody p.closed)]
  exact ⟨hides_quoteBody p.closed, fun hz => (nomatch hz), trivial⟩

theorem Phrase.framed (p : Phrase) : Framed ('"' :: (p.body ++ ['"'])) where
  run := p.run? 0
  commas := p.hides rfl
  first := ⟨'"', _, rfl, by decide⟩
  last := ⟨'"' :: p.body, '"', rfl, by decide⟩

theorem framed_callText {inner : List Char} (h : top.run? inner = some top) (f : Function) :
    Framed (callText f inner) where
  run := run?_callText h f 0
  commas := hides_callText h (by cases f <;> decide) (by decide)
  first := by
    cases f with
    | abs => exact ⟨'a', _, rfl, by decide⟩
    | group => exact ⟨'(', _, rfl, by decide⟩
  last := ⟨f.key.toList ++ '(' :: inner, ')', by simp [callText], by decide⟩

theorem Framed.run?_blank {text before after : List Char} (h : Framed text) (hbefore : Blank before)
    (hafter : Blank after) : top.run? (before ++ text ++ after) = some top := by
  rw [Zone.run?_append, Zone.run?_append, Zone.run?_neutral rfl (neutral_of_blank hbefore),
    Option.bind_some, h.run, Option.bind_some, Zone.run?_neutral rfl (neutral_of_blank hafter)]

namespace Sentence

theorem Renders.framed {k : Category} {s : Sentence k} {text : List Char} (h : Renders s text) :
    Framed text := by
  induction h with
  | word w => exact w.framed
  | phrase p => exact p.framed
  | call f hbefore _ hafter ih => exact framed_callText (ih.run?_blank hbefore hafter) f
  | operand _ ih => exact ih
  | comparison op _ hbefore hafter _ ihx ihy =>
    have hsymbol : ∀ c ∈ op.symbol.toList, Mark.ofChar c = .neutral ∧ c ≠ ',' := by
      cases op <;> decide
    have hbetween := List.forall_mem_append.mpr ⟨neutral_of_blanks hbefore,
      List.forall_mem_append.mpr ⟨hsymbol, neutral_of_blanks hafter⟩⟩
    have hframed := ihx.append hbetween ihy
    simp only [List.append_assoc] at hframed
    exact hframed
  | term _ ih => exact ih
  | not hgap _ ih => exact framed_not.append (neutral_of_blanks hgap.1) ih
  | unary _ ih => exact ih
  | link op _ hbefore hafter _ ihx ihy =>
    have hright := (framed_keyword op).append (neutral_of_blanks hafter.1) ihy
    exact ihx.append (neutral_of_blanks hbefore.1) hright
  | chain _ ih => exact ih
  | more _ hgap _ ihx ihy => exact ihx.append (neutral_of_blanks hgap.1) ihy

end Sentence

end RowSearch.Query
