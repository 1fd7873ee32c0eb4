import RowSearch.Proofs.Sentence.Grammar
/-!
# The layout of a sentence

What is left of a rendering when its layout is taken out is a row of parts, one for each keyword and
each term, with a space between any two. The row is a rendering of the same sentence, so every query
inside of a part is a rendering again, of a sentence one level further in. Both are proved together by
one induction over the rendering. Each part is one token, as it hides the space at its top.
-/

namespace RowSearch.Query

open Text (isBlank Blank)
open Zone (top)

namespace Sentence

/-! ### Parts -/

/-- What a part of a sentence is: a keyword, or a term with its comparison. -/
inductive Item where
  | not
  | logic (op : LogicOp)
  | term (term : Sentence .term)

def items : {k : Category} → Sentence k → List Item
  | _, word w => [.term (operand (word w))]
  | _, phrase p => [.term (operand (phrase p))]
  | _, call f query => [.term (operand (call f query))]
  | _, operand x => x.items
  | _, comparison op key value => [.term (comparison op key value)]
  | _, term x => x.items
  | _, not x => .not :: x.items
  | _, unary x => x.items
  | _, link op left right => left.items ++ .logic op :: right.items
  | _, chain x => x.items
  | _, more init last => init.items ++ last.items

/-- The texts of an item without layout. Inside of calls there may still be some. -/
inductive Shows : Item → List Char → Prop
  | not : Shows .not "NOT".toList
  | logic (op : LogicOp) : Shows (.logic op) op.keyword.toList
  | operand {x : Sentence .operand} {text : List Char} :
    Renders x text → Shows (.term (operand x)) text
  | comparison (op : CompareOp) {key value : Sentence .operand} {x y : List Char} :
    Renders key x → Renders value y →
    Shows (.term (comparison op key value)) (x ++ (op.symbol.toList ++ y))

/-- What taking out the layout makes of a rendering. -/
structure LaidOut {k : Category} (s : Sentence k) (text : List Char) (parts : List (List Char)) :
    Prop where
  ne_nil : parts ≠ []
  tidy : ∀ glue, tidyFrom top glue text = [' '].intercalate parts
  shows : List.Forall₂ Shows s.items parts
  renders : Renders s ([' '].intercalate parts)

end Sentence

theorem intercalate_append {separator : List Char} {xs ys : List (List Char)} (hxs : xs ≠ [])
    (hys : ys ≠ []) :
    separator.intercalate (xs ++ ys) =
      separator.intercalate xs ++ (separator ++ separator.intercalate ys) := by
  induction xs with
  | nil => exact absurd rfl hxs
  | cons x rest ih =>
    cases rest with
    | nil =>
      rw [List.singleton_append, List.intercalate_cons_of_ne_nil hys, List.intercalate_singleton,
        List.append_assoc]
    | cons next rest =>
      rw [List.cons_append, List.intercalate_cons_of_ne_nil (by simp), ih (List.cons_ne_nil _ _),
        List.intercalate_cons_cons]
      simp only [List.append_assoc]

theorem gap_space : Gap [' '] :=
  ⟨Text.blank_space, List.cons_ne_nil _ _⟩

theorem tidyFrom_quoteBody {body : List Char} (h : QuoteBody body) (d : Nat) (glue : Bool) :
    tidyFrom ⟨d, true, false⟩ glue body = body := by
  induction h generalizing glue with
  | nil => rfl
  | escape c _ ih =>
    rw [tidyFrom_keep (.inl rfl), tidyFrom_keep (.inl rfl)]
    exact congrArg (fun rest => '\\' :: c :: rest) (ih _)
  | plain hescape hquote _ ih =>
    rw [tidyFrom_keep (.inl rfl), Zone.step_quoted hescape hquote, ih]

theorem Phrase.tidyFrom (p : Phrase) (glue : Bool) :
    tidyFrom top glue ('"' :: (p.body ++ ['"'])) = '"' :: (p.body ++ ['"']) := by
  have hopen : top.step (Mark.ofChar '"') = ⟨0, true, false⟩ := rfl
  have hclose (z : Zone) (glue : Bool) : Query.tidyFrom z glue ['"'] = ['"'] :=
    tidyFrom_of_not_blank (by decide) z glue
  rw [tidyFrom_keep (.inr (by decide)), hopen,
    tidyFrom_append (apart_of_not_startsComparison (by decide) _), tidyFrom_quoteBody p.closed, hclose]

/-- A comparison symbol takes the blanks behind it with it. -/
theorem tidyFrom_symbol (op : CompareOp) (glue : Bool) (text : List Char) :
    tidyFrom top glue (op.symbol.toList ++ text) = op.symbol.toList ++ tidyFrom top true text := by
  cases op <;> rfl

theorem startsComparison_symbol (op : CompareOp) (text : List Char) :
    startsComparison (op.symbol.toList ++ text) = true := by
  cases op <;> rfl

/-- Blanks around a framed text are at most a blank on either side of the text without layout. -/
theorem Framed.exists_tidyFrom {text before after : List Char} (h : Framed text)
    (hbefore : Blank before) (hafter : Blank after) :
    ∃ lead tail, Blank lead ∧ Blank tail ∧
      tidyFrom top false (before ++ text ++ after) = lead ++ tidyFrom top true text ++ tail := by
  obtain ⟨lead, hlead, heq⟩ :=
    exists_blank_tidyFrom (z := top) rfl false (before ++ text ++ after)
  refine ⟨lead, tidyFrom top false after, hlead, blank_tidyFrom hafter rfl false, ?_⟩
  rw [heq, List.append_assoc, tidyFrom_blank_append hbefore rfl rfl, tidyFrom_firm_append h.firm,
    Zone.run_eq_of_run? h.run, List.append_assoc]

/-- A gap between framed texts becomes one space, and each of them is laid out as if it stood alone. -/
theorem Framed.tidyFrom_gap {x gap y : List Char} (hx : Framed x) (hgap : Gap gap) (hy : Framed y)
    (glue : Bool) :
    tidyFrom top glue (x ++ (gap ++ y)) = tidyFrom top glue x ++ ([' '] ++ tidyFrom top true y) :=
  tidyFrom_append_gap hx.firm (Zone.run_eq_of_run? hx.run) rfl rfl hgap.1 hgap.2
    hy.not_startsComparison glue

theorem Framed.solid {separator : Char} {text : List Char} (h : Framed text)
    (hseparator : special separator = true) (hhides : Hides (· == separator) top text) :
    Solid separator text := by
  have hne : ∀ c, special c = false → c ≠ separator := by
    intro c hc heq
    rw [heq, hseparator] at hc
    cases hc
  obtain ⟨c, rest, hfirst, hc⟩ := h.first
  obtain ⟨before, d, hlast, hd⟩ := h.last
  exact ⟨h.run, hhides, ⟨c, rest, hfirst, (not_special hc).1, hne c hc⟩,
    ⟨before, d, hlast, (not_special hd).1, hne d hd⟩⟩

theorem Framed.trim_eq {before text after : List Char} (h : Framed text) (hbefore : Blank before)
    (hafter : Blank after) : Text.trim (before ++ text ++ after) = text := by
  obtain ⟨c, rest, hfirst, hc⟩ := h.first
  obtain ⟨front, d, hlast, hd⟩ := h.last
  refine Text.trim_tight hbefore ?_ hafter
  exact Text.tight_of_ends hfirst (not_special hc).1 hlast (not_special hd).1

theorem Framed.trim_eq_self {text : List Char} (h : Framed text) : Text.trim text = text := by
  have htrim := h.trim_eq Text.blank_nil Text.blank_nil
  rwa [List.nil_append, List.append_nil] at htrim

/-! ### Taking out the layout -/

namespace Sentence

namespace LaidOut

variable {parts : List (List Char)}

theorem single {k : Category} {s : Sentence k} {text part : List Char}
    (htidy : ∀ glue, tidyFrom top glue text = part) {x : Sentence .operand}
    (hitems : s.items = [.term (Sentence.operand x)]) (hx : Renders x part) (hs : Renders s part) :
    LaidOut s text [part] where
  ne_nil := List.cons_ne_nil _ _
  tidy glue := by rw [List.intercalate_singleton, htidy]
  shows := by
    rw [hitems]
    exact .cons (.operand hx) .nil
  renders := by rwa [List.intercalate_singleton]

theorem call {f : Function} {query : Sentence .query} {before text after : List Char}
    (hbefore : Blank before) (hframed : Framed text) (hafter : Blank after)
    (h : LaidOut query text parts) :
    ∃ part, LaidOut (call f query) (callText f (before ++ text ++ after)) [part] := by
  obtain ⟨lead, tail, hlead, htail, htidy⟩ := hframed.exists_tidyFrom hbefore hafter
  rw [h.tidy] at htidy
  have hrenders := Renders.call f hlead h.renders htail
  refine ⟨_, .single (fun glue => ?_) rfl hrenders hrenders⟩
  rw [top, tidyFrom_callText, ← htidy, top]

theorem comparison {op : CompareOp} {key value : Sentence .operand}
    {x before after y : List Char} {keyParts valueParts : List (List Char)}
    (hx : Framed x) (hbefore : Blank before) (hafter : Blank after)
    (hkey : LaidOut key x keyParts) (hvalue : LaidOut value y valueParts) :
    ∃ part, LaidOut (comparison op key value)
      (x ++ (before ++ (op.symbol.toList ++ (after ++ y)))) [part] := by
  refine ⟨[' '].intercalate keyParts ++ (op.symbol.toList ++ [' '].intercalate valueParts),
    List.cons_ne_nil _ _, fun glue => ?_, .cons (.comparison op hkey.renders hvalue.renders) .nil, ?_⟩
  · rw [List.intercalate_singleton, tidyFrom_firm_append hx.firm, Zone.run_eq_of_run? hx.run,
      tidyFrom_gap_comparison hbefore rfl rfl (startsComparison_symbol op _), tidyFrom_symbol,
      tidyFrom_blank_append hafter rfl rfl, hkey.tidy, hvalue.tidy]
  · rw [List.intercalate_singleton]
    exact .comparison op hkey.renders Text.blank_nil Text.blank_nil hvalue.renders

/-- What holds of a sentence holds of the larger one that it makes up alone. -/
theorem lift {k k' : Category} {s : Sentence k} {s' : Sentence k'} {text : List Char}
    (h : LaidOut s text parts) (hitems : s'.items = s.items)
    (hrenders : ∀ {text : List Char}, Renders s text → Renders s' text) : LaidOut s' text parts where
  ne_nil := h.ne_nil
  tidy := h.tidy
  shows := by
    rw [hitems]
    exact h.shows
  renders := hrenders h.renders

theorem not {x : Sentence .unary} {gap text : List Char} (hgap : Gap gap) (htext : Framed text)
    (h : LaidOut x text parts) :
    LaidOut (not x) ("NOT".toList ++ (gap ++ text)) ("NOT".toList :: parts) := by
  have hrow : [' '].intercalate ("NOT".toList :: parts) =
      "NOT".toList ++ ([' '] ++ [' '].intercalate parts) := by
    rw [List.intercalate_cons_of_ne_nil h.ne_nil, List.append_assoc]
  refine ⟨List.cons_ne_nil _ _, fun glue => ?_, .cons .not h.shows, ?_⟩
  · rw [framed_not.tidyFrom_gap hgap htext, tidyFrom_of_not_blank (by decide), h.tidy, hrow]
  · rw [hrow]
    exact .not gap_space h.renders

theorem link {op : LogicOp} {s : Sentence .chain} {s' : Sentence .unary}
    {x before after y : List Char} {left right : List (List Char)} (hx : Framed x)
    (hbefore : Gap before) (hafter : Gap after) (hy : Framed y) (hs : LaidOut s x left)
    (hs' : LaidOut s' y right) :
    LaidOut (link op s s') (x ++ (before ++ (op.keyword.toList ++ (after ++ y))))
      (left ++ op.keyword.toList :: right) := by
  have hkeyword := framed_keyword op
  have hfollowing := hkeyword.append (neutral_of_blanks hafter.1) hy
  have hrow : [' '].intercalate (left ++ op.keyword.toList :: right) =
      [' '].intercalate left ++ ([' '] ++ (op.keyword.toList ++
        ([' '] ++ [' '].intercalate right))) := by
    rw [intercalate_append hs.ne_nil (List.cons_ne_nil _ _),
      List.intercalate_cons_of_ne_nil hs'.ne_nil, List.append_assoc op.keyword.toList]
  have hletters : ∀ c ∈ op.keyword.toList, isBlank c = false := by cases op <;> decide
  refine ⟨List.append_ne_nil_of_left_ne_nil hs.ne_nil _, fun glue => ?_,
    List.rel_append hs.shows (.cons (.logic op) hs'.shows), ?_⟩
  · rw [hx.tidyFrom_gap hbefore hfollowing, hkeyword.tidyFrom_gap hafter hy,
      tidyFrom_of_not_blank hletters, hs.tidy, hs'.tidy, hrow]
  · rw [hrow]
    exact .link op hs.renders gap_space gap_space hs'.renders

theorem more {s : Sentence .query} {s' : Sentence .chain} {x gap y : List Char}
    {left right : List (List Char)} (hx : Framed x) (hgap : Gap gap) (hy : Framed y)
    (hs : LaidOut s x left) (hs' : LaidOut s' y right) :
    LaidOut (more s s') (x ++ (gap ++ y)) (left ++ right) := by
  have hrow : [' '].intercalate (left ++ right) =
      [' '].intercalate left ++ ([' '] ++ [' '].intercalate right) :=
    intercalate_append hs.ne_nil hs'.ne_nil
  refine ⟨List.append_ne_nil_of_left_ne_nil hs.ne_nil _, fun glue => ?_,
    List.rel_append hs.shows hs'.shows, ?_⟩
  · rw [hx.tidyFrom_gap hgap hy, hs.tidy, hs'.tidy, hrow]
  · rw [hrow]
    exact .more hs.renders gap_space hs'.renders

end LaidOut

theorem Renders.exists_laidOut {k : Category} {s : Sentence k} {text : List Char}
    (h : Renders s text) : ∃ parts, LaidOut s text parts := by
  induction h with
  | word w =>
    have hplain : ∀ c ∈ w.text, isBlank c = false :=
      fun c hc => (not_special (w.plain c hc).1).1
    exact ⟨_, .single (tidyFrom_of_not_blank hplain top) rfl (.word w) (.word w)⟩
  | phrase p => exact ⟨_, .single p.tidyFrom rfl (.phrase p) (.phrase p)⟩
  | call f hbefore htext hafter ih =>
    obtain ⟨parts, hparts⟩ := ih
    obtain ⟨part, hpart⟩ := hparts.call hbefore htext.framed hafter
    exact ⟨_, hpart⟩
  | operand _ ih =>
    obtain ⟨parts, hparts⟩ := ih
    exact ⟨parts, hparts.lift rfl .operand⟩
  | comparison op hkey hbefore hafter _ ihx ihy =>
    obtain ⟨keyParts, hkeyParts⟩ := ihx
    obtain ⟨valueParts, hvalueParts⟩ := ihy
    obtain ⟨part, hpart⟩ :=
      LaidOut.comparison hkey.framed hbefore hafter hkeyParts hvalueParts
    exact ⟨_, hpart⟩
  | term _ ih =>
    obtain ⟨parts, hparts⟩ := ih
    exact ⟨parts, hparts.lift rfl .term⟩
  | not hgap htext ih =>
    obtain ⟨parts, hparts⟩ := ih
    exact ⟨_, hparts.not hgap htext.framed⟩
  | unary _ ih =>
    obtain ⟨parts, hparts⟩ := ih
    exact ⟨parts, hparts.lift rfl .unary⟩
  | link op hx hbefore hafter hy ihx ihy =>
    obtain ⟨left, hleft⟩ := ihx
    obtain ⟨right, hright⟩ := ihy
    exact ⟨_, .link hx.framed hbefore hafter hy.framed hleft hright⟩
  | chain _ ih =>
    obtain ⟨parts, hparts⟩ := ih
    exact ⟨parts, hparts.lift rfl .chain⟩
  | more hx hgap hy ihx ihy =>
    obtain ⟨left, hleft⟩ := ihx
    obtain ⟨right, hright⟩ := ihy
    exact ⟨_, .more hx.framed hgap hy.framed hleft hright⟩

/-! ### Parts as tokens -/

/-- An operand shows nothing that separates. -/
theorem Renders.hides_special {x : Sentence .operand} {text : List Char} (h : Renders x text) :
    Hides special top text := by
  cases h with
  | word w => exact .of_forall fun c hc => (w.plain c hc).1
  | phrase p => exact p.hides (by decide)
  | call f hbefore htext hafter =>
    exact hides_callText (htext.framed.run?_blank hbefore hafter) (by cases f <;> decide) (by decide)

theorem comparing_special {c : Char} (h : comparing c = true) : special c = true := by
  rw [special, h, Bool.or_true, Bool.true_or]

theorem space_special {c : Char} (h : (c == ' ') = true) : special c = true := by
  rw [beq_iff_eq.mp h]
  decide

theorem Shows.solid {item : Item} {part : List Char} (h : Shows item part) : Solid ' ' part := by
  cases h with
  | not => exact framed_not.solid (by decide) (.of_forall (by decide))
  | logic op => exact (framed_keyword op).solid (by decide) (.of_forall (by cases op <;> decide))
  | operand hx => exact hx.framed.solid (by decide) (hx.hides_special.imp fun _ => space_special)
  | comparison op hx hy =>
    have hsymbol : ∀ c ∈ op.symbol.toList, Mark.ofChar c = .neutral ∧ c ≠ ',' := by
      cases op <;> decide
    have hspaces : ∀ c ∈ op.symbol.toList, (c == ' ') = false := by cases op <;> decide
    refine (hx.framed.append hsymbol hy.framed).solid (by decide) ?_
    rw [hides_append, hides_append, Zone.run_eq_of_run? hx.framed.run,
      Zone.run_eq_of_run? (Zone.run?_neutral rfl op.neutral_symbol)]
    exact ⟨hx.hides_special.imp fun _ => space_special, .of_forall hspaces,
      hy.hides_special.imp fun _ => space_special⟩

theorem solid_of_shows {items : List Item} {parts : List (List Char)}
    (h : List.Forall₂ Shows items parts) : ∀ part ∈ parts, Solid ' ' part := by
  induction h with
  | nil => exact fun _ hpart => (List.not_mem_nil hpart).elim
  | cons hitem _ ih => exact List.forall_mem_cons.mpr ⟨hitem.solid, ih⟩

theorem Renders.exists_tokens {k : Category} {s : Sentence k} {before text after : List Char}
    (h : Renders s text) (hbefore : Blank before) (hafter : Blank after) :
    ∃ parts, tokens (before ++ text ++ after) = .ok parts ∧ List.Forall₂ Shows s.items parts := by
  obtain ⟨parts, hne, htidy, hshows, hrenders⟩ := h.exists_laidOut
  have hquoted : (top.run text).quoted = false := by
    rw [Zone.run_eq_of_run? h.framed.run]
    rfl
  refine ⟨parts, tokens_of_tidy ?_ hne (solid_of_shows hshows), hshows⟩
  rw [tidy_append hbefore hafter hquoted, tidy, htidy, hrenders.framed.trim_eq_self]

/-- What stands in the parentheses of a call is one argument, the rendering without the blanks at its
ends. -/
theorem Renders.splitAt_comma {k : Category} {s : Sentence k} {before text after : List Char}
    (h : Renders s text) (hbefore : Blank before) (hafter : Blank after) :
    splitAt [','] (before ++ text ++ after) = .ok [text] := by
  have hsolid : Solid ',' text := h.framed.solid (by decide) h.framed.commas
  have hsplit := splitAt_intercalate (by decide) (List.cons_ne_nil text [])
    (List.forall_mem_singleton.mpr hsolid)
  rw [List.intercalate_singleton, splitAt, trimSeparators, h.framed.trim_eq_self] at hsplit
  rw [splitAt, trimSeparators, h.framed.trim_eq hbefore hafter]
  exact hsplit

end Sentence

end RowSearch.Query
