import RowSearch.Proofs.Coverage
import RowSearch.Wildcard.Engine
/-!
# Engines that work as documented

All that is asked of an engine is that it finds what the items of an expression say; of expressions, only
those are read that consist of the items used here. Whatever such an engine takes it matches as the pattern
covers, and the tables of pieces are an engine of this kind.
-/

namespace RowSearch.Wildcard

/-! ### What an expression means -/

def Piece.Takes : Piece → List Char → Prop
  | .anyRun, _ => True
  | .anyOne, part => ∃ c, part = [c]
  | .exactly c, part => part = [c]

/-- Items accept a place in a text, between what is before it and what is after it. -/
def Accepts : List Item → (before after : List Char) → Prop
  | [], _, _ => True
  | .start :: items, before, after => before = [] ∧ Accepts items before after
  | .stop :: items, before, after => after = [] ∧ Accepts items before after
  | .piece piece :: items, before, after =>
    ∃ part rest, after = part ++ rest ∧ piece.Takes part ∧ Accepts items (before ++ part) rest

namespace Engine

/-- An engine finds an expression in a text when the items of the expression accept a place in it. -/
def Documented (engine : Engine) : Prop :=
  ∀ source items found, items? source = some items → engine (dotAll ++ source) = some found →
    ∀ text, found text = true ↔ ∃ before after, text = before ++ after ∧ Accepts items before after

/-- A pattern that an engine takes, or need not take as it has no wildcards. -/
def Takes (engine : Engine) (pattern : List Char) (anchoring : Anchoring) : Prop :=
  hasWildcards pattern = false ∨ (engine.compile? pattern anchoring).isSome

/-- What an engine does not take is compared as plain text. -/
theorem matchesPattern_of_not_takes {engine : Engine} {pattern : List Char} {anchoring : Anchoring}
    (h : ¬engine.Takes pattern anchoring) (text : List Char) :
    matchesPattern pattern anchoring text engine = matchesPlain pattern anchoring text := by
  obtain ⟨hwild, hrefused⟩ := not_or.mp h
  rw [Option.isSome_iff_ne_none, not_not] at hrefused
  rw [matchesPattern, if_pos (by simpa using hwild), hrefused]

end Engine

/-! ### The items of a pattern -/

theorem items?_point {rest : List Char} (h : rest.head? ≠ some '*') :
    items? ('.' :: rest) = (items? rest).map (.piece .anyOne :: ·) := by
  rw [items?]
  rintro tail rfl
  exact h rfl

theorem items?_escape {c : Char} (hc : isMeta c = true) (rest : List Char) :
    items? ('\\' :: c :: rest) = (items? rest).map (.piece (.exactly c) :: ·) := by
  rw [items?, if_pos hc]

theorem items?_plain {c : Char} (hc : isMeta c = false) (rest : List Char) :
    items? (c :: rest) = (items? rest).map (.piece (.exactly c) :: ·) := by
  have hne {d : Char} (hd : isMeta d = true) : c ≠ d := by
    rintro rfl
    exact Bool.false_ne_true (hc.symm.trans hd)
  rw [items?, if_neg (by rw [hc]; exact Bool.false_ne_true)]
  · exact hne (by decide)
  · exact hne (by decide)
  · exact fun _ h _ => hne (by decide) h
  · exact hne (by decide)
  · exact fun _ _ h _ => hne (by decide) h

theorem head?_written_append (pattern : List Char) {more : List Char} (hmore : more.head? ≠ some '*') :
    (pattern.flatMap written ++ more).head? ≠ some '*' := by
  cases pattern with
  | nil => exact hmore
  | cons c pattern =>
    rw [List.flatMap_cons, written]
    split_ifs with hrun hone hmeta
    · simp
    · simp
    · simp
    · simpa using hrun

/-- An expression is read as the pieces of the pattern from which it was written. -/
theorem items?_written (pattern : List Char) {more : List Char} {items : List Item}
    (hmore : more.head? ≠ some '*') (hitems : items? more = some items) :
    items? (pattern.flatMap written ++ more) =
      some ((pattern.map Piece.ofChar).map .piece ++ items) := by
  induction pattern with
  | nil => exact hitems
  | cons c pattern ih =>
    rw [List.flatMap_cons, List.append_assoc, List.map_cons, List.map_cons, List.cons_append]
    by_cases hrun : c = '*'
    · subst hrun
      change items? ('.' :: '*' :: (pattern.flatMap written ++ more)) = _
      rw [items?, ih]
      rfl
    · by_cases hone : c = '_'
      · subst hone
        change items? ('.' :: (pattern.flatMap written ++ more)) = _
        rw [items?_point (head?_written_append pattern hmore), ih]
        rfl
      · rw [written, if_neg hrun, if_neg hone, Piece.ofChar_of_ne hrun hone]
        cases hc : isMeta c with
        | true =>
          rw [if_pos rfl, List.cons_append, List.singleton_append, items?_escape hc, ih]
          rfl
        | false =>
          rw [if_neg Bool.false_ne_true, List.singleton_append, items?_plain hc, ih]
          rfl

theorem exists_source (pattern : List Char) (anchoring : Anchoring) :
    ∃ source, expression pattern anchoring = dotAll ++ source ∧
      items? source = some (itemsOf (pattern.map Piece.ofChar) anchoring) := by
  cases anchoring with
  | anchored =>
    have hbody : items? (pattern.flatMap written ++ ['$']) = some (_ ++ [Item.stop]) :=
      items?_written pattern (by decide) rfl
    refine ⟨_, rfl, ?_⟩
    rw [items?, hbody]
    rfl
  | floating =>
    have hbody : items? (pattern.flatMap written ++ []) = some (_ ++ []) :=
      items?_written pattern (by decide) rfl
    rw [List.append_nil, List.append_nil] at hbody
    exact ⟨_, rfl, hbody⟩

/-! ### What the items accept -/

theorem fits_cons {piece : Piece} {pieces : List Piece} {text : List Char} :
    Fits (piece :: pieces) text ↔
      ∃ part rest, text = part ++ rest ∧ piece.Takes part ∧ Fits pieces rest := by
  constructor
  · intro h
    cases h with
    | anyRun run h => exact ⟨run, _, rfl, trivial, h⟩
    | anyOne c h => exact ⟨[c], _, rfl, ⟨c, rfl⟩, h⟩
    | exactly c h => exact ⟨[c], _, rfl, rfl, h⟩
  · intro h
    obtain ⟨part, rest, rfl, hpart, hrest⟩ := h
    cases piece with
    | anyRun => exact .anyRun part hrest
    | anyOne =>
      obtain ⟨c, rfl⟩ := hpart
      exact .anyOne c hrest
    | exactly c =>
      cases hpart
      exact .exactly c hrest

theorem accepts_pieces {pieces : List Piece} {more : List Item} {before after : List Char} :
    Accepts (pieces.map .piece ++ more) before after ↔
      ∃ part rest, after = part ++ rest ∧ Fits pieces part ∧ Accepts more (before ++ part) rest := by
  induction pieces generalizing before after with
  | nil =>
    constructor
    · intro h
      refine ⟨[], after, rfl, .nil, ?_⟩
      rwa [List.append_nil]
    · intro h
      obtain ⟨part, rest, rfl, hpart, hrest⟩ := h
      cases hpart
      rwa [List.append_nil] at hrest
  | cons piece pieces ih =>
    rw [List.map_cons, List.cons_append, Accepts]
    simp only [ih, fits_cons]
    constructor
    · intro h
      obtain ⟨first, _, rfl, hfirst, part, rest, rfl, hpart, hrest⟩ := h
      refine ⟨first ++ part, rest, (List.append_assoc _ _ _).symm, ⟨first, part, rfl, hfirst, hpart⟩, ?_⟩
      rwa [← List.append_assoc]
    · intro h
      obtain ⟨_, rest, rfl, ⟨first, part, rfl, hfirst, hpart⟩, hrest⟩ := h
      refine ⟨first, part ++ rest, List.append_assoc _ _ _, hfirst, part, rest, rfl, hpart, ?_⟩
      rwa [List.append_assoc]

/-- Some place in a text is accepted by the items of pieces exactly when the pieces match the text. -/
theorem accepts_itemsOf {pieces : List Piece} {anchoring : Anchoring} {text : List Char} :
    (∃ before after, text = before ++ after ∧ Accepts (itemsOf pieces anchoring) before after) ↔
      Glob.matches ⟨anchoring, pieces⟩ text = true := by
  cases anchoring with
  | anchored =>
    rw [Glob.matches_anchored]
    simp only [itemsOf, Accepts, accepts_pieces]
    constructor
    · intro h
      obtain ⟨before, after, rfl, rfl, part, rest, rfl, hpart, rfl, -⟩ := h
      rwa [List.nil_append, List.append_nil]
    · intro h
      exact ⟨[], text, rfl, rfl, text, [], (List.append_nil _).symm, h, rfl, trivial⟩
  | floating =>
    have hitems (before after : List Char) : Accepts (itemsOf pieces .floating) before after ↔
        ∃ part rest, after = part ++ rest ∧ Fits pieces part := by
      rw [itemsOf, ← List.append_nil (pieces.map _), accepts_pieces]
      simp only [Accepts, and_true]
    rw [Glob.matches_floating]
    simp only [hitems]
    constructor
    · intro h
      obtain ⟨before, _, rfl, part, after, rfl, hpart⟩ := h
      exact ⟨part, ⟨before, after, List.append_assoc _ _ _⟩, hpart⟩
    · intro h
      obtain ⟨part, ⟨before, after, rfl⟩, hpart⟩ := h
      exact ⟨before, part ++ after, List.append_assoc _ _ _, part, after, rfl, hpart⟩

/-! ### The tables as an engine -/

theorem Engine.tables_dotAll (source : List Char) :
    Engine.tables (dotAll ++ source) = ((items? source).bind globOf?).map Glob.matches := by
  rw [Engine.tables, if_pos (List.isPrefixOf_iff_prefix.mpr (List.prefix_append _ _)), List.drop_left]

theorem items_eq_of_globOf? {items : List Item} {glob : Glob} (h : globOf? items = some glob) :
    items = itemsOf glob.pieces glob.anchoring := by
  rw [globOf?] at h
  split at h
  · obtain ⟨anchoring, -, hfound⟩ := List.exists_of_findSome?_eq_some h
    split at hfound
    · next hitems =>
      cases hfound
      exact hitems
    · nomatch hfound
  · nomatch h

theorem filterMap_itemsOf (pieces : List Piece) (anchoring : Anchoring) :
    (itemsOf pieces anchoring).filterMap Item.piece? = pieces := by
  have hpieces : (pieces.map Item.piece).filterMap Item.piece? = pieces := by
    rw [List.filterMap_map]
    exact List.filterMap_some
  cases anchoring with
  | anchored =>
    rw [itemsOf, List.filterMap_cons_none rfl, List.filterMap_append, hpieces]
    exact List.append_nil _
  | floating => exact hpieces

theorem itemsOf_floating_ne (pieces : List Piece) :
    itemsOf pieces .floating ≠ itemsOf pieces .anchored := by
  intro h
  cases pieces <;> cases h

theorem countP_ofChar (pattern : List Char) :
    (pattern.map Piece.ofChar).countP (fun piece => piece = .anyRun ∨ piece = .anyOne) =
      pattern.countP isWildcard := by
  rw [List.countP_map]
  congr 1
  funext c
  rw [Function.comp, Piece.ofChar, isWildcard]
  split_ifs with hrun hone <;> simp [*]

/-- The tables take the patterns with no more wildcards than they have room for. -/
theorem Engine.compile?_tables (pattern : List Char) (anchoring : Anchoring) :
    Engine.tables.compile? pattern anchoring =
      if pattern.countP isWildcard ≤ capacity then some (Glob.matches ⟨anchoring, pattern.map Piece.ofChar⟩)
      else none := by
  obtain ⟨source, hsource, hitems⟩ := exists_source pattern anchoring
  rw [Engine.compile?, hsource, Engine.tables_dotAll, hitems, Option.bind_some, globOf?, filterMap_itemsOf,
    countP_ofChar]
  split
  · cases anchoring with
    | anchored => simp
    | floating => simp [itemsOf_floating_ne]
  · rfl

theorem Engine.takes_tables {pattern : List Char} (h : pattern.countP isWildcard ≤ capacity)
    (anchoring : Anchoring) : Engine.tables.Takes pattern anchoring := by
  right
  rw [Engine.compile?_tables, if_pos h]
  rfl

theorem Engine.documented_tables : Engine.tables.Documented := by
  intro source items found hitems hfound text
  rw [Engine.tables_dotAll, hitems, Option.bind_some, Option.map_eq_some_iff] at hfound
  obtain ⟨glob, hglob, rfl⟩ := hfound
  rw [items_eq_of_globOf? hglob, accepts_itemsOf]

/-! ### Matching is covering -/

/-- A way of matching decides what patterns cover, for those that it takes. A floating pattern then
matches what it matches anchored, with a run on either side. -/
structure Decides (takes : List Char → Anchoring → Prop)
    (found : List Char → Anchoring → List Char → Bool) : Prop where
  found_iff : ∀ pattern anchoring text, takes pattern anchoring →
    (found pattern anchoring text = true ↔ CoversAt anchoring pattern text)
  surrounded : ∀ pattern text, takes pattern .floating → takes ('*' :: (pattern ++ ['*'])) .anchored →
    found pattern .floating text = found ('*' :: (pattern ++ ['*'])) .anchored text

theorem decides_of_found_iff {takes : List Char → Anchoring → Prop}
    {found : List Char → Anchoring → List Char → Bool}
    (h : ∀ pattern anchoring text, takes pattern anchoring →
      (found pattern anchoring text = true ↔ CoversAt anchoring pattern text)) :
    Decides takes found where
  found_iff := h
  surrounded pattern text hfloating hanchored := by
    rw [Bool.eq_iff_iff, h _ _ _ hfloating, h _ _ _ hanchored, coversAt_surrounded]

theorem Engine.Documented.matchesPattern_iff {engine : Engine} (hengine : engine.Documented)
    {pattern : List Char} {anchoring : Anchoring} (text : List Char) (h : engine.Takes pattern anchoring) :
    matchesPattern pattern anchoring text engine = true ↔ CoversAt anchoring pattern text := by
  rw [matchesPattern]
  split
  · next hwild =>
    have htaken := h.resolve_left (ne_false_of_eq_true hwild)
    obtain ⟨found, hfound⟩ := Option.isSome_iff_exists.mp htaken
    obtain ⟨source, hsource, hitems⟩ := exists_source pattern anchoring
    rw [hfound, ← Glob.matches_iff, ← accepts_itemsOf]
    rw [Engine.compile?, hsource] at hfound
    exact hengine source _ found hitems hfound text
  · next hplain => exact matchesPlain_iff (eq_false_of_ne_true hplain)

/-- Matching decides what patterns cover: with the tables for all patterns that have no more wildcards than
these have room for, and with any engine that works as documented for all patterns that it takes. -/
theorem matchesPattern_decides :
    Decides (fun pattern _ => pattern.countP isWildcard ≤ capacity) matchesPattern ∧
      ∀ engine : Engine, engine.Documented →
        Decides engine.Takes fun pattern anchoring text => matchesPattern pattern anchoring text engine := by
  constructor
  · exact decides_of_found_iff fun pattern anchoring text hfew =>
      Engine.documented_tables.matchesPattern_iff text (Engine.takes_tables hfew anchoring)
  · exact fun engine hengine =>
      decides_of_found_iff fun pattern anchoring text => hengine.matchesPattern_iff text

/-- The pattern `a.*_` stands for `a.`, a line end and another character, and its point for itself. -/
theorem matchesPattern_decides_metacharacters :
    Engine.tables.Documented ∧
      Covers "a.*_".toList "a.\nλ".toList ∧ ¬ Covers "a.*_".toList "ab\nλ".toList ∧
      CoversAt .floating "a.*_".toList "xa.λx".toList := by
  obtain ⟨htables, hdecides⟩ := matchesPattern_decides
  have hengine := hdecides Engine.tables Engine.documented_tables
  refine ⟨Engine.documented_tables, ?_, ?_, ?_⟩
  · exact (hengine.found_iff _ .anchored _ (.inr (by decide))).mp (by decide)
  · exact fun h => absurd ((htables.found_iff _ .anchored _ (by decide)).mpr h) (by decide)
  · exact (htables.found_iff _ .floating _ (by decide)).mp (by decide)

end RowSearch.Wildcard
