import Mathlib.Data.List.Infix
import RowSearch.Wildcard.Glob
/-!
# What a pattern covers

`Covers` says which texts a wildcard pattern stands for, without a matcher. A compiled pattern decides
this with a table of the end parts of the text, and plain text by comparing: an anchored pattern matches
the texts that it covers, and a floating one those of which it covers a part. The table of some pieces
tabulates what the pieces fit, and each step of the table adds one piece in front.
-/

namespace RowSearch.Wildcard

/-! ### Patterns and texts -/

/-- A pattern covers a text: `*` stands for any run of characters, `_` for one character, and every
other character for itself. -/
inductive Covers : List Char → List Char → Prop
  | nil : Covers [] []
  | anyRun (run : List Char) {pattern text : List Char} :
    Covers pattern text → Covers ('*' :: pattern) (run ++ text)
  | anyOne (c : Char) {pattern text : List Char} :
    Covers pattern text → Covers ('_' :: pattern) (c :: text)
  | exactly {c : Char} {pattern text : List Char} :
    c ≠ '*' → c ≠ '_' → Covers pattern text → Covers (c :: pattern) (c :: text)

/-- A pattern covers a text where it has to: all of it, or some part of it. -/
def CoversAt : Anchoring → (pattern text : List Char) → Prop
  | .anchored, pattern, text => Covers pattern text
  | .floating, pattern, text => ∃ part, part <:+: text ∧ Covers pattern part

inductive Fits : List Piece → List Char → Prop
  | nil : Fits [] []
  | anyRun (run : List Char) {pieces : List Piece} {text : List Char} :
    Fits pieces text → Fits (.anyRun :: pieces) (run ++ text)
  | anyOne (c : Char) {pieces : List Piece} {text : List Char} :
    Fits pieces text → Fits (.anyOne :: pieces) (c :: text)
  | exactly (c : Char) {pieces : List Piece} {text : List Char} :
    Fits pieces text → Fits (.exactly c :: pieces) (c :: text)

theorem Piece.ofChar_of_ne {c : Char} (hrun : c ≠ '*') (hone : c ≠ '_') :
    Piece.ofChar c = .exactly c := by
  rw [Piece.ofChar, if_neg hrun, if_neg hone]

/-- A pattern covers what its pieces fit. -/
theorem covers_iff_fits {pattern text : List Char} :
    Covers pattern text ↔ Fits (pattern.map Piece.ofChar) text := by
  constructor
  · intro h
    induction h with
    | nil => exact .nil
    | anyRun run _ ih => exact .anyRun run ih
    | anyOne c _ ih => exact .anyOne c ih
    | exactly hrun hone _ ih =>
      rw [List.map_cons, Piece.ofChar_of_ne hrun hone]
      exact .exactly _ ih
  · intro h
    induction pattern generalizing text with
    | nil =>
      cases h
      exact .nil
    | cons c pattern ih =>
      rw [List.map_cons] at h
      by_cases hrun : c = '*'
      · subst hrun
        cases h with
        | anyRun run h => exact .anyRun run (ih h)
      · by_cases hone : c = '_'
        · subst hone
          cases h with
          | anyOne d h => exact .anyOne d (ih h)
        · rw [Piece.ofChar_of_ne hrun hone] at h
          cases h with
          | exactly _ h => exact .exactly hrun hone (ih h)

theorem fits_append {pieces more : List Piece} {text : List Char} :
    Fits (pieces ++ more) text ↔ ∃ part rest, text = part ++ rest ∧ Fits pieces part ∧ Fits more rest := by
  constructor
  · intro h
    induction pieces generalizing text with
    | nil => exact ⟨[], text, rfl, .nil, h⟩
    | cons piece pieces ih =>
      cases h with
      | anyRun run h =>
        obtain ⟨part, rest, rfl, hpart, hrest⟩ := ih h
        exact ⟨run ++ part, rest, (List.append_assoc _ _ _).symm, .anyRun run hpart, hrest⟩
      | anyOne c h =>
        obtain ⟨part, rest, rfl, hpart, hrest⟩ := ih h
        exact ⟨c :: part, rest, rfl, .anyOne c hpart, hrest⟩
      | exactly c h =>
        obtain ⟨part, rest, rfl, hpart, hrest⟩ := ih h
        exact ⟨c :: part, rest, rfl, .exactly c hpart, hrest⟩
  · intro h
    obtain ⟨part, rest, rfl, hpart, hrest⟩ := h
    induction hpart with
    | nil => exact hrest
    | anyRun run _ ih =>
      rw [List.append_assoc]
      exact .anyRun run ih
    | anyOne c _ ih => exact .anyOne c ih
    | exactly c _ ih => exact .exactly c ih

theorem fits_anyRun (text : List Char) : Fits [.anyRun] text := by
  have h := Fits.anyRun text .nil
  rwa [List.append_nil] at h

/-- With a run on either side, a row of pieces fits the texts of which it fits a part. -/
theorem fits_surrounded {pieces : List Piece} {text : List Char} :
    Fits (.anyRun :: (pieces ++ [.anyRun])) text ↔ ∃ part, part <:+: text ∧ Fits pieces part := by
  constructor
  · intro h
    cases h with
    | anyRun before h =>
      obtain ⟨part, after, rfl, hpart, -⟩ := fits_append.mp h
      exact ⟨part, ⟨before, after, List.append_assoc _ _ _⟩, hpart⟩
  · intro h
    obtain ⟨part, ⟨before, after, rfl⟩, hpart⟩ := h
    rw [List.append_assoc]
    exact .anyRun before (fits_append.mpr ⟨part, after, rfl, hpart, fits_anyRun after⟩)

/-- A part of a text is covered by a pattern when all of it is, with a run on either side of the
pattern. -/
theorem coversAt_surrounded {pattern text : List Char} :
    CoversAt .anchored ('*' :: (pattern ++ ['*'])) text ↔ CoversAt .floating pattern text := by
  rw [CoversAt, CoversAt, covers_iff_fits, List.map_cons, List.map_append]
  simp only [covers_iff_fits]
  exact fits_surrounded

/-! ### Tables -/

/-- A table that tells of each end part of a text, from the whole text to the empty one, whether it has
a property. -/
inductive Tabulates (P : List Char → Prop) : List Char → List Bool → Prop
  | nil {b : Bool} : (b = true ↔ P []) → Tabulates P [] [b]
  | cons {c : Char} {b : Bool} {text : List Char} {later : List Bool} :
    (b = true ↔ P (c :: text)) → Tabulates P text later → Tabulates P (c :: text) (b :: later)

namespace Tabulates

variable {P Q : List Char → Prop} {text : List Char} {table : List Bool}

theorem congr (h : Tabulates P text table) (hPQ : ∀ rest, P rest ↔ Q rest) :
    Tabulates Q text table := by
  induction h with
  | nil hb => exact .nil (hb.trans (hPQ _))
  | cons hb _ ih => exact .cons (hb.trans (hPQ _)) ih

theorem headD_iff (h : Tabulates P text table) : table.headD false = true ↔ P text := by
  cases h with
  | nil hb => exact hb
  | cons hb _ => exact hb

theorem any_iff (h : Tabulates P text table) :
    table.any id = true ↔ ∃ rest, rest <:+ text ∧ P rest := by
  induction h with
  | nil hb => simpa using hb
  | @cons c b text later hb _ ih =>
    rw [List.any_cons, Bool.or_eq_true, ih, id, hb]
    simp only [List.suffix_cons_iff, or_and_right, exists_or, exists_eq_left]

theorem runTable (h : Tabulates P text table) :
    Tabulates (fun whole => ∃ run rest, whole = run ++ rest ∧ P rest) text (runTable table) := by
  induction h with
  | @nil b hb =>
    refine .nil ?_
    rw [Wildcard.runTable, List.headD_nil, Bool.or_false, hb]
    constructor
    · intro h
      exact ⟨[], [], rfl, h⟩
    · intro h
      obtain ⟨run, rest, hwhole, hrest⟩ := h
      rwa [(List.append_eq_nil_iff.mp hwhole.symm).2] at hrest
  | @cons c b text later hb _ ih =>
    refine .cons ?_ ih
    rw [Bool.or_eq_true, ih.headD_iff, hb]
    constructor
    · intro h
      rcases h with h | ⟨run, rest, rfl, hrest⟩
      · exact ⟨[], _, rfl, h⟩
      · exact ⟨c :: run, rest, rfl, hrest⟩
    · intro h
      obtain ⟨run, rest, hwhole, hrest⟩ := h
      cases run with
      | nil =>
        rw [hwhole]
        exact .inl hrest
      | cons d run =>
        obtain ⟨rfl, rfl⟩ := List.cons.inj hwhole
        exact .inr ⟨run, rest, rfl, hrest⟩

theorem stepTable (accepts : Char → Bool) (h : Tabulates P text table) :
    Tabulates (fun whole => ∃ c rest, whole = c :: rest ∧ accepts c = true ∧ P rest) text
      (stepTable accepts text table) := by
  induction h with
  | nil _ =>
    refine .nil ?_
    simp
  | @cons c b text later hb hlater ih =>
    -- the entry for the text without its first character is the head of the later entries
    obtain ⟨next, others, rfl⟩ : ∃ next others, later = next :: others := by
      cases hlater with
      | nil _ => exact ⟨_, _, rfl⟩
      | cons _ _ => exact ⟨_, _, rfl⟩
    have hnext : next = true ↔ P text := hlater.headD_iff
    refine .cons ?_ ih
    rw [Bool.and_eq_true, hnext]
    constructor
    · intro h
      exact ⟨c, text, rfl, h⟩
    · intro h
      obtain ⟨d, rest, hwhole, h⟩ := h
      obtain ⟨rfl, rfl⟩ := List.cons.inj hwhole
      exact h

end Tabulates

/-- The table of some pieces tells which end parts of the text the pieces fit. -/
theorem tabulates_table (text : List Char) (pieces : List Piece) :
    Tabulates (Fits pieces) text (table text pieces) := by
  induction pieces with
  | nil =>
    induction text with
    | nil => exact .nil (iff_of_true rfl .nil)
    | cons c rest ih => exact .cons (iff_of_false Bool.false_ne_true (fun h => nomatch h)) ih
  | cons piece pieces ih =>
    cases piece with
    | anyRun =>
      refine ih.runTable.congr fun whole => ⟨?_, ?_⟩
      · rintro ⟨run, rest, rfl, hrest⟩
        exact .anyRun run hrest
      · rintro (_ | ⟨run, hrest⟩)
        exact ⟨run, _, rfl, hrest⟩
    | anyOne =>
      refine (ih.stepTable _).congr fun whole => ⟨?_, ?_⟩
      · rintro ⟨c, rest, rfl, -, hrest⟩
        exact .anyOne c hrest
      · rintro (_ | _ | ⟨c, hrest⟩)
        exact ⟨c, _, rfl, rfl, hrest⟩
    | exactly d =>
      refine (ih.stepTable _).congr fun whole => ⟨?_, ?_⟩
      · rintro ⟨c, rest, rfl, hc, hrest⟩
        rw [decide_eq_true_iff] at hc
        subst hc
        exact .exactly c hrest
      · rintro (_ | _ | _ | ⟨c, hrest⟩)
        exact ⟨d, _, rfl, decide_eq_true rfl, hrest⟩

namespace Glob

theorem matches_anchored {pieces : List Piece} {text : List Char} :
    Glob.matches ⟨.anchored, pieces⟩ text = true ↔ Fits pieces text :=
  (tabulates_table text pieces).headD_iff

theorem matches_floating {pieces : List Piece} {text : List Char} :
    Glob.matches ⟨.floating, pieces⟩ text = true ↔ ∃ part, part <:+: text ∧ Fits pieces part := by
  have htable := tabulates_table text (pieces ++ [.anyRun])
  rw [Glob.matches, htable.any_iff, ← fits_surrounded]
  constructor
  · intro h
    obtain ⟨rest, ⟨before, rfl⟩, hrest⟩ := h
    exact .anyRun before hrest
  · intro h
    cases h with
    | anyRun before hrest => exact ⟨_, ⟨before, rfl⟩, hrest⟩

/-- A compiled pattern matches what the pattern covers. -/
theorem matches_iff {pattern text : List Char} {anchoring : Anchoring} :
    Glob.matches ⟨anchoring, pattern.map Piece.ofChar⟩ text = true ↔ CoversAt anchoring pattern text := by
  cases anchoring with
  | anchored => rw [matches_anchored, CoversAt, covers_iff_fits]
  | floating =>
    rw [matches_floating, CoversAt]
    simp only [covers_iff_fits]

end Glob

/-! ### Plain text -/

/-- A pattern without wildcards covers itself only. -/
theorem covers_of_plain {pattern text : List Char} (h : hasWildcards pattern = false) :
    Covers pattern text ↔ text = pattern := by
  induction pattern generalizing text with
  | nil =>
    constructor
    · intro hcovers
      cases hcovers
      rfl
    · intro heq
      rw [heq]
      exact .nil
  | cons c pattern ih =>
    obtain ⟨hc, hrest⟩ : isWildcard c = false ∧ hasWildcards pattern = false := by
      rwa [hasWildcards, List.any_cons, Bool.or_eq_false_iff] at h
    obtain ⟨hrun, hone⟩ : c ≠ '*' ∧ c ≠ '_' := by simpa [isWildcard] using hc
    constructor
    · intro hcovers
      cases hcovers with
      | anyRun => exact absurd rfl hrun
      | anyOne => exact absurd rfl hone
      | exactly _ _ hcovers => rw [(ih hrest).mp hcovers]
    · intro heq
      rw [heq]
      exact .exactly hrun hone ((ih hrest).mpr rfl)

theorem occursIn_iff {part text : List Char} : occursIn part text = true ↔ part <:+: text := by
  induction text with
  | nil => rw [occursIn, List.isEmpty_iff, List.infix_nil]
  | cons c rest ih =>
    rw [occursIn, Bool.or_eq_true, List.isPrefixOf_iff_prefix, ih, List.infix_cons_iff]

theorem matchesPlain_iff {pattern text : List Char} {anchoring : Anchoring}
    (h : hasWildcards pattern = false) :
    matchesPlain pattern anchoring text = true ↔ CoversAt anchoring pattern text := by
  cases anchoring with
  | anchored => rw [matchesPlain, decide_eq_true_iff, CoversAt, covers_of_plain h]
  | floating =>
    rw [matchesPlain, occursIn_iff, CoversAt]
    simp only [covers_of_plain h]
    constructor
    · intro hpart
      exact ⟨pattern, hpart, rfl⟩
    · intro hcovers
      obtain ⟨part, hpart, rfl⟩ := hcovers
      exact hpart

end RowSearch.Wildcard
