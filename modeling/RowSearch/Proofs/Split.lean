import RowSearch.Proofs.Balance
/-!
# Cutting at separators

`Splits` says what the segments of a text are without a scanner: each but the last one brings the run
back to the top and has a separator behind it, and behind the last one all quotes and groups are
closed. Splitting finds such segments whenever the text is balanced, and only then.

`Scans` says it character by character, with the places where the scan looks for the separator, and so
there is one way only to cut a text. A segment is `ClearFrom` the separator when the scan goes through
it without a cut.
-/

namespace RowSearch.Query

open Text (isBlank Blank Tight)
open Zone (top)

/-- The segments of a text that starts in a zone. -/
inductive Splits (separator : List Char) : Zone → List Char → List (List Char) → Prop
  | last {z z' : Zone} {text : List Char} :
    z.run? text = some z' → z'.Settled → Splits separator z text [text]
  | next {z : Zone} {first rest : List Char} {segments : List (List Char)} :
    z.run? first = some top → Splits separator top rest segments →
      Splits separator z (first ++ separator ++ rest) (first :: segments)

namespace Splits

variable {separator text : List Char} {z : Zone} {segments : List (List Char)}

theorem cons {z' : Zone} {c : Char} (hstep : z.step? (Mark.ofChar c) = some z')
    (h : Splits separator z' text segments) :
    Splits separator z (c :: text) (extendHead c segments) := by
  cases h with
  | last hrun hz =>
    refine .last ?_ hz
    rw [Zone.run?_cons, hstep]
    exact hrun
  | @next _ first _ _ hrun hrest =>
    have hfirst : z.run? (c :: first) = some top := by
      rw [Zone.run?_cons, hstep]
      exact hrun
    exact .next hfirst hrest

theorem ne_nil (h : Splits separator z text segments) : segments ≠ [] := by
  cases h <;> exact List.cons_ne_nil _ _

/-- What has segments is balanced from the zone where it starts. -/
theorem exists_run? (hseparator : ∀ c ∈ separator, Mark.ofChar c = .neutral)
    (h : Splits separator z text segments) : ∃ z', z.run? text = some z' ∧ z'.Settled := by
  induction h with
  | last hrun hz => exact ⟨_, hrun, hz⟩
  | next hrun _ ih =>
    obtain ⟨z', hrest, hz⟩ := ih
    refine ⟨z', ?_, hz⟩
    rw [Zone.run?_append, Zone.run?_append, hrun, Option.bind_some,
      Zone.run?_neutral rfl hseparator]
    exact hrest

theorem balanced (h : Splits separator top text segments) : ∀ s ∈ segments, Balanced s := by
  generalize hz : top = z' at h
  induction h with
  | last hrun hsettled =>
    cases hz
    intro s hs
    cases List.mem_singleton.mp hs
    exact ⟨_, hrun, hsettled⟩
  | next hrun _ ih =>
    cases hz
    intro s hs
    rcases List.mem_cons.mp hs with rfl | hs
    · exact balanced_of_run? hrun
    · exact ih rfl s hs

end Splits

/-! ### What the scan does -/

section Scan

variable {separator : List Char} {z : Zone}

theorem segmentsFrom_cons (separator : List Char) (z : Zone) (c : Char) (rest : List Char) :
    segmentsFrom separator z 0 (c :: rest) =
      if z = top ∧ Mark.ofChar c = .closing then .error .mismatchedParenthesis
      else if z = top ∧ Mark.ofChar c = .neutral ∧ separator.isPrefixOf (c :: rest) then
        (segmentsFrom separator z (separator.length - 1) rest).map ([] :: ·)
      else (segmentsFrom separator (z.step (Mark.ofChar c)) 0 rest).map (extendHead c) := by
  rw [segmentsFrom]

theorem drop_separator {c : Char} {rest : List Char} (hne : separator ≠ [])
    (h : separator.isPrefixOf (c :: rest) = true) :
    c :: rest = separator ++ rest.drop (separator.length - 1) := by
  obtain ⟨tail, htail⟩ := List.isPrefixOf_iff_prefix.mp h
  obtain ⟨d, more, rfl⟩ := List.exists_cons_of_ne_nil hne
  obtain ⟨rfl, rfl⟩ := List.cons.inj htail
  simp

/-- What the scan does with a text, character by character: it cuts off a separator at the top, and takes
all else along. -/
inductive Scans (separator : List Char) : Zone → List Char → List (List Char) → Prop
  | done {z : Zone} : z.Settled → Scans separator z [] [[]]
  | cut {rest : List Char} {segments : List (List Char)} :
    Scans separator top rest segments → Scans separator top (separator ++ rest) ([] :: segments)
  | keep {z z' : Zone} {c : Char} {rest : List Char} {segments : List (List Char)} :
    z.step? (Mark.ofChar c) = some z' →
    ¬(z = top ∧ Mark.ofChar c = .neutral ∧ separator <+: c :: rest) →
    Scans separator z' rest segments → Scans separator z (c :: rest) (extendHead c segments)

theorem scans_of_segmentsFrom (hne : separator ≠ []) {skip : Nat} {text : List Char}
    {segments : List (List Char)} (h : segmentsFrom separator z skip text = .ok segments) :
    Scans separator z (text.drop skip) segments := by
  induction text generalizing z skip segments with
  | nil =>
    rw [segmentsFrom] at h
    split at h
    · cases h
    · next hdepth =>
      split at h
      · cases h
      · next hquoted =>
        cases h
        rw [List.drop_nil]
        exact .done ⟨by omega, by simpa using hquoted⟩
  | cons c rest ih =>
    cases skip with
    | succ skip =>
      rw [segmentsFrom] at h
      exact ih h
    | zero =>
      rw [List.drop_zero]
      rw [segmentsFrom_cons] at h
      split at h
      · cases h
      · next hclosing =>
        split at h
        · next hsep =>
          obtain ⟨segments', hrest, rfl⟩ := map_eq_ok.mp h
          obtain ⟨rfl, -, hprefix⟩ := hsep
          rw [drop_separator hne hprefix]
          exact .cut (ih hrest)
        · next hsep =>
          obtain ⟨segments', hrest, rfl⟩ := map_eq_ok.mp h
          rw [List.isPrefixOf_iff_prefix] at hsep
          exact .keep (if_neg hclosing) hsep (ih hrest)

theorem Scans.splits {text : List Char} {segments : List (List Char)}
    (h : Scans separator z text segments) : Splits separator z text segments := by
  induction h with
  | done hz => exact .last rfl hz
  | cut _ ih =>
    have hempty : top.run? [] = some top := rfl
    exact .next hempty ih
  | keep hstep _ _ ih => exact .cons hstep ih

theorem Scans.ne_nil {text : List Char} {segments : List (List Char)}
    (h : Scans separator z text segments) : segments ≠ [] :=
  h.splits.ne_nil

/-- At the top the scan cuts at the separator. -/
theorem segmentsFrom_cut (hne : separator ≠ [])
    (hseparator : ∀ c ∈ separator, Mark.ofChar c = .neutral) (rest : List Char) :
    segmentsFrom separator top 0 (separator ++ rest) =
      (segmentsFrom separator top 0 rest).map ([] :: ·) := by
  have hskip (skip text : List Char) :
      segmentsFrom separator top skip.length (skip ++ text) = segmentsFrom separator top 0 text := by
    induction skip with
    | nil => rfl
    | cons c skip ih => rw [List.length_cons, List.cons_append, segmentsFrom, ih]
  obtain ⟨c, tail, rfl⟩ := List.exists_cons_of_ne_nil hne
  have hc := hseparator c List.mem_cons_self
  have hprefix : (c :: tail).isPrefixOf (c :: (tail ++ rest)) = true :=
    List.isPrefixOf_iff_prefix.mpr ⟨rest, rfl⟩
  rw [List.cons_append, segmentsFrom_cons, if_neg (by simp [hc]), if_pos ⟨rfl, hc, hprefix⟩]
  exact congrArg (Except.map ([] :: ·)) (hskip tail rest)

theorem Scans.segmentsFrom_eq {text : List Char} {segments : List (List Char)}
    (hne : separator ≠ []) (hseparator : ∀ c ∈ separator, Mark.ofChar c = .neutral)
    (h : Scans separator z text segments) : segmentsFrom separator z 0 text = .ok segments := by
  induction h with
  | done hz =>
    rw [segmentsFrom, hz.1, hz.2]
    rfl
  | cut _ ih =>
    rw [segmentsFrom_cut hne hseparator, ih]
    rfl
  | @keep z z' c rest segments hstep hsep _ ih =>
    have hclosing : ¬(z = top ∧ Mark.ofChar c = .closing) := by
      intro h
      rw [Zone.step?, if_pos h] at hstep
      cases hstep
    rw [← List.isPrefixOf_iff_prefix] at hsep
    rw [segmentsFrom_cons, if_neg hclosing, if_neg hsep, Zone.step_eq_of_step? hstep, ih]
    rfl

/-- A text is cut in one way only. -/
theorem Scans.unique {text : List Char} {segments others : List (List Char)}
    (hne : separator ≠ []) (hseparator : ∀ c ∈ separator, Mark.ofChar c = .neutral)
    (h : Scans separator z text segments) (hothers : Scans separator z text others) :
    segments = others :=
  Except.ok.inj ((h.segmentsFrom_eq hne hseparator).symm.trans (hothers.segmentsFrom_eq hne hseparator))

theorem segmentsFrom_eq_ok_iff (hne : separator ≠ [])
    (hseparator : ∀ c ∈ separator, Mark.ofChar c = .neutral) {text : List Char}
    {segments : List (List Char)} :
    segmentsFrom separator z 0 text = .ok segments ↔ Scans separator z text segments :=
  ⟨scans_of_segmentsFrom hne, Scans.segmentsFrom_eq hne hseparator⟩

theorem exists_segmentsFrom (hne : separator ≠ [])
    (hseparator : ∀ c ∈ separator, Mark.ofChar c = .neutral) {skip : Nat} {text : List Char}
    {z' : Zone} (hrun : z.run? (text.drop skip) = some z') (hz : z'.Settled) :
    ∃ segments, segmentsFrom separator z skip text = .ok segments := by
  induction text generalizing z skip with
  | nil =>
    rw [List.drop_nil, Zone.run?_nil] at hrun
    cases hrun
    refine ⟨[[]], ?_⟩
    rw [segmentsFrom, hz.1, hz.2]
    rfl
  | cons c rest ih =>
    cases skip with
    | succ skip =>
      rw [segmentsFrom]
      exact ih hrun
    | zero =>
      rw [List.drop_zero] at hrun
      rw [segmentsFrom_cons]
      split
      · next hclosing =>
        rw [Zone.run?_cons, Zone.step?, if_pos hclosing] at hrun
        cases hrun
      · next hclosing =>
        split
        · next hsep =>
          obtain ⟨rfl, -, hprefix⟩ := hsep
          rw [drop_separator hne hprefix, Zone.run?_append,
            Zone.run?_neutral rfl hseparator] at hrun
          obtain ⟨segments, hrest⟩ := ih hrun
          exact ⟨_, map_eq_ok.mpr ⟨segments, hrest, rfl⟩⟩
        · rw [Zone.run?_cons, Zone.step?, if_neg hclosing] at hrun
          have hrest : (z.step (Mark.ofChar c)).run? (rest.drop 0) = some z' := hrun
          obtain ⟨segments, hrest⟩ := ih hrest
          exact ⟨_, map_eq_ok.mpr ⟨segments, hrest, rfl⟩⟩

/-- When all quotes are closed, only a parenthesis can be at fault. -/
theorem eq_mismatchedParenthesis_of_segmentsFrom (hne : separator ≠ [])
    (hseparator : ∀ c ∈ separator, Mark.ofChar c = .neutral) {skip : Nat} {text : List Char}
    {e : QueryError} (h : segmentsFrom separator z skip text = .error e)
    (hquoted : (z.run (text.drop skip)).quoted = false) : e = .mismatchedParenthesis := by
  induction text generalizing z skip with
  | nil =>
    rw [segmentsFrom] at h
    rw [List.drop_nil, Zone.run_nil] at hquoted
    rw [hquoted, if_neg Bool.false_ne_true] at h
    split at h
    · cases h
      rfl
    · cases h
  | cons c rest ih =>
    cases skip with
    | succ skip =>
      rw [segmentsFrom] at h
      exact ih h hquoted
    | zero =>
      rw [List.drop_zero] at hquoted
      rw [segmentsFrom_cons] at h
      split at h
      · cases h
        rfl
      · split at h
        · next hsep =>
          obtain ⟨rfl, -, hprefix⟩ := hsep
          rw [drop_separator hne hprefix, Zone.run_append,
            Zone.run_eq_of_run? (Zone.run?_neutral rfl hseparator)] at hquoted
          exact ih (map_eq_error.mp h) hquoted
        · exact ih (map_eq_error.mp h) hquoted

end Scan

/-! ### Segments without a separator -/

/-- In a segment that starts in a zone the separator starts at no place at the top. -/
def ClearFrom (separator : List Char) (z : Zone) (segment behind : List Char) : Prop :=
  ∀ before after, segment = before ++ after → after ≠ [] → z.run? before = some top →
    ¬separator <+: after ++ behind

section ClearFrom

variable {separator : List Char} {z : Zone}

theorem ClearFrom.nil (behind : List Char) : ClearFrom separator z [] behind := by
  intro before after heq hne
  exact absurd (List.append_eq_nil_iff.mp heq.symm).2 hne

theorem clearFrom_cons {z' : Zone} {c : Char} {segment behind : List Char}
    (hstep : z.step? (Mark.ofChar c) = some z') :
    ClearFrom separator z (c :: segment) behind ↔
      (z = top → ¬separator <+: c :: (segment ++ behind)) ∧
        ClearFrom separator z' segment behind := by
  constructor
  · intro h
    refine ⟨?_, ?_⟩
    · rintro rfl
      exact h [] (c :: segment) rfl (List.cons_ne_nil _ _) rfl
    · rintro before after rfl hne hrun
      apply h (c :: before) after rfl hne
      rw [Zone.run?_cons, hstep]
      exact hrun
  · rintro ⟨hhead, htail⟩ before after heq hne hrun
    cases before with
    | nil =>
      obtain rfl : c :: segment = after := heq
      exact hhead (Option.some.inj hrun)
    | cons d before =>
      obtain ⟨rfl, rfl⟩ := List.cons.inj heq
      rw [Zone.run?_cons, hstep] at hrun
      exact htail before after rfl hne hrun

/-- The scan goes through a clear segment. -/
theorem Scans.through {z' : Zone} {segment behind first : List Char} {rest : List (List Char)}
    (hrun : z.run? segment = some z') (hclear : ClearFrom separator z segment behind)
    (h : Scans separator z' behind (first :: rest)) :
    Scans separator z (segment ++ behind) ((segment ++ first) :: rest) := by
  induction segment generalizing z with
  | nil =>
    cases hrun
    exact h
  | cons c segment ih =>
    obtain ⟨next, hstep, hrest⟩ := Option.bind_eq_some_iff.mp hrun
    obtain ⟨hhead, htail⟩ := (clearFrom_cons hstep).mp hclear
    have hsep : ¬(z = top ∧ Mark.ofChar c = .neutral ∧ separator <+: c :: (segment ++ behind)) :=
      fun hcut => hhead hcut.1 hcut.2.2
    exact .keep hstep hsep (ih hrest htail)

end ClearFrom

/-! ### Splitting a text -/

section SplitAt

variable {separator text : List Char}

theorem splitAt_eq_ok (hne : separator ≠ []) {segments : List (List Char)}
    (h : splitAt separator text = .ok segments) :
    (trimSeparators separator text = [] ∧ segments = []) ∨
      ∃ pieces, Splits separator top (trimSeparators separator text) pieces ∧
        segments = pieces.map Text.trim := by
  rw [splitAt] at h
  split at h
  · next hnil =>
    cases h
    exact .inl ⟨hnil, rfl⟩
  · obtain ⟨pieces, hpieces, rfl⟩ := map_eq_ok.mp h
    exact .inr ⟨pieces, (scans_of_segmentsFrom hne hpieces).splits, rfl⟩

theorem exists_splitAt_iff (hne : separator ≠ [])
    (hseparator : ∀ c ∈ separator, Mark.ofChar c = .neutral) :
    (∃ segments, splitAt separator text = .ok segments) ↔ Balanced text := by
  rw [(pads_trimSeparators separator text).balanced hseparator]
  constructor
  · intro h
    obtain ⟨segments, h⟩ := h
    rcases splitAt_eq_ok hne h with ⟨hnil, -⟩ | ⟨pieces, hpieces, -⟩
    · rw [hnil]
      exact balanced_of_run? rfl
    · exact hpieces.exists_run? hseparator
  · intro h
    obtain ⟨z, hrun, hz⟩ := h
    rw [splitAt]
    split
    · exact ⟨_, rfl⟩
    · have hdrop : top.run? ((trimSeparators separator text).drop 0) = some z := hrun
      obtain ⟨pieces, hpieces⟩ := exists_segmentsFrom hne hseparator hdrop hz
      exact ⟨_, map_eq_ok.mpr ⟨pieces, hpieces, rfl⟩⟩

theorem balanced_of_mem_splitAt (hne : separator ≠ []) {segments : List (List Char)}
    (h : splitAt separator text = .ok segments) : ∀ s ∈ segments, Balanced s := by
  rcases splitAt_eq_ok hne h with ⟨-, rfl⟩ | ⟨pieces, hpieces, rfl⟩
  · exact fun _ hs => (List.not_mem_nil hs).elim
  · intro s hs
    obtain ⟨piece, hpiece, rfl⟩ := List.mem_map.mp hs
    exact balanced_trim.mpr (hpieces.balanced piece hpiece)

theorem run_quoted_neutral {z : Zone} {chars : List Char}
    (h : ∀ c ∈ chars, Mark.ofChar c = .neutral) : (z.run chars).quoted = z.quoted := by
  obtain ⟨z', hrun, -, hquoted⟩ := exists_run?_neutral h z
  rw [Zone.run_eq_of_run? hrun, hquoted]

theorem eq_mismatchedParenthesis_of_splitAt (hne : separator ≠ [])
    (hseparator : ∀ c ∈ separator, Mark.ofChar c = .neutral) {e : QueryError}
    (h : splitAt separator text = .error e) (hquoted : (top.run text).quoted = false) :
    e = .mismatchedParenthesis := by
  obtain ⟨before, after, hbefore, hafter, htext⟩ := pads_trimSeparators separator text
  rw [htext, Zone.run_append, run_quoted_neutral (hafter.neutral hseparator), Zone.run_append,
    Zone.run_eq_of_run? (Zone.run?_neutral rfl (hbefore.neutral hseparator))] at hquoted
  rw [splitAt] at h
  split at h
  · cases h
  · exact eq_mismatchedParenthesis_of_segmentsFrom hne hseparator (map_eq_error.mp h) hquoted

end SplitAt

end RowSearch.Query
