import RowSearch.Proofs.Balance
/-!
# Texts in canonical form

When the normal form of a text is its own normal form. Nearly always it is: the blanks that are left
are single spaces, and one pass takes them away in front of every comparison symbol and behind it. But
the two characters of `!=` may be apart in a text. The pass joins them, and has passed by then the
space in front of the exclamation mark, which it keeps. A second pass drops that space, as it now
stands in front of a comparison symbol. This is the only way in which a normal form is not canonical.
-/

namespace RowSearch.Query

open Text (isBlank Blank)

/-- A text that starts with the two characters of `!=` and a gap between them. -/
def Torn (text : List Char) : Prop :=
  ∃ gap after, text = '!' :: (gap ++ '=' :: after) ∧ Blank gap ∧ gap ≠ []

/-- The pass comes to a blank that it keeps, and the two characters of `!=` stand behind it with a gap
between them. -/
def MeetsTorn (z : Zone) (glue : Bool) (text : List Char) : Prop :=
  ∃ before c rest, text = before ++ c :: rest ∧ (z.run before).quoted = false ∧
    glueAfter z glue before = false ∧ isBlank c = true ∧ Torn (rest.dropWhile isBlank)

/-- Outside of quotes the two characters of `!=` have a gap between them, and another gap tells them from
text in front that does not end with a comparison symbol. -/
def TornApart (text : List Char) : Prop :=
  ∃ before c gap gap' after, text = before ++ c :: (gap ++ '!' :: (gap' ++ '=' :: after)) ∧
    (Zone.top.run (before ++ [c])).quoted = false ∧ isBlank c = false ∧ isComparison c = false ∧
    Blank gap ∧ gap ≠ [] ∧ Blank gap' ∧ gap' ≠ []

/-! ### Where the pass meets the torn symbol -/

section Meets

variable {z : Zone} {glue : Bool} {c : Char} {rest : List Char}

theorem not_meetsTorn_nil : ¬ MeetsTorn z glue [] := by
  intro h
  obtain ⟨before, c, rest, heq, -⟩ := h
  simp at heq

theorem meetsTorn_cons :
    MeetsTorn z glue (c :: rest) ↔
      z.quoted = false ∧ glue = false ∧ isBlank c = true ∧ Torn (rest.dropWhile isBlank) ∨
        MeetsTorn (z.step (Mark.ofChar c))
          (if z.quoted = false ∧ isBlank c = true then true else !z.quoted && isComparison c) rest := by
  constructor
  · intro h
    obtain ⟨before, d, after, heq, hquoted, hglue, hblank, htorn⟩ := h
    cases before with
    | nil =>
      cases heq
      exact .inl ⟨hquoted, hglue, hblank, htorn⟩
    | cons c before =>
      cases heq
      exact .inr ⟨before, d, after, rfl, hquoted, hglue, hblank, htorn⟩
  · intro h
    rcases h with ⟨hquoted, hglue, hblank, htorn⟩ | ⟨before, d, after, rfl, h⟩
    · exact ⟨[], c, rest, rfl, hquoted, hglue, hblank, htorn⟩
    · exact ⟨c :: before, d, after, rfl, h⟩

theorem meetsTorn_blank (hquoted : z.quoted = false) (hblank : isBlank c = true) :
    MeetsTorn z glue (c :: rest) ↔
      glue = false ∧ Torn (rest.dropWhile isBlank) ∨ MeetsTorn z.settle true rest := by
  rw [meetsTorn_cons, if_pos ⟨hquoted, hblank⟩, Mark.ofChar_of_isBlank hblank, Zone.step_neutral]
  simp [hquoted, hblank]

theorem meetsTorn_keep (h : z.quoted = true ∨ isBlank c = false) :
    MeetsTorn z glue (c :: rest) ↔
      MeetsTorn (z.step (Mark.ofChar c)) (!z.quoted && isComparison c) rest := by
  have hno : ¬ (z.quoted = false ∧ isBlank c = true) := by grind
  rw [meetsTorn_cons, if_neg hno]
  grind

end Meets

/-! ### A second pass -/

section Twice

variable {z : Zone} {glue : Bool} {text : List Char}

theorem not_startsComparison_of_torn (h : Torn text) : startsComparison text = false := by
  obtain ⟨gap, after, rfl, hgap, hne⟩ := h
  obtain ⟨c, gap, rfl⟩ := List.exists_cons_of_ne_nil hne
  have hc : c ≠ '=' := by
    rintro rfl
    exact absurd (blank_cons hgap).1 (by decide)
  simp [startsComparison_cons, isComparison, hc]

/-- Behind an exclamation mark the pass drops the blanks in front of a `=`. -/
theorem head?_tidyFrom_eq (hquoted : z.quoted = false) :
    (tidyFrom z false text).head? = some '=' ↔ (text.dropWhile isBlank).head? = some '=' := by
  cases text with
  | nil => rfl
  | cons c rest =>
    by_cases hc : isBlank c = true
    · rw [List.dropWhile_cons_of_pos hc]
      cases hrest : rest.dropWhile isBlank with
      | nil => rw [tidyFrom_space hquoted hc (by rw [hrest]; rfl)]; simp
      | cons d after =>
        by_cases hstart : startsComparison (d :: after) = true
        · rw [tidyFrom_drop hquoted hc (.inr (by rw [hrest, hstart])),
            tidyFrom_of_dropWhile (z := z.settle) hquoted rfl hrest]
          rfl
        · rw [Bool.not_eq_true] at hstart
          rw [tidyFrom_space hquoted hc (by rw [hrest, hstart])]
          rw [startsComparison_cons, isComparison] at hstart
          grind
    · rw [List.dropWhile_cons_of_neg hc, tidyFrom_keep (.inr (by simpa using hc))]
      rfl

theorem head?_dropWhile_eq {rest : List Char} :
    (rest.dropWhile isBlank).head? = some '=' ↔
      startsComparison ('!' :: rest) = true ∨ Torn ('!' :: rest) := by
  constructor
  · intro h
    obtain ⟨after, hafter⟩ := List.head?_eq_some_iff.mp h
    have hrest : rest = rest.takeWhile isBlank ++ '=' :: after := by
      rw [← hafter, List.takeWhile_append_dropWhile]
    cases hgap : rest.takeWhile isBlank with
    | nil =>
      rw [hgap] at hrest
      simp [startsComparison_cons, hrest]
    | cons d gap =>
      refine .inr ⟨rest.takeWhile isBlank, after, congrArg ('!' :: ·) hrest, ?_, by simp [hgap]⟩
      exact fun c hc => List.mem_takeWhile_imp hc
  · intro h
    rcases h with h | ⟨gap, after, heq, hgap, -⟩
    · have hhead : rest.head? = some '=' := by simpa [startsComparison_cons, isComparison] using h
      obtain ⟨after, rfl⟩ := List.head?_eq_some_iff.mp hhead
      rfl
    · obtain rfl := (List.cons.inj heq).2
      rw [List.dropWhile_append_of_pos hgap]
      rfl

/-- After the pass a text starts with a comparison symbol also if that one was torn. -/
theorem startsComparison_tidyFrom (hquoted : z.quoted = false) (hescaped : z.escaped = false) :
    startsComparison ((tidyFrom z true text).dropWhile isBlank) = true ↔
      startsComparison (text.dropWhile isBlank) = true ∨ Torn (text.dropWhile isBlank) := by
  cases htext : text.dropWhile isBlank with
  | nil =>
    rw [tidyFrom_dropWhile hquoted hescaped, htext]
    simp [startsComparison, Torn]
  | cons c rest =>
    have hc := not_isBlank_of_dropWhile htext
    rw [tidyFrom_of_dropWhile hquoted hescaped htext, List.dropWhile_cons_of_neg (by simp [hc])]
    by_cases hbang : c = '!'
    · subst hbang
      have hstep : z.step (Mark.ofChar '!') = z.settle := z.step_neutral
      rw [hstep, ← head?_dropWhile_eq, ← head?_tidyFrom_eq (z := z.settle) hquoted]
      simp [startsComparison_cons, isComparison]
    · have hwhole : ¬ Torn (c :: rest) := by
        intro h
        obtain ⟨gap, after, heq, -⟩ := h
        exact hbang (List.cons.inj heq).1
      simp [startsComparison_cons, hbang, hwhole]

theorem tidyFrom_settle {c : Char} (h : Mark.ofChar c = .neutral ∧ isBlank c = false)
    (glue glue' : Bool) (rest : List Char) :
    tidyFrom z glue (c :: rest) = tidyFrom z.settle glue' (c :: rest) := by
  rw [tidyFrom_keep (.inr h.2), tidyFrom_keep (.inr h.2), h.1, Zone.step_neutral, Zone.step_neutral,
    Zone.settle_settle, Zone.settle_quoted]

/-- A blank that is dropped does not count. -/
theorem meetsTorn_drop (hquoted : z.quoted = false) {c : Char} {rest : List Char}
    (hblank : isBlank c = true)
    (hdrop : glue = true ∨ startsComparison (rest.dropWhile isBlank) = true) :
    MeetsTorn z glue (c :: rest) ↔ MeetsTorn z.settle true rest := by
  rw [meetsTorn_blank hquoted hblank, or_iff_right]
  intro h
  obtain ⟨hglue, htorn⟩ := h
  simp [hglue, not_startsComparison_of_torn htorn] at hdrop

/-- A second pass drops the space in front of a torn symbol, and blanks at the end do not make up for
it. -/
theorem trimEnd_ne_of_torn (hquoted : z.quoted = false) {rest : List Char}
    (h : Torn (rest.dropWhile isBlank)) :
    Text.trimEnd (tidyFrom z false (' ' :: tidyFrom z.settle true rest)) ≠
      Text.trimEnd (' ' :: tidyFrom z.settle true rest) := by
  have hlook : startsComparison ((tidyFrom z.settle true rest).dropWhile isBlank) = true :=
    (startsComparison_tidyFrom (z := z.settle) hquoted rfl).mpr (.inr h)
  obtain ⟨gap, after, htext, -⟩ := h
  have hbang : isBlank '!' = false := by decide
  rw [tidyFrom_drop hquoted (by decide) (.inr hlook),
    tidyFrom_of_dropWhile (z := z.settle) hquoted rfl htext, tidyFrom_keep (.inr hbang),
    Text.trimEnd_cons_of_not_blank hbang, Text.trimEnd_cons, Text.trimEnd_cons_of_not_blank hbang]
  simp

/-- A second pass leaves a text as it is, blanks at the end apart, just when the first one did not meet
the torn symbol. -/
theorem trimEnd_tidyFrom_tidyFrom (hglue : glue = true → z.escaped = false) :
    Text.trimEnd (tidyFrom z glue (tidyFrom z glue text)) = Text.trimEnd (tidyFrom z glue text) ↔
      ¬ MeetsTorn z glue text := by
  induction text generalizing z glue with
  | nil => simp [not_meetsTorn_nil]
  | cons c rest ih =>
    cases passes z glue c rest with
    | drop hquoted hblank hdrop =>
      have hrest := @ih z.settle true fun _ => rfl
      rw [meetsTorn_drop hquoted hblank hdrop, tidyFrom_drop hquoted hblank hdrop, ← hrest]
      rcases hdrop with hg | hstart
      · rw [hg, Zone.settle_of_not_escaped (hglue hg)]
      · -- the symbol behind the blank is read alike in both zones
        obtain ⟨d, after, hd⟩ := exists_cons_of_startsComparison hstart
        rw [hd] at hstart
        rw [tidyFrom_of_dropWhile (z := z.settle) hquoted rfl hd,
          tidyFrom_settle (neutral_of_startsComparison hstart) glue true]
    | space hquoted hblank hg hstart =>
      rw [hg, tidyFrom_space hquoted hblank hstart, meetsTorn_blank hquoted hblank]
      by_cases htorn : Torn (rest.dropWhile isBlank)
      · simp [trimEnd_ne_of_torn hquoted htorn, htorn]
      · have hlook : startsComparison ((tidyFrom z.settle true rest).dropWhile isBlank) = false := by
          rw [← Bool.not_eq_true, startsComparison_tidyFrom (z := z.settle) hquoted rfl]
          simp [hstart, htorn]
        rw [tidyFrom_space hquoted (by decide) hlook, Text.trimEnd_cons_inj, @ih z.settle true fun _ => rfl]
        simp [htorn]
    | keep hkeep =>
      rw [tidyFrom_keep hkeep, tidyFrom_keep hkeep, Text.trimEnd_cons_inj, meetsTorn_keep hkeep]
      exact ih escaped_step_of_glue

theorem tidy_eq_trimEnd (text : List Char) : tidy text = Text.trimEnd (tidyFrom .top true text) := by
  obtain ⟨blanks, hblanks, hout⟩ := exists_blank_tidyFrom (z := .top) rfl false text
  rw [tidy, hout, Text.trim, Text.trimStart_append hblanks,
    Text.trimStart_eq_self (head?_tidyFrom rfl text)]

theorem tidy_tidy_iff (hquoted : (Zone.top.run text).quoted = false) :
    tidy (tidy text) = tidy text ↔ ¬ MeetsTorn .top true text := by
  have hrun : Zone.top.run (tidyFrom .top false text) = Zone.top.run text :=
    blind_run.apply_tidyFrom (by simp) text
  rw [← hrun] at hquoted
  obtain ⟨blanks, hblanks, hout⟩ := exists_blank_tidyFrom (z := .top) rfl false text
  have htwice : tidy (tidy text) = Text.trimEnd (tidyFrom .top true (tidyFrom .top true text)) := by
    calc tidy (tidy text) = tidy (tidyFrom .top false text) := tidy_trim hquoted
      _ = Text.trimEnd (tidyFrom .top true (tidyFrom .top true text)) := by
        rw [hout, tidy_eq_trimEnd, tidyFrom_blank_append hblanks rfl rfl]
  rw [htwice, tidy_eq_trimEnd]
  exact trimEnd_tidyFrom_tidyFrom fun _ => rfl

end Twice

/-! ### Canonical texts -/

section Canonical

variable {text out : List Char}

/-- Outside of quotes a blank is dropped behind blanks and comparison symbols only. -/
theorem not_glue_of_glueAfter {z : Zone} {glue : Bool} {before : List Char} {c : Char}
    (hquoted : (z.run (before ++ [c])).quoted = false)
    (hglue : glueAfter z glue (before ++ [c]) = false) : isBlank c = false ∧ isComparison c = false := by
  rw [Zone.run_append] at hquoted
  rw [glueAfter_append] at hglue
  generalize z.run before = z' at hquoted hglue
  cases hz : z'.quoted with
  | false =>
    have hnone : ¬ isBlank c = true ∧ isComparison c = false := by simpa [glueAfter, hz] using hglue
    exact ⟨Bool.not_eq_true _ ▸ hnone.1, hnone.2⟩
  | true =>
    -- the character has closed the quote
    have hmark : Mark.ofChar c = .quote := by
      obtain ⟨d, q, e⟩ := z'
      cases hz
      cases e <;> cases hc : Mark.ofChar c <;> simp_all [Zone.step]
    rw [Mark.ofChar_eq_quote] at hmark
    subst hmark
    decide

theorem meetsTorn_iff : MeetsTorn .top true text ↔ TornApart text := by
  constructor
  · intro h
    obtain ⟨before, b, rest, rfl, hquoted, hglue, hblank, gap', after, hrest, hgap', hne'⟩ := h
    rcases List.eq_nil_or_concat before with rfl | ⟨front, c, rfl⟩
    · cases hglue
    · rw [List.concat_eq_append] at *
      have hc := not_glue_of_glueAfter hquoted hglue
      refine ⟨front, c, b :: rest.takeWhile isBlank, gap', after, ?_, hquoted, hc.1, hc.2, ?_,
        List.cons_ne_nil _ _, hgap', hne'⟩
      · rw [← hrest]
        simp
      · intro d hd
        rcases List.mem_cons.mp hd with rfl | hd
        · exact hblank
        · exact List.mem_takeWhile_imp hd
  · intro h
    obtain ⟨before, c, gap, gap', after, rfl, hquoted, hc, hsymbol, hgap, hne, hgap', hne'⟩ := h
    obtain ⟨b, gap, rfl⟩ := List.exists_cons_of_ne_nil hne
    obtain ⟨hb, hgap⟩ := blank_cons hgap
    refine ⟨before ++ [c], b, gap ++ '!' :: (gap' ++ '=' :: after), by simp, hquoted,
      glueAfter_concat hc hsymbol _ _ _, hb, gap', after, ?_, hgap', hne'⟩
    rw [List.dropWhile_append_of_pos hgap]
    rfl

/-- The normal form of a text is canonical, its own normal form, unless a torn `!=` stands apart in the
text. -/
theorem normalize_normalize_iff (h : normalize text = .ok out) :
    normalize out = .ok out ↔ ¬ TornApart text := by
  obtain ⟨hquoted, rfl⟩ := normalize_eq_ok.mp h
  rw [← meetsTorn_iff, ← tidy_tidy_iff hquoted, normalize_eq_ok, run_tidy_quoted]
  simp [hquoted, eq_comm]

/-- The normal form of `a  >= "p  q"  b` is canonical, also with the blanks inside of the quotes. -/
theorem normalize_normalize_of_quoted :
    normalize "a  >= \"p  q\"  b".toList = .ok "a>=\"p  q\" b".toList ∧
      normalize "a>=\"p  q\" b".toList = .ok "a>=\"p  q\" b".toList := by
  have h : normalize "a  >= \"p  q\"  b".toList = .ok "a>=\"p  q\" b".toList := by decide
  refine ⟨h, (normalize_normalize_iff h).mpr fun htorn => ?_⟩
  obtain ⟨before, c, gap, gap', after, heq, -⟩ := htorn
  have hmem : '!' ∈ "a  >= \"p  q\"  b".toList := by simp [heq]
  exact absurd hmem (by decide)

/-- In `a ! = b` the symbol is torn, and its normal form changes once more. -/
theorem normalize_of_torn_apart :
    normalize "a ! = b".toList = .ok "a !=b".toList ∧
      normalize "a !=b".toList = .ok "a!=b".toList := by
  decide

end Canonical

end RowSearch.Query
