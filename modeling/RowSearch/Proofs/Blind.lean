import RowSearch.Proofs.Layout
/-!
# What a normal form keeps

A function of a text and of the zone where it starts is blind to layout when it passes over blanks
outside of quotes and does not mind whether a character without meaning was escaped. Such a function
has the same value at a text and at its normal form, although dropping a blank can move a backslash
to the character behind it. The run of zones is one of them.
-/

namespace RowSearch.Query

open Text (isBlank Blank)

/-- The pass drops the blanks that a text starts with where it would drop one. -/
theorem tidyFrom_dropWhile {z : Zone} (hquoted : z.quoted = false) (hescaped : z.escaped = false)
    (text : List Char) : tidyFrom z true text = tidyFrom z true (text.dropWhile isBlank) := by
  conv_lhs => rw [← List.takeWhile_append_dropWhile (p := isBlank) (l := text)]
  exact tidyFrom_blank_append (fun c hc => List.mem_takeWhile_imp hc) hquoted hescaped _

theorem not_isBlank_of_dropWhile {text : List Char} {c : Char} {rest : List Char}
    (h : text.dropWhile isBlank = c :: rest) : isBlank c = false := by
  have hhead := List.head?_dropWhile_not isBlank text
  rw [h] at hhead
  simpa using hhead

theorem exists_cons_of_startsComparison {text : List Char} (h : startsComparison text = true) :
    ∃ c rest, text = c :: rest := by
  cases text with
  | nil => cases h
  | cons c rest => exact ⟨c, rest, rfl⟩

theorem tidyFrom_of_dropWhile {z : Zone} (hquoted : z.quoted = false) (hescaped : z.escaped = false)
    {text : List Char} {c : Char} {rest : List Char} (h : text.dropWhile isBlank = c :: rest) :
    tidyFrom z true text =
      c :: tidyFrom (z.step (Mark.ofChar c)) (!z.quoted && isComparison c) rest := by
  rw [tidyFrom_dropWhile hquoted hescaped, h, tidyFrom_keep (.inr (not_isBlank_of_dropWhile h))]

/-- A value of texts, by the zone where the text starts, that does not depend on the layout. -/
structure Blind {β : Type} (f : Zone → List Char → β) : Prop where
  cons : ∀ {z : Zone} {c : Char} {x y : List Char},
    f (z.step (Mark.ofChar c)) x = f (z.step (Mark.ofChar c)) y → f z (c :: x) = f z (c :: y)
  blank : ∀ {z : Zone} {c : Char} {x : List Char},
    z.quoted = false → isBlank c = true → f z (c :: x) = f z.settle x
  settle : ∀ {z : Zone} {c : Char} {x : List Char},
    Mark.ofChar c = .neutral → f z.settle (c :: x) = f z (c :: x)

theorem neutral_of_isComparison {c : Char} (h : isComparison c = true) :
    Mark.ofChar c = .neutral := by
  have hstart : startsComparison [c] = true := by rw [startsComparison_cons, h, Bool.true_or]
  exact (neutral_of_startsComparison hstart).1

/-- Behind a character that would glue a blank to it nothing is escaped. -/
theorem escaped_step_of_glue {z : Zone} {c : Char} (h : (!z.quoted && isComparison c) = true) :
    (z.step (Mark.ofChar c)).escaped = false := by
  rw [neutral_of_isComparison (Bool.and_eq_true_iff.mp h).2, Zone.step_neutral]
  rfl

theorem Blind.apply_tidyFrom {β : Type} {f : Zone → List Char → β} (hf : Blind f) {z : Zone}
    {glue : Bool} (hglue : glue = true → z.escaped = false) (text : List Char) :
    f z (tidyFrom z glue text) = f z text := by
  induction text generalizing z glue with
  | nil => rfl
  | cons c rest ih =>
    cases passes z glue c rest with
    | drop hquoted hblank hdrop =>
      have hrest : f z.settle (tidyFrom z.settle true rest) = f z.settle rest := ih fun _ => rfl
      rw [hf.blank hquoted hblank, ← hrest, tidyFrom_drop hquoted hblank hdrop]
      rcases hdrop with hg | hstart
      · rw [Zone.settle_of_not_escaped (hglue hg)]
      · -- the blank may have been escaped; now the symbol behind it is
        obtain ⟨d, after, hd⟩ := exists_cons_of_startsComparison hstart
        rw [hd] at hstart
        rw [tidyFrom_of_dropWhile (z := z.settle) hquoted rfl hd]
        exact (hf.settle (neutral_of_startsComparison hstart).1).symm
    | space hquoted hblank hg hstart =>
      have hrest : f z.settle (tidyFrom z.settle true rest) = f z.settle rest := ih fun _ => rfl
      rw [hf.blank hquoted hblank, ← hrest, hg, tidyFrom_space hquoted hblank hstart]
      exact hf.blank hquoted (by decide)
    | keep hkeep =>
      rw [tidyFrom_keep hkeep]
      exact hf.cons (ih escaped_step_of_glue)

/-! ### Runs -/

theorem blind_run? : Blind fun z text => z.run? text where
  cons := by
    intro z c x y h
    rw [Zone.run?_cons, Zone.run?_cons]
    cases hstep : z.step? (Mark.ofChar c) with
    | none => rfl
    | some z' =>
      rw [Zone.step_eq_of_step? hstep] at h
      exact h
  blank _ hc := by rw [Zone.run?_cons, Mark.ofChar_of_isBlank hc, Zone.step?_neutral, Option.bind_some]
  settle hc := by
    rw [Zone.run?_cons, Zone.run?_cons, hc, Zone.step?_neutral, Zone.step?_neutral, Zone.settle_settle]

theorem blind_run : Blind fun z text => z.run text where
  cons h := h
  blank _ hc := by rw [Zone.run_cons, Mark.ofChar_of_isBlank hc, Zone.step_neutral]
  settle hc := by
    rw [Zone.run_cons, Zone.run_cons, hc, Zone.step_neutral, Zone.step_neutral, Zone.settle_settle]

end RowSearch.Query
