import RowSearch.Proofs.Scan
import RowSearch.Proofs.Trim
import RowSearch.Query.Normal
/-!
# The normal form in one pass

`normalize` cuts a query into segments, rewrites the bare ones and joins them again. The same is done
here in one pass over the text, which carries the zone and whether a blank would be dropped where it
stands. The pass goes along with concatenation, so the normal form of a long text can be read off its
parts; and whatever is blind to blanks outside of quotes sees no difference between a text and its
normal form.
-/

namespace RowSearch.Query

open Text (isBlank Blank Tight)

/-- A text with its blanks outside of quotes squeezed, and dropped around comparison symbols; with
`glue` the blanks it starts with are dropped as well. -/
def tidyFrom (z : Zone) (glue : Bool) : List Char → List Char
  | [] => []
  | c :: rest =>
    if z.quoted = false ∧ isBlank c = true then
      if glue = true ∨ startsComparison (rest.dropWhile isBlank) = true then
        tidyFrom (z.step (Mark.ofChar c)) true rest
      else ' ' :: tidyFrom (z.step (Mark.ofChar c)) true rest
    else c :: tidyFrom (z.step (Mark.ofChar c)) (!z.quoted && isComparison c) rest

section Steps

variable {z : Zone} {glue : Bool} {c : Char} {rest : List Char}

@[simp] theorem tidyFrom_nil (z : Zone) (glue : Bool) : tidyFrom z glue [] = [] := rfl

theorem tidyFrom_drop (hz : z.quoted = false) (hc : isBlank c = true)
    (h : glue = true ∨ startsComparison (rest.dropWhile isBlank) = true) :
    tidyFrom z glue (c :: rest) = tidyFrom z.settle true rest := by
  rw [tidyFrom, if_pos ⟨hz, hc⟩, if_pos h, Mark.ofChar_of_isBlank hc, Zone.step_neutral]

theorem tidyFrom_space (hz : z.quoted = false) (hc : isBlank c = true)
    (h : startsComparison (rest.dropWhile isBlank) = false) :
    tidyFrom z false (c :: rest) = ' ' :: tidyFrom z.settle true rest := by
  rw [tidyFrom, if_pos ⟨hz, hc⟩, if_neg (by simp [h]), Mark.ofChar_of_isBlank hc, Zone.step_neutral]

theorem tidyFrom_keep (h : z.quoted = true ∨ isBlank c = false) :
    tidyFrom z glue (c :: rest) =
      c :: tidyFrom (z.step (Mark.ofChar c)) (!z.quoted && isComparison c) rest := by
  rw [tidyFrom, if_neg]
  intro h
  obtain ⟨hz, hc⟩ := h
  rcases h with h | h
  · rw [hz] at h
    cases h
  · rw [hc] at h
    cases h

/-- What the pass does with a character: it drops a blank, makes it a space or keeps what it finds. -/
inductive Passes (z : Zone) (glue : Bool) (c : Char) (rest : List Char) : Prop
  | drop : z.quoted = false → isBlank c = true →
    glue = true ∨ startsComparison (rest.dropWhile isBlank) = true → Passes z glue c rest
  | space : z.quoted = false → isBlank c = true → glue = false →
    startsComparison (rest.dropWhile isBlank) = false → Passes z glue c rest
  | keep : z.quoted = true ∨ isBlank c = false → Passes z glue c rest

theorem passes (z : Zone) (glue : Bool) (c : Char) (rest : List Char) : Passes z glue c rest := by
  cases hquoted : z.quoted with
  | true => exact .keep (.inl hquoted)
  | false =>
    cases hblank : isBlank c with
    | false => exact .keep (.inr hblank)
    | true =>
      by_cases hdrop : glue = true ∨ startsComparison (rest.dropWhile isBlank) = true
      · exact .drop hquoted hblank hdrop
      · rw [not_or, Bool.not_eq_true, Bool.not_eq_true] at hdrop
        exact .space hquoted hblank hdrop.1 hdrop.2

end Steps

/-! ### Comparison symbols -/

theorem startsComparison_cons (c : Char) (rest : List Char) :
    startsComparison (c :: rest) = (isComparison c || (c = '!' && rest.head? = some '=')) := rfl

theorem neutral_of_startsComparison {c : Char} {rest : List Char}
    (h : startsComparison (c :: rest) = true) : Mark.ofChar c = .neutral ∧ isBlank c = false := by
  rw [startsComparison_cons, isComparison] at h
  simp only [Bool.or_eq_true, Bool.and_eq_true, decide_eq_true_eq] at h
  rcases h with ((rfl | rfl) | rfl) | ⟨rfl, -⟩ <;> exact ⟨by decide, by decide⟩

theorem startsComparison_append {text : List Char} (h : text ≠ []) (more : List Char)
    (hmore : ∀ before, text = before ++ ['!'] → more.head? ≠ some '=') :
    startsComparison (text ++ more) = startsComparison text := by
  obtain ⟨c, rest, rfl⟩ := List.exists_cons_of_ne_nil h
  rw [List.cons_append, startsComparison_cons, startsComparison_cons]
  cases rest with
  | cons d rest => rfl
  | nil =>
    by_cases hc : c = '!'
    · subst hc
      simp [hmore [] rfl]
    · simp [hc]

/-! ### The pass is the normal form -/

theorem startsComparison_squeezeFrom (text : List Char) :
    startsComparison (Text.squeezeFrom true text) = startsComparison (text.dropWhile isBlank) := by
  induction text with
  | nil => rfl
  | cons c rest ih =>
    rw [Text.squeezeFrom]
    by_cases hc : isBlank c = true
    · rw [if_pos hc, if_pos rfl, List.dropWhile_cons_of_pos hc]
      exact ih
    · rw [if_neg hc, List.dropWhile_cons_of_neg hc, startsComparison_cons, startsComparison_cons]
      cases rest with
      | nil => rfl
      | cons d rest =>
        rw [Text.squeezeFrom]
        by_cases hd : isBlank d = true
        · rw [if_pos hd, if_neg (by decide)]
          have hne : d ≠ '=' := by
            intro heq
            subst heq
            exact absurd hd (by decide)
          simp [hne]
        · rw [if_neg hd]
          rfl

/-- Bare text `bare`, followed by what `more` is the normal form of, reads as `text` does in the pass
that starts in the zone `z`. -/
structure TidiesTo (bare more : List Char) (z : Zone) (text : List Char) : Prop where
  lookahead : startsComparison (bare.dropWhile isBlank) = startsComparison (text.dropWhile isBlank)
  first : bare.head? = some '=' ↔ text.head? = some '='
  tidy : ∀ after blank, tightenFrom after (Text.squeezeFrom blank bare) ++ more =
    tidyFrom z (after || blank) text

theorem TidiesTo.cons {bare more text : List Char} {z : Zone} {c : Char} (hz : z.quoted = false)
    (h : TidiesTo bare more (z.step (Mark.ofChar c)) text) :
    TidiesTo (c :: bare) more z (c :: text) where
  lookahead := by
    by_cases hc : isBlank c = true
    · rw [List.dropWhile_cons_of_pos hc, List.dropWhile_cons_of_pos hc, h.lookahead]
    · rw [List.dropWhile_cons_of_neg hc, List.dropWhile_cons_of_neg hc, startsComparison_cons,
        startsComparison_cons]
      simp only [h.first]
  first := by simp
  tidy := by
    intro after blank
    rw [Text.squeezeFrom]
    by_cases hc : isBlank c = true
    · have hstep : z.step (Mark.ofChar c) = z.settle := by
        rw [Mark.ofChar_of_isBlank hc, Zone.step_neutral]
      rw [if_pos hc]
      cases blank with
      | true => rw [if_pos rfl, h.tidy, tidyFrom_drop hz hc (.inl (Bool.or_true _)), hstep, Bool.or_true]
      | false =>
        rw [if_neg Bool.false_ne_true, tightenFrom, startsComparison_squeezeFrom, h.lookahead,
          Bool.or_false]
        by_cases hdrop : after = true ∨ startsComparison (text.dropWhile isBlank) = true
        · rw [if_pos (by simpa using hdrop), h.tidy, tidyFrom_drop hz hc hdrop, hstep, Bool.or_true]
        · rw [not_or, Bool.not_eq_true, Bool.not_eq_true] at hdrop
          rw [if_neg (by simp [hdrop.1, hdrop.2]), List.cons_append, h.tidy, hstep, hdrop.1,
            tidyFrom_space hz hc hdrop.2, Bool.or_true]
    · rw [if_neg hc]
      rw [Bool.not_eq_true] at hc
      have hne : ¬ (c = ' ' ∧ (after = true ∨ startsComparison (Text.squeezeFrom false bare) = true)) := by
        intro h
        obtain ⟨rfl, -⟩ := h
        exact absurd hc (by decide)
      rw [tightenFrom, if_neg (by simpa using hne), List.cons_append, h.tidy, tidyFrom_keep (.inr hc),
        hz, Bool.or_false, Bool.not_false, Bool.true_and]

/-- The joined normal forms of segments are what the pass makes of the text that was cut. -/
theorem tidyFrom_of_cuts {d : Nat} {inside : Bool} {text first : List Char} {tail : List Segment}
    (h : Segment.Cuts inside text first tail) :
    match inside with
    | true => ∀ glue, first ++ '"' :: tail.flatMap (·.normal.source) =
      tidyFrom ⟨d, true, false⟩ glue text
    | false => TidiesTo first (tail.flatMap (·.normal.source)) ⟨d, false, false⟩ text := by
  induction h generalizing d with
  | nil => exact ⟨rfl, Iff.rfl, fun _ _ => rfl⟩
  | dangling => exact .cons rfl ⟨rfl, Iff.rfl, fun _ _ => rfl⟩
  | @escape inside c rest first tail _ ih =>
    have hrest := ih (d := d)
    cases inside with
    | true =>
      intro glue
      rw [tidyFrom_keep (.inl rfl), tidyFrom_keep (.inl rfl)]
      exact congrArg (fun text => '\\' :: c :: text) (hrest _)
    | false => exact .cons rfl (.cons rfl hrest)
  | @quote inside rest first tail _ ih =>
    have hrest := ih (d := d)
    cases inside with
    | true =>
      intro glue
      rw [tidyFrom_keep (.inl rfl)]
      exact congrArg ('"' :: ·) (hrest.tidy false false)
    | false =>
      refine ⟨rfl, by simp, fun after blank => ?_⟩
      rw [tidyFrom_keep (.inr (by decide)), List.flatMap_cons]
      refine congrArg ('"' :: ·) (Eq.trans ?_ (hrest _))
      exact List.append_assoc first ['"'] _
  | @plain inside c rest first tail hescape hquote _ ih =>
    obtain ⟨d', hstep⟩ := Segment.exists_step_plain (d := d) (q := inside) hescape hquote
    have hrest := ih (d := d')
    cases inside with
    | true =>
      intro glue
      rw [tidyFrom_keep (.inl rfl), hstep]
      exact congrArg (c :: ·) (hrest _)
    | false =>
      refine .cons rfl ?_
      rw [hstep]
      exact hrest

/-- A text without its layout: the normal form, for a text whose quotes are closed. -/
def tidy (text : List Char) : List Char :=
  Text.trim (tidyFrom .top false text)

theorem normalize_eq_ok {text out : List Char} :
    normalize text = .ok out ↔ (Zone.top.run text).quoted = false ∧ out = tidy text := by
  rw [normalize, map_eq_ok, Zone.top, ← Segment.exists_cutFrom_iff]
  have htidy : ∀ segments, Segment.cut text = .ok segments →
      segments.flatMap (fun segment => segment.normal.source) = tidyFrom .top false text := by
    intro segments hcut
    obtain ⟨bare, rest, rfl, hcuts⟩ := Segment.exists_cuts hcut
    exact (tidyFrom_of_cuts (d := 0) hcuts).tidy false false
  constructor
  · intro h
    obtain ⟨segments, hcut, rfl⟩ := h
    exact ⟨⟨segments, hcut⟩, congrArg Text.trim (htidy segments hcut)⟩
  · intro h
    obtain ⟨⟨segments, hcut⟩, rfl⟩ := h
    exact ⟨segments, hcut, congrArg Text.trim (htidy segments hcut)⟩

theorem normalize_eq_error {text : List Char} {e : QueryError} :
    normalize text = .error e ↔ (Zone.top.run text).quoted = true ∧ e = .mismatchedQuotes := by
  cases h : normalize text with
  | ok out => simp [(normalize_eq_ok.mp h).1]
  | error e' =>
    rw [normalize, map_eq_error] at h
    have hopen : (Zone.top.run text).quoted = true := by
      rw [← Bool.not_eq_false, Zone.top, ← Segment.exists_cutFrom_iff]
      intro h
      obtain ⟨segments, hcut⟩ := h
      cases h.symm.trans hcut
    cases Segment.eq_mismatchedQuotes_of_cutFrom h
    simp [hopen, eq_comm]

/-! ### Concatenation -/

/-- Whether the pass would drop a blank behind a text. -/
def glueAfter (z : Zone) (glue : Bool) : List Char → Bool
  | [] => glue
  | c :: rest =>
    glueAfter (z.step (Mark.ofChar c))
      (if z.quoted = false ∧ isBlank c = true then true else !z.quoted && isComparison c) rest

theorem glueAfter_append (z : Zone) (glue : Bool) (x y : List Char) :
    glueAfter z glue (x ++ y) = glueAfter (z.run x) (glueAfter z glue x) y := by
  induction x generalizing z glue with
  | nil => rfl
  | cons c rest ih => exact ih _ _

/-- No blank of the first text stands in front of a comparison symbol of the second one. -/
def Apart (x y : List Char) : Prop :=
  ∀ before c after, x = before ++ c :: after → isBlank c = true →
    startsComparison ((after ++ y).dropWhile isBlank) = startsComparison (after.dropWhile isBlank)

theorem tidyFrom_append {x y : List Char} (h : Apart x y) (z : Zone) (glue : Bool) :
    tidyFrom z glue (x ++ y) =
      tidyFrom z glue x ++ tidyFrom (z.run x) (glueAfter z glue x) y := by
  induction x generalizing z glue with
  | nil => rfl
  | cons c rest ih =>
    have hrest : Apart rest y := fun before d after hx =>
      h (c :: before) d after (congrArg (c :: ·) hx)
    rw [List.cons_append, tidyFrom, tidyFrom, glueAfter, Zone.run_cons]
    by_cases hc : z.quoted = false ∧ isBlank c = true
    · rw [if_pos hc, if_pos hc, if_pos hc, h [] c rest rfl hc.2, ih hrest]
      split <;> rfl
    · rw [if_neg hc, if_neg hc, if_neg hc, ih hrest]
      rfl

/-- Text that does not start with a comparison symbol, blanks apart, can follow any text. -/
theorem apart_of_not_startsComparison {y : List Char}
    (h : startsComparison (y.dropWhile isBlank) = false) (x : List Char) : Apart x y := by
  intro before c after _ _
  rw [List.dropWhile_append]
  split
  · next hnil =>
    rw [List.isEmpty_iff.mp hnil, h]
    rfl
  · next hne =>
    refine startsComparison_append (by simpa using hne) y fun _ _ hy => ?_
    obtain ⟨rest, rfl⟩ := List.head?_eq_some_iff.mp hy
    cases h

/-- A text that ends with a character which is no blank and no part of a comparison symbol. -/
def Firm (text : List Char) : Prop :=
  ∃ before c, text = before ++ [c] ∧ isBlank c = false ∧ c ≠ '!' ∧ isComparison c = false

theorem apart_of_firm {x : List Char} (h : Firm x) (y : List Char) : Apart x y := by
  obtain ⟨body, last, rfl, hblank, hbang, -⟩ := h
  intro before c after hx hc
  obtain ⟨front, rfl⟩ : ∃ front, after = front ++ [last] := by
    rcases List.eq_nil_or_concat after with rfl | ⟨front, d, rfl⟩
    · obtain ⟨-, heq⟩ := List.append_inj' hx rfl
      cases heq
      rw [hc] at hblank
      cases hblank
    · rw [List.concat_eq_append, ← List.cons_append, ← List.append_assoc] at hx
      obtain ⟨-, heq⟩ := List.append_inj' hx rfl
      cases heq
      exact ⟨front, List.concat_eq_append⟩
  have hdrop : ∃ kept, (front ++ [last]).dropWhile isBlank = kept ++ [last] := by
    rw [List.dropWhile_append]
    split
    · exact ⟨[], by simp [hblank]⟩
    · exact ⟨front.dropWhile isBlank, rfl⟩
  obtain ⟨kept, hkept⟩ := hdrop
  rw [List.dropWhile_append, hkept, if_neg (by simp)]
  refine startsComparison_append (by simp) y fun before' heq => ?_
  obtain ⟨-, heq⟩ := List.append_inj' heq rfl
  cases heq
  exact absurd rfl hbang

theorem glueAfter_concat {c : Char} (hblank : isBlank c = false) (hcomparison : isComparison c = false)
    (z : Zone) (glue : Bool) (x : List Char) : glueAfter z glue (x ++ [c]) = false := by
  rw [glueAfter_append, glueAfter, if_neg (by simp [hblank]), hcomparison, Bool.and_false]
  rfl

theorem glueAfter_of_firm {x : List Char} (h : Firm x) (z : Zone) (glue : Bool) :
    glueAfter z glue x = false := by
  obtain ⟨body, last, rfl, hblank, -, hcomparison⟩ := h
  exact glueAfter_concat hblank hcomparison z glue body

/-- What follows a firm text is rewritten as if it stood alone. -/
theorem tidyFrom_firm_append {x : List Char} (h : Firm x) (z : Zone) (glue : Bool)
    (y : List Char) :
    tidyFrom z glue (x ++ y) = tidyFrom z glue x ++ tidyFrom (z.run x) false y := by
  rw [tidyFrom_append (apart_of_firm h y), glueAfter_of_firm h]

/-- What a text starts with decides whether `glue` matters. -/
theorem tidyFrom_glue {text : List Char} (h : ∀ c, text.head? = some c → isBlank c = false)
    (z : Zone) (glue glue' : Bool) : tidyFrom z glue text = tidyFrom z glue' text := by
  cases text with
  | nil => rfl
  | cons c rest => rw [tidyFrom_keep (.inr (h c rfl)), tidyFrom_keep (.inr (h c rfl))]

/-! ### Runs of blanks -/

theorem blank_cons {c : Char} {rest : List Char} (h : Blank (c :: rest)) :
    isBlank c = true ∧ Blank rest :=
  ⟨h c List.mem_cons_self, fun d hd => h d (List.mem_cons_of_mem _ hd)⟩

theorem run_blank {text : List Char} (h : Blank text) (z : Zone) :
    (z.run text).quoted = z.quoted ∧ (z.run text).depth = z.depth := by
  induction text generalizing z with
  | nil => exact ⟨rfl, rfl⟩
  | cons c rest ih =>
    obtain ⟨hc, hrest⟩ := blank_cons h
    rw [Zone.run_cons, Mark.ofChar_of_isBlank hc, Zone.step_neutral]
    exact ih hrest z.settle

theorem run_blank_of_not_escaped {text : List Char} (h : Blank text) {z : Zone}
    (hz : z.escaped = false) : z.run text = z :=
  Zone.run_eq_of_run? (Zone.run?_neutral hz fun c hc => Mark.ofChar_of_isBlank (h c hc))

theorem tidyFrom_blank_append {blanks : List Char} (h : Blank blanks) {z : Zone}
    (hquoted : z.quoted = false) (hescaped : z.escaped = false) (text : List Char) :
    tidyFrom z true (blanks ++ text) = tidyFrom z true text := by
  induction blanks with
  | nil => rfl
  | cons c rest ih =>
    obtain ⟨hc, hrest⟩ := blank_cons h
    rw [List.cons_append, tidyFrom_drop hquoted hc (.inl rfl), Zone.settle_of_not_escaped hescaped,
      ih hrest]

/-- A gap in front of anything but a comparison symbol becomes one space. -/
theorem tidyFrom_gap {gap : List Char} (hgap : Blank gap) (hne : gap ≠ []) {z : Zone}
    (hquoted : z.quoted = false) (hescaped : z.escaped = false) {text : List Char}
    (htext : startsComparison (text.dropWhile isBlank) = false) :
    tidyFrom z false (gap ++ text) = ' ' :: tidyFrom z true text := by
  obtain ⟨c, rest, rfl⟩ := List.exists_cons_of_ne_nil hne
  obtain ⟨hc, hrest⟩ := blank_cons hgap
  rw [List.cons_append, tidyFrom_space hquoted hc, Zone.settle_of_not_escaped hescaped,
    tidyFrom_blank_append hrest hquoted hescaped]
  rw [List.dropWhile_append_of_pos hrest]
  exact htext

theorem tidyFrom_gap_comparison {gap : List Char} (hgap : Blank gap) {z : Zone}
    (hquoted : z.quoted = false) (hescaped : z.escaped = false) {text : List Char}
    (htext : startsComparison text = true) :
    tidyFrom z false (gap ++ text) = tidyFrom z true text := by
  have hhead : ∀ c, text.head? = some c → isBlank c = false := by
    intro c hc
    obtain ⟨rest, rfl⟩ := List.head?_eq_some_iff.mp hc
    exact (neutral_of_startsComparison htext).2
  cases gap with
  | nil => exact tidyFrom_glue hhead z false true
  | cons c rest =>
    obtain ⟨hc, hrest⟩ := blank_cons hgap
    rw [List.cons_append, tidyFrom_drop hquoted hc, Zone.settle_of_not_escaped hescaped,
      tidyFrom_blank_append hrest hquoted hescaped]
    right
    rw [List.dropWhile_append_of_pos hrest]
    have hstart := Text.trimStart_eq_self hhead
    rw [Text.trimStart] at hstart
    rw [hstart, htext]

/-- Two texts with a gap between them: the gap becomes one space, and each text is rewritten as if it
stood alone. -/
theorem tidyFrom_append_gap {x gap y : List Char} (hx : Firm x) {z : Zone} (hrun : z.run x = z)
    (hquoted : z.quoted = false) (hescaped : z.escaped = false) (hgap : Blank gap) (hne : gap ≠ [])
    (hy : startsComparison (y.dropWhile isBlank) = false) (glue : Bool) :
    tidyFrom z glue (x ++ (gap ++ y)) = tidyFrom z glue x ++ ' ' :: tidyFrom z true y := by
  rw [tidyFrom_firm_append hx, hrun, tidyFrom_gap hgap hne hquoted hescaped hy]

theorem tidyFrom_of_not_blank {text : List Char} (h : ∀ c ∈ text, isBlank c = false) (z : Zone)
    (glue : Bool) : tidyFrom z glue text = text := by
  induction text generalizing z glue with
  | nil => rfl
  | cons c rest ih =>
    rw [tidyFrom_keep (.inr (h c List.mem_cons_self)),
      ih fun d hd => h d (List.mem_cons_of_mem _ hd)]

theorem tidyFrom_depth (z : Zone) (d : Nat) (glue : Bool) (text : List Char) :
    tidyFrom { z with depth := d } glue text = tidyFrom z glue text := by
  induction text generalizing z d glue with
  | nil => rfl
  | cons c rest ih =>
    obtain ⟨d', hstep⟩ := Zone.exists_step_depth z d (Mark.ofChar c)
    simp only [tidyFrom, hstep, ih]

theorem length_tidyFrom_le (z : Zone) (glue : Bool) (text : List Char) :
    (tidyFrom z glue text).length ≤ text.length := by
  induction text generalizing z glue with
  | nil => exact Nat.le_refl _
  | cons c rest ih =>
    rw [tidyFrom, List.length_cons]
    split
    · have hrest := ih (z.step (Mark.ofChar c)) true
      split
      · omega
      · rw [List.length_cons]
        omega
    · have hrest := ih (z.step (Mark.ofChar c)) (!z.quoted && isComparison c)
      rw [List.length_cons]
      omega

theorem tidyFrom_eq_self_of_tidy {text : List Char} (h : tidy text = text) :
    tidyFrom .top false text = text := by
  have hle := length_tidyFrom_le .top false text
  have htrim : (Text.trim (tidyFrom .top false text)).length = text.length := congrArg _ h
  obtain ⟨before, after, -, -, heq⟩ := Text.exists_blank_trim (tidyFrom .top false text)
  have hlength := congrArg List.length heq
  rw [List.length_append, List.length_append] at hlength
  have hbefore : before = [] := List.eq_nil_of_length_eq_zero (by omega)
  have hafter : after = [] := List.eq_nil_of_length_eq_zero (by omega)
  rw [hbefore, hafter, List.append_nil, List.nil_append] at heq
  exact heq.trans h

theorem tidyFrom_eq_self_of_normalize {text : List Char} (h : normalize text = .ok text) :
    tidyFrom .top false text = text :=
  tidyFrom_eq_self_of_tidy (normalize_eq_ok.mp h).2.symm

theorem blank_tidyFrom {text : List Char} (h : Blank text) {z : Zone} (hz : z.quoted = false)
    (glue : Bool) : Blank (tidyFrom z glue text) := by
  induction text generalizing z glue with
  | nil => exact h
  | cons c rest ih =>
    obtain ⟨hc, hrest⟩ := blank_cons h
    rw [tidyFrom, if_pos ⟨hz, hc⟩, Mark.ofChar_of_isBlank hc, Zone.step_neutral]
    have hout := ih hrest (z := z.settle) hz true
    split
    · exact hout
    · intro d hd
      rcases List.mem_cons.mp hd with rfl | hd
      · decide
      · exact hout d hd

theorem head?_tidyFrom {z : Zone} (hz : z.quoted = false) (text : List Char) :
    ∀ c, (tidyFrom z true text).head? = some c → isBlank c = false := by
  induction text generalizing z with
  | nil => exact fun c hc => nomatch hc
  | cons c rest ih =>
    by_cases hc : isBlank c = true
    · rw [tidyFrom_drop hz hc (.inl rfl)]
      exact ih (z := z.settle) hz
    · rw [Bool.not_eq_true] at hc
      rw [tidyFrom_keep (.inr hc)]
      intro d hd
      cases hd
      exact hc

/-- Without `glue` at most some blanks come in front. -/
theorem exists_blank_tidyFrom {z : Zone} (hquoted : z.quoted = false) (glue : Bool)
    (text : List Char) :
    ∃ blanks, Blank blanks ∧ tidyFrom z glue text = blanks ++ tidyFrom z true text := by
  cases text with
  | nil => exact ⟨[], Text.blank_nil, rfl⟩
  | cons c rest =>
    by_cases hc : isBlank c = true
    · rw [tidyFrom_drop hquoted hc (.inl rfl)]
      rw [tidyFrom, if_pos ⟨hquoted, hc⟩, Mark.ofChar_of_isBlank hc, Zone.step_neutral]
      split
      · exact ⟨[], Text.blank_nil, rfl⟩
      · exact ⟨[' '], Text.blank_space, rfl⟩
    · rw [Bool.not_eq_true] at hc
      rw [tidyFrom_keep (.inr hc), tidyFrom_keep (.inr hc)]
      exact ⟨[], Text.blank_nil, rfl⟩

theorem tidy_append {before text after : List Char} (hbefore : Blank before) (hafter : Blank after)
    (htext : (Zone.top.run text).quoted = false) : tidy (before ++ text ++ after) = tidy text := by
  have hrun : Zone.top.run (before ++ text) = Zone.top.run text := by
    rw [Zone.run_append, run_blank_of_not_escaped hbefore rfl]
  have hlast : startsComparison (after.dropWhile isBlank) = false := by
    rw [List.dropWhile_eq_nil_iff.mpr hafter]
    rfl
  have hafter' := blank_tidyFrom hafter (z := Zone.top.run text) htext
    (glueAfter .top false (before ++ text))
  obtain ⟨lead, hlead, hleft⟩ := exists_blank_tidyFrom (z := .top) rfl false (before ++ text)
  obtain ⟨lead', hlead', hright⟩ := exists_blank_tidyFrom (z := .top) rfl false text
  rw [tidyFrom_blank_append hbefore rfl rfl] at hleft
  rw [tidy, tidyFrom_append (apart_of_not_startsComparison hlast _), hrun, hleft,
    Text.trim_append hlead hafter', tidy, hright, ← List.append_nil (lead' ++ _),
    Text.trim_append hlead' Text.blank_nil]

theorem tidy_trim {text : List Char} (h : (Zone.top.run text).quoted = false) :
    tidy (Text.trim text) = tidy text := by
  obtain ⟨before, after, hbefore, hafter, htext⟩ := Text.exists_blank_trim text
  have hrun : (Zone.top.run (Text.trim text)).quoted = false := by
    rw [htext, Zone.run_append, (run_blank hafter _).1, Zone.run_append,
      run_blank_of_not_escaped hbefore rfl] at h
    exact h
  conv_rhs => rw [htext]
  exact (tidy_append hbefore hafter hrun).symm

end RowSearch.Query
