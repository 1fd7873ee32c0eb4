import RowSearch.Proofs.Canonical
import RowSearch.Proofs.Structure
/-!
# What the normal form changes

The normal form is the text again, but for blanks outside of its quotes. A text cut at its quotes and
freed of the blanks in its bare segments is its essence; text and normal form, each cut afresh, have
the same one, so the same quoted spans in the same order and the same characters around them. A blank
that is left outside of quotes is a single space between two characters that are no blanks and no
comparison symbols.

The essence is a run over the characters that is blind to layout. It does not look at the places where
the pass dropped a blank, so a backslash may well stand in front of another character afterwards.
-/

namespace RowSearch.Query

open Text (isBlank Blank Tight)
open Zone (top)

def Segment.unspaced : Segment → Segment
  | .bare text => .bare (text.filter (!isBlank ·))
  | .quoted body => .quoted body

/-- A text without the blanks outside of its quoted spans. Without an end for each quote there are no
spans, and the text is left as it is. -/
def unspaced (text : List Char) : List Char :=
  match Segment.cut text with
  | .ok segments => segments.flatMap (·.unspaced.source)
  | .error _ => text

def Borders (c : Char) : Prop :=
  isBlank c = false ∧ isComparison c = false

/-- Outside of quotes, where no quote is open in front, the only blanks of a text are single spaces, each
with a character before it and one behind it, and neither of the two is a blank or a comparison
symbol. -/
def Neat (text : List Char) : Prop :=
  ∀ before c after, text = before ++ c :: after → ¬OpenQuote before → isBlank c = true →
    c = ' ' ∧ (∃ b, before.getLast? = some b ∧ Borders b) ∧
      ∃ a, after.head? = some a ∧ Borders a

/-! ### The essence of a text -/

/-- The segments of a text that starts in a zone, without the blanks that are not quoted. -/
def essenceFrom (z : Zone) : List Char → List Segment
  | [] => [.ofText z.quoted []]
  | c :: rest =>
    if z.escaped = false ∧ c = '"' then
      .ofText z.quoted [] :: essenceFrom (z.step (Mark.ofChar c)) rest
    else if z.quoted = false ∧ isBlank c = true then essenceFrom (z.step (Mark.ofChar c)) rest
    else Segment.extendFirst [c] (essenceFrom (z.step (Mark.ofChar c)) rest)

section Essence

variable {z : Zone} {c : Char} {rest : List Char}

theorem essenceFrom_quote (hz : z.escaped = false) :
    essenceFrom z ('"' :: rest) = .ofText z.quoted [] :: essenceFrom (z.step .quote) rest :=
  if_pos ⟨hz, rfl⟩

theorem essenceFrom_blank (hz : z.quoted = false) (hc : isBlank c = true) :
    essenceFrom z (c :: rest) = essenceFrom z.settle rest := by
  have hquote : c ≠ '"' := by
    rintro rfl
    exact absurd hc (by decide)
  rw [essenceFrom, if_neg (by simp [hquote]), if_pos ⟨hz, hc⟩, Mark.ofChar_of_isBlank hc,
    Zone.step_neutral]

/-- A character that is no open quote belongs to the first segment. -/
theorem essenceFrom_cons (h : z.escaped = true ∨ c ≠ '"') {first : List Char}
    {tail : List Segment}
    (hrest : essenceFrom (z.step (Mark.ofChar c)) rest =
      (Segment.ofText z.quoted first :: tail).map Segment.unspaced) :
    essenceFrom z (c :: rest) =
      (Segment.ofText z.quoted (c :: first) :: tail).map Segment.unspaced := by
  have hquote : ¬(z.escaped = false ∧ c = '"') := by grind
  rw [essenceFrom, if_neg hquote, hrest]
  cases hz : z.quoted with
  | true =>
    rw [if_neg (by simp)]
    rfl
  | false =>
    cases hc : isBlank c <;>
      simp [hc, Segment.ofText, Segment.unspaced, Segment.extendFirst, Segment.extend]

theorem essenceFrom_of_cuts {d : Nat} {inside : Bool} {text first : List Char}
    {tail : List Segment} (h : Segment.Cuts inside text first tail) :
    essenceFrom ⟨d, inside, false⟩ text =
      (Segment.ofText inside first :: tail).map Segment.unspaced := by
  induction h generalizing d with
  | nil => rfl
  | dangling => exact essenceFrom_cons (z := ⟨d, false, false⟩) (.inr (by decide)) rfl
  | @escape inside c rest first tail _ ih =>
    apply essenceFrom_cons (z := ⟨d, inside, false⟩) (.inr (by decide))
    apply essenceFrom_cons (z := ⟨d, inside, true⟩) (.inl rfl)
    exact ih
  | @quote inside rest first tail _ ih =>
    rw [essenceFrom_quote rfl]
    show _ :: essenceFrom ⟨d, !inside, false⟩ rest = _
    rw [ih]
    cases inside <;> rfl
  | @plain inside c rest first tail hescape hquote _ ih =>
    obtain ⟨d', hstep⟩ := Segment.exists_step_plain (d := d) (q := inside) hescape hquote
    apply essenceFrom_cons (z := ⟨d, inside, false⟩) (.inr hquote)
    rw [hstep]
    exact ih

theorem blind_essenceFrom : Blind essenceFrom where
  cons h := by rw [essenceFrom, essenceFrom, h]
  blank hz hc := essenceFrom_blank hz hc
  settle {z c x} hc := by
    have hquote : c ≠ '"' := (Mark.ofChar_eq_neutral.mp hc).2.1
    rw [essenceFrom, essenceFrom, hc, Zone.step_neutral, Zone.step_neutral, Zone.settle_settle,
      Zone.settle_quoted]
    simp [hquote]

/-- Blanks at the end of a text are not in its essence. -/
theorem essenceFrom_append_blank {after : List Char} (hafter : Blank after) (text : List Char)
    (hquoted : (z.run text).quoted = false) : essenceFrom z (text ++ after) = essenceFrom z text := by
  induction text generalizing z with
  | nil =>
    induction after generalizing z with
    | nil => rfl
    | cons c rest ih =>
      obtain ⟨hc, hrest⟩ := blank_cons hafter
      rw [Zone.run_nil] at hquoted
      rw [List.nil_append, essenceFrom_blank hquoted hc]
      exact ih hrest hquoted
  | cons c rest ih => exact blind_essenceFrom.cons (ih hquoted)

theorem essenceFrom_blank_append {before : List Char} (hbefore : Blank before)
    (text : List Char) : essenceFrom top (before ++ text) = essenceFrom top text := by
  induction before with
  | nil => rfl
  | cons c rest ih =>
    obtain ⟨hc, hrest⟩ := blank_cons hbefore
    rw [List.cons_append, essenceFrom_blank rfl hc]
    exact ih hrest

end Essence

section Normal

variable {text : List Char}

theorem essenceFrom_tidy (h : (top.run text).quoted = false) :
    essenceFrom top (tidy text) = essenceFrom top text := by
  have hpass : essenceFrom top (tidyFrom top false text) = essenceFrom top text :=
    blind_essenceFrom.apply_tidyFrom (fun _ => rfl) text
  obtain ⟨before, after, hbefore, hafter, htrim⟩ :=
    Text.exists_blank_trim (tidyFrom top false text)
  have hkept : (top.run (tidy text)).quoted = false := by rw [run_tidy_quoted, h]
  rw [← hpass, htrim, ← tidy, List.append_assoc, essenceFrom_blank_append hbefore,
    essenceFrom_append_blank hafter _ hkept]

theorem exists_cut (h : (top.run text).quoted = false) :
    ∃ segments, Segment.cut text = .ok segments ∧
      essenceFrom top text = segments.map Segment.unspaced := by
  obtain ⟨segments, hcut⟩ := Segment.exists_cutFrom_iff.mpr h
  obtain ⟨first, tail, rfl, hcuts⟩ := Segment.exists_cuts hcut
  exact ⟨_, hcut, essenceFrom_of_cuts hcuts⟩

/-- Text and normal form, each cut at its quotes, have the same segments but for the blanks in the bare
ones. -/
theorem cut_tidy (h : (top.run text).quoted = false) :
    ∃ segments segments', Segment.cut text = .ok segments ∧ Segment.cut (tidy text) = .ok segments' ∧
      segments'.map Segment.unspaced = segments.map Segment.unspaced := by
  have hkept : (top.run (tidy text)).quoted = false := by rw [run_tidy_quoted, h]
  obtain ⟨segments, hcut, hessence⟩ := exists_cut h
  obtain ⟨segments', hcut', hessence'⟩ := exists_cut hkept
  refine ⟨segments, segments', hcut, hcut', ?_⟩
  rw [← hessence, ← hessence', essenceFrom_tidy h]

theorem quotedSpans_eq {segments : List Segment} (h : Segment.cut text = .ok segments) :
    quotedSpans text = .ok ((segments.map Segment.unspaced).filterMap fun
      | .bare _ => none
      | .quoted body => some body) := by
  rw [quotedSpans, h, List.filterMap_map]
  refine congrArg Except.ok (List.filterMap_congr fun segment _ => ?_)
  cases segment <;> rfl

theorem unspaced_eq {segments : List Segment} (h : Segment.cut text = .ok segments) :
    unspaced text = (segments.map Segment.unspaced).flatMap Segment.source := by
  rw [unspaced, h, List.flatMap_map]

/-! ### The blanks that are left -/

/-- Behind a space that the pass keeps stands no blank and no comparison symbol. -/
theorem borders_behind_space {z : Zone} (hz : z.quoted = false)
    (hstart : startsComparison (text.dropWhile isBlank) = false) {a : Char}
    (ha : (tidyFrom z.settle true text).head? = some a) : Borders a := by
  cases htext : text.dropWhile isBlank with
  | nil =>
    rw [tidyFrom_dropWhile (z := z.settle) hz rfl, htext] at ha
    cases ha
  | cons e tail =>
    rw [tidyFrom_of_dropWhile (z := z.settle) hz rfl htext] at ha
    cases ha
    rw [htext, startsComparison_cons] at hstart
    exact ⟨not_isBlank_of_dropWhile htext, (Bool.or_eq_false_iff.mp hstart).1⟩

/-- In front of a comparison symbol it does not matter whether the first character that the pass leaves
is escaped: that character is the symbol. -/
theorem quoted_run_settle {z : Zone} (hz : z.quoted = false)
    (hstart : startsComparison (text.dropWhile isBlank) = true) {before behind : List Char}
    (hout : tidyFrom z.settle true text = before ++ behind) (hquoted : (z.run before).quoted = false) :
    (z.settle.run before).quoted = false := by
  obtain ⟨e, tail, htail⟩ := exists_cons_of_startsComparison hstart
  rw [htail] at hstart
  rw [tidyFrom_of_dropWhile (z := z.settle) hz rfl htail] at hout
  cases before with
  | nil => exact hz
  | cons b before =>
    obtain ⟨rfl, -⟩ := List.cons.inj hout
    have hneutral := (neutral_of_startsComparison hstart).1
    rw [Zone.run_cons, hneutral, Zone.step_neutral] at hquoted ⊢
    exact hquoted

/-- The pass keeps a blank outside of quotes as a space, and neither in front of it nor behind it leaves
a blank or a comparison symbol. -/
theorem borders_of_tidyFrom {z : Zone} {glue : Bool} (hglue : glue = true → z.escaped = false)
    {before after : List Char} {c : Char} (hout : tidyFrom z glue text = before ++ c :: after)
    (hquoted : (z.run before).quoted = false) (hc : isBlank c = true) :
    c = ' ' ∧ (before = [] → glue = false) ∧ (∀ b, before.getLast? = some b → Borders b) ∧
      ∀ a, after.head? = some a → Borders a := by
  induction text generalizing z glue before with
  | nil =>
    rw [tidyFrom_nil] at hout
    simp at hout
  | cons d rest ih =>
    cases passes z glue d rest with
    | drop hz hd hdrop =>
      rw [tidyFrom_drop hz hd hdrop] at hout
      have hrun : (z.settle.run before).quoted = false := by
        rcases hdrop with hg | hstart
        · rwa [Zone.settle_of_not_escaped (hglue hg)]
        · exact quoted_run_settle hz hstart hout hquoted
      obtain ⟨hspace, hempty, hborders⟩ := ih (fun _ => rfl) hout hrun
      refine ⟨hspace, fun hnil => ?_, hborders⟩
      cases hempty hnil
    | space hz hd hg hstart =>
      subst hg
      rw [tidyFrom_space hz hd hstart] at hout
      cases before with
      | nil =>
        obtain ⟨rfl, rfl⟩ := List.cons.inj hout
        exact ⟨rfl, fun _ => rfl, by simp, fun a ha => borders_behind_space hz hstart ha⟩
      | cons b before =>
        obtain ⟨rfl, hrest⟩ := List.cons.inj hout
        rw [Zone.run_cons, Mark.ofChar_of_isBlank (by decide), Zone.step_neutral] at hquoted
        obtain ⟨hspace, hempty, hfront, hbehind⟩ :=
          @ih z.settle true (fun _ => rfl) before hrest hquoted
        obtain ⟨b, more, rfl⟩ : ∃ b more, before = b :: more := by
          refine List.exists_cons_of_ne_nil fun hnil => ?_
          cases hempty hnil
        exact ⟨hspace, by simp, by rwa [List.getLast?_cons_cons], hbehind⟩
    | keep hkeep =>
      rw [tidyFrom_keep hkeep] at hout
      cases before with
      | nil =>
        obtain ⟨rfl, -⟩ := List.cons.inj hout
        rw [Zone.run_nil] at hquoted
        simp [hquoted, hc] at hkeep
      | cons b before =>
        obtain ⟨rfl, hrest⟩ := List.cons.inj hout
        obtain ⟨hspace, hempty, hfront, hbehind⟩ := ih escaped_step_of_glue hrest hquoted
        refine ⟨hspace, by simp, ?_, hbehind⟩
        cases before with
        | nil =>
          intro b hb
          cases hb
          have hno : ¬(z.quoted = false ∧ isBlank d = true) := by grind
          have hclosed : (z.run ([] ++ [d])).quoted = false := hquoted
          have hglue : glueAfter z glue ([] ++ [d]) = false := by
            rw [List.nil_append, glueAfter, if_neg hno]
            exact hempty rfl
          exact not_glue_of_glueAfter hclosed hglue
        | cons b before => rwa [List.getLast?_cons_cons]

theorem neat_tidy (text : List Char) : Neat (tidy text) := by
  intro before c after heq hopen hc
  rw [openQuote_iff, Bool.not_eq_true] at hopen
  obtain ⟨lead, tail, hlead, htail, htrim⟩ := Text.exists_blank_trim (tidyFrom top false text)
  have htight : Tight (tidy text) := Text.tight_trim _
  have hpass : tidyFrom top false text = (lead ++ before) ++ c :: (after ++ tail) := by
    rw [htrim, ← tidy, heq]
    simp
  have hrun : (top.run (lead ++ before)).quoted = false := by
    rw [Zone.run_append, run_blank_of_not_escaped hlead rfl]
    exact hopen
  obtain ⟨hspace, -, hfront, hbehind⟩ := borders_of_tidyFrom (by simp) hpass hrun hc
  refine ⟨hspace, ?_, ?_⟩
  · cases hlast : before.getLast? with
    | some b => exact ⟨b, rfl, hfront b (by rw [List.getLast?_append, hlast]; rfl)⟩
    | none =>
      rw [List.getLast?_eq_none_iff] at hlast
      rw [htight.1 c (by rw [heq, hlast]; rfl)] at hc
      cases hc
  · cases after with
    | cons a after => exact ⟨a, rfl, hbehind a rfl⟩
    | nil =>
      rw [htight.2 c (by rw [heq, List.getLast?_concat])] at hc
      cases hc

/-- Normalizing fails when a quote is open, as looking for the quoted spans does. Otherwise its result
has the same quoted spans and, blanks outside of these apart, the same text, and is neat. -/
theorem normalize_changes_blanks (text : List Char) :
    match normalize text with
    | .error e =>
      e = .mismatchedQuotes ∧ OpenQuote text ∧ quotedSpans text = .error .mismatchedQuotes
    | .ok out =>
      ¬OpenQuote text ∧ (∃ spans, quotedSpans text = .ok spans ∧ quotedSpans out = .ok spans) ∧
        unspaced out = unspaced text ∧ Neat out := by
  rw [openQuote_iff]
  cases hnormal : normalize text with
  | error e =>
    obtain ⟨hopen, rfl⟩ := normalize_eq_error.mp hnormal
    rw [normalize, map_eq_error] at hnormal
    exact ⟨rfl, hopen, map_eq_error.mpr hnormal⟩
  | ok out =>
    obtain ⟨hclosed, rfl⟩ := normalize_eq_ok.mp hnormal
    obtain ⟨segments, segments', hcut, hcut', heq⟩ := cut_tidy hclosed
    refine ⟨by simp [hclosed], ⟨_, quotedSpans_eq hcut, ?_⟩, ?_, neat_tidy text⟩
    · rw [quotedSpans_eq hcut', heq]
    · rw [unspaced_eq hcut', unspaced_eq hcut, heq]

/-- The blank behind the first backslash goes away, and the backslash stands in front of the symbol. -/
example :
    let text := "\\ = \"x  \\\"\"\t\t<\u3000(y \"=  \") \\ ".toList
    let out := "\\=\"x  \\\"\"<(y \"=  \") \\".toList
    normalize text = .ok out ∧ quotedSpans out = .ok ["x  \\\"".toList, "=  ".toList] ∧
      unspaced text = "\\=\"x  \\\"\"<(y\"=  \")\\".toList := by
  decide

end Normal

end RowSearch.Query
