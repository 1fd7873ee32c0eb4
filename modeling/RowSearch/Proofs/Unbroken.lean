import RowSearch.Proofs.Parts
/-!
# Tokens hold no blanks

Layout and splitting know all blanks of Unicode and go through the whole query; whether a token is a
word is decided by a scan that starts at the token, knows the blanks of ASCII only, and jumps over the
spans that it finds closed. The two agree. The normal form has no blanks at its top but spaces, and it
is cut at each of these, so a token hides all blanks. In a balanced text every span is closed, so the
scan of a token sees its top and nothing else.
-/

namespace RowSearch.Query

open Text (isBlank isAsciiBlank Blank Tight)
open Zone (top)

/-! ### What layout hides -/

section Layout

variable {p q : Char → Bool}

/-- An escaped blank is dropped for the symbol behind it, which is escaped then. -/
theorem exists_cons_of_dropped {z : Zone} (hquoted : z.quoted = false) {rest : List Char}
    (h : startsComparison (rest.dropWhile isBlank) = true) :
    ∃ d after, tidyFrom z.settle true rest = d :: after ∧
      z.step (Mark.ofChar d) = z.settle.step (Mark.ofChar d) := by
  obtain ⟨d, after, hd⟩ := exists_cons_of_startsComparison h
  rw [hd] at h
  refine ⟨d, _, tidyFrom_of_dropWhile (show z.settle.quoted = false from hquoted) rfl hd, ?_⟩
  rw [(neutral_of_startsComparison h).1, Zone.step_neutral, Zone.step_neutral, Zone.settle_settle]

/-- The normal form hides what the text hides, and if spaces count as hidden, all blanks. -/
theorem hides_tidyFrom (hkeep : ∀ c, isBlank c = false → q c = false → p c = false)
    (hspace : ∀ c, isBlank c = true → q c = false → p ' ' = false) {z : Zone} {glue : Bool}
    (hglue : glue = true → z.escaped = false) {text : List Char} (h : Hides q z text) :
    Hides p z (tidyFrom z glue text) := by
  induction text generalizing z glue with
  | nil => trivial
  | cons c rest ih =>
    obtain ⟨hc, hrest⟩ := h
    cases passes z glue c rest with
    | drop hquoted hblank hdrop =>
      rw [Mark.ofChar_of_isBlank hblank, Zone.step_neutral] at hrest
      have hout : Hides p z.settle (tidyFrom z.settle true rest) := ih (fun _ => rfl) hrest
      rw [tidyFrom_drop hquoted hblank hdrop]
      cases hescaped : z.escaped with
      | false => rwa [Zone.settle_of_not_escaped hescaped] at hout ⊢
      | true =>
        have hstart := hdrop.resolve_left fun hg => Bool.false_ne_true ((hglue hg).symm.trans hescaped)
        obtain ⟨d, after, hd, hstep⟩ := exists_cons_of_dropped hquoted hstart
        rw [hd] at hout ⊢
        refine ⟨fun hz => ?_, hstep ▸ hout.2⟩
        rw [hz] at hescaped
        cases hescaped
    | space hquoted hblank hg hstart =>
      rw [Mark.ofChar_of_isBlank hblank, Zone.step_neutral] at hrest
      rw [hg, tidyFrom_space hquoted hblank hstart]
      refine ⟨fun hz => hspace c hblank (hc hz), ?_⟩
      show Hides p (z.step .neutral) _
      rw [Zone.step_neutral]
      exact ih (fun _ => rfl) hrest
    | keep hkept =>
      rw [tidyFrom_keep hkept]
      refine ⟨fun hz => hkeep c (hkept.resolve_left ?_) (hc hz), ih escaped_step_of_glue hrest⟩
      simp [hz, top]

/-- What stands between blanks and separators hides what the whole text hides. -/
theorem Hides.of_pads {separator text kept : List Char}
    (hseparator : ∀ c ∈ separator, Mark.ofChar c = .neutral) (hpads : Pads separator text kept)
    (h : Hides p top text) : Hides p top kept := by
  obtain ⟨before, after, hbefore, -, rfl⟩ := hpads
  have hrun := Zone.run_eq_of_run? (Zone.run?_neutral (z := top) rfl (hbefore.neutral hseparator))
  obtain ⟨hkept, -⟩ := hides_append.mp h
  rw [hides_append, hrun] at hkept
  exact hkept.2

theorem Hides.trim {text : List Char} (h : Hides p top text) : Hides p top (Text.trim text) :=
  h.of_pads (fun _ hc => (List.not_mem_nil hc).elim) (pads_trim [] text)

/-- Splitting leaves at the top of the segments what the text has there, without the separator. -/
theorem hides_of_scans {separator : Char} (hneutral : Mark.ofChar separator = .neutral)
    (hq : ∀ c, q c = true → p c = true ∨ c = separator) {z : Zone} {text : List Char}
    {segments : List (List Char)} (htext : Hides p z text) (h : Scans [separator] z text segments) :
    ∃ first rest, segments = first :: rest ∧ Hides q z first ∧ ∀ s ∈ rest, Hides q top s := by
  induction h with
  | done => exact ⟨[], [], rfl, trivial, by simp⟩
  | @cut rest segments _ ih =>
    have hrest : Hides p top rest := by
      have hrest := htext.2
      rwa [hneutral, Zone.step_neutral, Zone.settle_of_not_escaped rfl] at hrest
    obtain ⟨first, tail, rfl, hfirst, htail⟩ := ih hrest
    exact ⟨[], _, rfl, trivial, List.forall_mem_cons.mpr ⟨hfirst, htail⟩⟩
  | @keep z z' c rest segments hstep hsep _ ih =>
    obtain ⟨hhead, hrest⟩ := htext
    rw [Zone.step_eq_of_step? hstep] at hrest
    obtain ⟨first, tail, rfl, hfirst, htail⟩ := ih hrest
    rw [← Zone.step_eq_of_step? hstep] at hfirst
    refine ⟨c :: first, tail, rfl, ⟨fun hz => ?_, hfirst⟩, htail⟩
    by_contra hc
    rcases hq c (by simpa using hc) with hp | rfl
    · exact Bool.false_ne_true ((hhead hz).symm.trans hp)
    · exact hsep ⟨hz, hneutral, List.prefix_append [c] rest⟩

end Layout

/-! ### Tokens -/

section Tokens

variable {p q : Char → Bool} {text : List Char} {parts : List (List Char)}

/-- The tokens are the segments of the normal form between its spaces. -/
theorem segments_of_tokens (h : tokens text = .ok parts) :
    (tidy text = [] ∧ parts = [[]]) ∨
      tidy text ≠ [] ∧ ∃ segments, Scans [' '] top (tidy text) segments ∧
        parts = segments.map Text.trim := by
  obtain ⟨-, pieces, hpieces, rfl⟩ := tokens_eq_ok.mp h
  by_cases hnil : tidy text = []
  · refine .inl ⟨hnil, ?_⟩
    have hbody : trimSeparators [' '] [] = [] := by
      obtain ⟨before, after, -, -, heq⟩ := pads_trimSeparators [' '] []
      exact (List.append_eq_nil_iff.mp (List.append_eq_nil_iff.mp heq.symm).1).2
    rw [hnil, splitAt, hbody, if_pos rfl] at hpieces
    cases hpieces
    rfl
  · -- the separator is a blank, and there are no more blanks at the ends
    have htight : Tight (tidy text) := Text.tight_trim _
    have hspace {c : Char} (hc : isBlank c = false) : c ≠ ' ' := by
      rintro rfl
      cases hc
    have hfirst : ∃ c rest, tidy text = c :: rest ∧ isBlank c = false ∧ c ≠ ' ' := by
      obtain ⟨c, rest, hcons⟩ := List.exists_cons_of_ne_nil hnil
      have hc := htight.1 c (by rw [hcons]; rfl)
      exact ⟨c, rest, hcons, hc, hspace hc⟩
    have hlast : ∃ before c, tidy text = before ++ [c] ∧ isBlank c = false ∧ c ≠ ' ' := by
      have hconcat := List.dropLast_append_getLast hnil
      have hc := htight.2 _ (List.getLast?_eq_some_getLast hnil)
      exact ⟨_, _, hconcat.symm, hc, hspace hc⟩
    rw [splitAt, trimSeparators_eq_self hfirst hlast, if_neg hnil, if_neg (List.cons_ne_nil _ _)]
      at hpieces
    obtain ⟨segments, hsegments, rfl⟩ := map_eq_ok.mp hpieces
    have hscans : Scans [' '] top (tidy text) segments :=
      scans_of_segmentsFrom (List.cons_ne_nil _ _) hsegments
    exact .inr ⟨hnil, segments, hscans, if_neg (List.map_eq_nil_iff.not.mpr hscans.ne_nil)⟩

theorem hides_segments (hq : ∀ c, q c = true → p c = true ∨ c = ' ') (hhides : Hides p top text)
    {segments : List (List Char)} (h : Scans [' '] top text segments) :
    ∀ s ∈ segments, Hides q top s := by
  obtain ⟨first, rest, rfl, hfirst, hrest⟩ := hides_of_scans (by decide) hq hhides h
  exact List.forall_mem_cons.mpr ⟨hfirst, hrest⟩

/-- The tokens have at their top what the normal form has there. -/
theorem hides_tokens (hhides : Hides p top (tidy text)) (h : tokens text = .ok parts) :
    ∀ token ∈ parts, Hides p top token := by
  rcases segments_of_tokens h with ⟨-, rfl⟩ | ⟨-, segments, hsegments, rfl⟩
  · simp [Hides]
  · exact List.forall_mem_map.mpr fun s hs =>
      (hides_segments (fun _ => .inl) hhides hsegments s hs).trim

/-- The normal form has no blanks at its top but spaces, and the segments between these have none. -/
theorem hides_blanks_of_segments {segments : List (List Char)}
    (h : Scans [' '] top (tidy text) segments) : ∀ s ∈ segments, Hides isBlank top s := by
  have hnone : Hides (fun _ => false) top text := .of_forall fun _ _ => rfl
  have htidy : Hides (fun c => isBlank c && c != ' ') top (tidy text) :=
    (hides_tidyFrom (fun c hc _ => by rw [hc, Bool.false_and]) (fun _ _ _ => rfl) (fun _ => rfl) hnone).trim
  refine hides_segments (fun c hc => ?_) htidy h
  by_cases heq : c = ' ' <;> simp [hc, heq]

/-- A token has no blanks at its top. -/
theorem hides_of_tokens (h : tokens text = .ok parts) : ∀ token ∈ parts, Hides isBlank top token := by
  rcases segments_of_tokens h with ⟨-, rfl⟩ | ⟨-, segments, hsegments, rfl⟩
  · simp [Hides]
  · exact List.forall_mem_map.mpr fun s hs => (hides_blanks_of_segments hsegments s hs).trim

/-- A text without blanks at its top is one token. -/
theorem tokens_of_hides (hhides : Hides isBlank top text) (h : tokens text = .ok parts) :
    ∃ token, parts = [token] := by
  have htidy : Hides isBlank top (tidy text) :=
    (hides_tidyFrom (fun _ _ hc => hc) (fun c hblank hc => by rw [hblank] at hc; cases hc)
      (fun _ => rfl) hhides).trim
  rcases segments_of_tokens h with ⟨-, rfl⟩ | ⟨-, segments, hsegments, rfl⟩
  · exact ⟨[], rfl⟩
  · obtain ⟨z, hrun, hz⟩ := balanced_tidy.mpr (exists_tokens_iff.mp ⟨_, h⟩)
    have hspaces : Hides (· == ' ') top (tidy text) := htidy.imp fun c hc => by
      rw [eq_of_beq hc]
      rfl
    have hwhole := (Scans.done hz).append_left hrun hspaces
    rw [List.append_nil] at hwhole
    cases hwhole.unique (List.cons_ne_nil _ _) (by decide) hsegments
    exact ⟨_, rfl⟩

end Tokens

/-! ### No token is empty -/

/-- Outside of quotes and groups no blank comes behind a blank, unless one of them is escaped. -/
def Single (z : Zone) : List Char → Prop
  | [] => True
  | c :: rest =>
    (z = top → isBlank c = true → ∀ d, rest.head? = some d → isBlank d = false) ∧
      Single (z.step (Mark.ofChar c)) rest

theorem single_tidyFrom {z : Zone} {glue : Bool} (hglue : glue = true → z.escaped = false)
    (text : List Char) : Single z (tidyFrom z glue text) := by
  induction text generalizing z glue with
  | nil => trivial
  | cons c rest ih =>
    cases passes z glue c rest with
    | drop hquoted hblank hdrop =>
      have hout : Single z.settle (tidyFrom z.settle true rest) := ih fun _ => rfl
      rw [tidyFrom_drop hquoted hblank hdrop]
      cases hescaped : z.escaped with
      | false => rwa [Zone.settle_of_not_escaped hescaped] at hout ⊢
      | true =>
        have hstart := hdrop.resolve_left fun hg => Bool.false_ne_true ((hglue hg).symm.trans hescaped)
        obtain ⟨d, after, hd, hstep⟩ := exists_cons_of_dropped hquoted hstart
        rw [hd] at hout ⊢
        refine ⟨fun hz => ?_, hstep ▸ hout.2⟩
        rw [hz] at hescaped
        cases hescaped
    | space hquoted hblank hg hstart =>
      rw [hg, tidyFrom_space hquoted hblank hstart]
      refine ⟨fun _ _ => head?_tidyFrom (z := z.settle) hquoted rest, ?_⟩
      show Single (z.step .neutral) _
      rw [Zone.step_neutral]
      exact ih fun _ => rfl
    | keep hkept =>
      rw [tidyFrom_keep hkept]
      refine ⟨fun hz hc => ?_, ih escaped_step_of_glue⟩
      simp [hz, top, hc] at hkept

theorem single_append {z : Zone} {x y : List Char} (h : Single z (x ++ y)) :
    Single z x ∧ Single (z.run x) y := by
  induction x generalizing z with
  | nil => exact ⟨trivial, h⟩
  | cons c rest ih =>
    obtain ⟨hc, hrest⟩ := h
    obtain ⟨hx, hy⟩ := ih hrest
    refine ⟨⟨fun hz hblank d hd => hc hz hblank d ?_, hx⟩, hy⟩
    show (rest ++ y).head? = some d
    rw [List.head?_append, hd]
    rfl

theorem single_tidy (text : List Char) : Single top (tidy text) := by
  have h : Single top (tidyFrom top false text) := single_tidyFrom (fun _ => rfl) text
  obtain ⟨before, after, hbefore, -, htrim⟩ := Text.exists_blank_trim (tidyFrom top false text)
  rw [htrim] at h
  have hkept := (single_append (single_append h).1).2
  rwa [run_blank_of_not_escaped hbefore rfl] at hkept

theorem exists_head_of_scans {z : Zone} {c : Char} {text : List Char} {segments : List (List Char)}
    (hc : c ≠ ' ') (h : Scans [' '] z (c :: text) segments) :
    ∃ first rest, segments = (c :: first) :: rest := by
  cases h with
  | cut => exact absurd rfl hc
  | keep _ _ hrest =>
    obtain ⟨first, rest, rfl⟩ := List.exists_cons_of_ne_nil hrest.ne_nil
    exact ⟨first, rest, rfl⟩

/-- Where spaces stand alone and none is last, something stands behind every one of them. -/
theorem ne_nil_of_scans {z : Zone} {text : List Char} (hsingle : Single z text)
    (hlast : ∀ c, text.getLast? = some c → isBlank c = false) {segments : List (List Char)}
    (h : Scans [' '] z text segments) : ∀ s ∈ segments.tail, s ≠ [] := by
  induction h with
  | done => simp
  | @cut rest segments hrest ih =>
    obtain ⟨hfirst, hbehind⟩ := hsingle
    -- the space is not the last character, and the one behind it is no space
    cases rest with
    | nil => cases hlast ' ' rfl
    | cons d rest =>
      have hd : d ≠ ' ' := by
        rintro rfl
        cases hfirst rfl rfl ' ' rfl
      have htails := ih hbehind fun e he => hlast e (by simpa using he)
      obtain ⟨first, more, rfl⟩ := exists_head_of_scans hd hrest
      exact List.forall_mem_cons.mpr ⟨List.cons_ne_nil _ _, htails⟩
  | @keep z z' c rest segments hstep _ hrest ih =>
    obtain ⟨-, hbehind⟩ := hsingle
    rw [Zone.step_eq_of_step? hstep] at hbehind
    have htails := ih hbehind fun d hd => hlast d (by rw [List.getLast?_cons, hd]; rfl)
    obtain ⟨first, more, rfl⟩ := List.exists_cons_of_ne_nil hrest.ne_nil
    exact htails

theorem mem_tidyFrom {c : Char} (hc : isBlank c = false) {text : List Char} (h : c ∈ text) (z : Zone)
    (glue : Bool) : c ∈ tidyFrom z glue text := by
  induction text generalizing z glue with
  | nil => exact h
  | cons d rest ih =>
    rw [tidyFrom]
    rcases List.mem_cons.mp h with rfl | hrest
    · rw [if_neg (by simp [hc])]
      exact List.mem_cons_self
    · split
      · split
        · exact ih hrest _ _
        · exact List.mem_cons_of_mem _ (ih hrest _ _)
      · exact List.mem_cons_of_mem _ (ih hrest _ _)

theorem blank_of_trim {text : List Char} (h : Text.trim text = []) : Blank text := by
  obtain ⟨before, after, hbefore, hafter, htext⟩ := Text.exists_blank_trim text
  rw [htext, h, List.append_nil]
  exact fun c hc => (List.mem_append.mp hc).elim (hbefore c) (hafter c)

theorem blank_of_tidy {text : List Char} (h : tidy text = []) : Blank text := by
  intro c hc
  by_contra hblank
  have hkept := mem_tidyFrom ((Bool.not_eq_true _).mp hblank) hc top false
  exact hblank (blank_of_trim h c hkept)

/-- Only a text of nothing but blanks has an empty token. -/
theorem ne_nil_of_tokens {text : List Char} {parts : List (List Char)} (h : tokens text = .ok parts) :
    (Blank text ∧ parts = [[]]) ∨ ∀ token ∈ parts, token ≠ [] := by
  rcases segments_of_tokens h with ⟨hnil, rfl⟩ | ⟨hne, segments, hsegments, rfl⟩
  · exact .inl ⟨blank_of_tidy hnil, rfl⟩
  · have htight : Tight (tidy text) := Text.tight_trim _
    obtain ⟨c, rest, hcons⟩ := List.exists_cons_of_ne_nil hne
    have hc : c ≠ ' ' := by
      rintro rfl
      cases htight.1 ' ' (by rw [hcons]; rfl)
    have htails := ne_nil_of_scans (single_tidy text) htight.2 hsegments
    have hhides := hides_blanks_of_segments hsegments
    rw [hcons] at hsegments
    obtain ⟨first, others, rfl⟩ := exists_head_of_scans hc hsegments
    have hne : ∀ s ∈ (c :: first) :: others, s ≠ [] :=
      List.forall_mem_cons.mpr ⟨List.cons_ne_nil _ _, htails⟩
    refine .inr (List.forall_mem_map.mpr fun s hs htrim => ?_)
    -- the first character of a segment is at the top, and so it is no blank
    obtain ⟨d, more, rfl⟩ := List.exists_cons_of_ne_nil (hne s hs)
    have hd := blank_of_trim htrim d List.mem_cons_self
    rw [(hhides _ hs).1 rfl] at hd
    cases hd

/-! ### Words -/

namespace Zone

theorem step_eq_top {z : Zone} {m : Mark} (hz : ¬z.Settled) (h : (z.step m).Settled) :
    z.step m = top := by
  obtain ⟨d, q, e⟩ := z
  obtain ⟨hdepth, hquoted⟩ := h
  cases e <;> cases q <;> cases m <;> simp_all [step, top, Settled]

/-- A scan that ends with everything closed comes to the place where it closes what was open. -/
theorem exists_closing? {z z' : Zone} {text : List Char} (hrun : z.run? text = some z')
    (hz : ¬z.Settled) (hz' : z'.Settled) : ∃ n, z.closing? (marks text) = some n := by
  induction text generalizing z with
  | nil =>
    cases hrun
    exact absurd hz' hz
  | cons c rest ih =>
    obtain ⟨next, hstep, hrest⟩ := Option.bind_eq_some_iff.mp hrun
    obtain rfl := step_eq_of_step? hstep
    rw [closing?_cons]
    split
    · exact ⟨0, rfl⟩
    · next hne =>
      obtain ⟨n, hn⟩ := ih hrest fun hsettled => hne (step_eq_top hz hsettled)
      exact ⟨n + 1, by rw [hn]; rfl⟩

theorem closing?_eq_some {z : Zone} {text : List Char} {n : Nat}
    (h : z.closing? (marks text) = some n) :
    ∃ span rest, text = span ++ rest ∧ span.length = n + 1 ∧ z.run span = top := by
  induction text generalizing z n with
  | nil => cases h
  | cons c text ih =>
    rw [closing?_cons] at h
    split at h
    · next hc =>
      cases h
      exact ⟨[c], text, rfl, rfl, hc⟩
    · obtain ⟨k, hk, rfl⟩ := Option.map_eq_some_iff.mp h
      obtain ⟨span, rest, rfl, hlength, hspan⟩ := ih hk
      exact ⟨c :: span, rest, rfl, by rw [List.length_cons, hlength], hspan⟩

end Zone

theorem hasTopBlankFrom_append (span rest : List Char) :
    hasTopBlankFrom span.length (span ++ rest) = hasTopBlankFrom 0 rest := by
  induction span with
  | nil => rfl
  | cons c span ih =>
    rw [List.length_cons, List.cons_append, hasTopBlankFrom]
    exact ih

/-- What the scan for blanks does at the mark that opens a span: it goes on behind the span. -/
theorem exists_behind_span {z z' : Zone} {text : List Char} (hz : ¬z.Settled)
    (hrun : z.run? text = some z') (hz' : z'.Settled) (hhides : Hides isAsciiBlank z text) :
    ∃ span rest, text = span ++ rest ∧
      hasTopBlankFrom ((z.closing? (marks text)).elim 0 (· + 1)) text = hasTopBlankFrom 0 rest ∧
      top.run? rest = some z' ∧ Hides isAsciiBlank top rest := by
  obtain ⟨n, hn⟩ := Zone.exists_closing? hrun hz hz'
  obtain ⟨span, rest, rfl, hlength, hspan⟩ := Zone.closing?_eq_some hn
  rw [Zone.run?_append] at hrun
  obtain ⟨middle, hmiddle, hrest⟩ := Option.bind_eq_some_iff.mp hrun
  obtain rfl : middle = top := (Zone.run_eq_of_run? hmiddle).symm.trans hspan
  have hhides' := (hides_append.mp hhides).2
  rw [hspan] at hhides'
  refine ⟨span, rest, rfl, ?_, hrest, hhides'⟩
  rw [hn, Option.elim, ← hlength, hasTopBlankFrom_append]

/-- The scan of a balanced text for blanks sees the top of the text only. -/
theorem hasTopBlankFrom_of_hides {z : Zone} (hz : z.Settled) {text : List Char}
    (hrun : top.run? text = some z) (hhides : Hides isAsciiBlank top text) :
    hasTopBlankFrom 0 text = false := by
  -- a span is passed over in one step, so the induction is on the length
  induction hlength : text.length using Nat.strong_induction_on generalizing text with
  | _ n ih =>
    subst hlength
    cases text with
    | nil => rfl
    | cons c rest =>
      obtain ⟨hc, hrest⟩ := hhides
      obtain ⟨next, hstep, hrun⟩ := Option.bind_eq_some_iff.mp hrun
      obtain rfl := Zone.step_eq_of_step? hstep
      rw [hasTopBlankFrom]
      cases hmark : Mark.ofChar c with
      | escape =>
        rw [hmark] at hrest hrun
        cases rest with
        | nil => rfl
        | cons d rest =>
          obtain ⟨next, hstep, hrun⟩ := Option.bind_eq_some_iff.mp hrun
          obtain rfl := Zone.step_eq_of_step? hstep
          exact ih _ (by simp only [List.length_cons]; omega) hrun hrest.2 rfl
      | quote =>
        rw [hmark] at hrest hrun
        obtain ⟨span, after, rfl, hscan, hafter, hhides⟩ :=
          exists_behind_span (fun h => absurd h.2 (by decide)) hrun hz hrest
        have hshorter : after.length < (c :: (span ++ after)).length := by
          simp only [List.length_cons, List.length_append]
          omega
        exact hscan.trans (ih _ hshorter hafter hhides rfl)
      | opening =>
        rw [hmark] at hrest hrun
        obtain ⟨span, after, rfl, hscan, hafter, hhides⟩ :=
          exists_behind_span (fun h => absurd h.1 (by decide)) hrun hz hrest
        have hshorter : after.length < (c :: (span ++ after)).length := by
          simp only [List.length_cons, List.length_append]
          omega
        exact hscan.trans (ih _ hshorter hafter hhides rfl)
      | closing =>
        rw [hmark] at hstep
        cases hstep
      | neutral =>
        rw [hmark, Zone.step_neutral] at hrest hrun
        show (isAsciiBlank c || hasTopBlankFrom 0 rest) = false
        rw [hc rfl, Bool.false_or]
        exact ih _ (Nat.lt_succ_self _) hrun hrest rfl

theorem hasTopBlank_of_hides {token : List Char} (hbalanced : Balanced token)
    (hhides : Hides isBlank top token) : hasTopBlank token = false := by
  obtain ⟨z, hrun, hz⟩ := hbalanced
  exact hasTopBlankFrom_of_hides hz hrun (hhides.imp fun _ => Text.isBlank_of_isAsciiBlank)

end RowSearch.Query
