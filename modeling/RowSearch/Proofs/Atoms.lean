import RowSearch.Proofs.Unbroken
/-!
# Cutting between atoms

What a separator may not cut through is an atom: a backslash with the character behind it, a quoted
span, a group, or one character of no meaning. A text that splitting accepts is a row of atoms, and
it is cut where the separator stands between two of them, always at the first such place.

A run from the top is at the top again just behind the atoms, so the two descriptions come to the same:
the scan tests for the separator where a row of atoms has ended, and nowhere else.
-/

namespace RowSearch.Query

open Zone (top)

inductive Atoms : List Char → Prop
  | nil : Atoms []
  | escape (c : Char) {rest : List Char} : Atoms rest → Atoms ('\\' :: c :: rest)
  | quoted {body rest : List Char} :
    QuoteBody body → Atoms rest → Atoms ('"' :: (body ++ '"' :: rest))
  | group {body rest : List Char} :
    Atoms body → Atoms rest → Atoms ('(' :: (body ++ ')' :: rest))
  | plain {c : Char} {rest : List Char} :
    c ≠ '\\' → c ≠ '"' → c ≠ '(' → c ≠ ')' → Atoms rest → Atoms (c :: rest)

/-- A row of atoms, the last of which may be a single backslash. -/
def Whole (text : List Char) : Prop :=
  Atoms text ∨ ∃ before, text = before ++ ['\\'] ∧ Atoms before

/-- In a segment with text behind it the separator starts nowhere between two atoms. What starts within
the segment may end behind it. -/
def Clear (separator segment behind : List Char) : Prop :=
  ∀ before after, segment = before ++ after → after ≠ [] → Atoms before →
    ¬separator <+: after ++ behind

/-- The segments of a text that is cut wherever the separator stands between two atoms, from left to
right. -/
inductive Parted (separator : List Char) : List Char → List (List Char) → Prop
  | last {segment : List Char} :
    Whole segment → Clear separator segment [] → Parted separator segment [segment]
  | next {segment rest : List Char} {segments : List (List Char)} :
    Atoms segment → Clear separator segment (separator ++ rest) → Parted separator rest segments →
      Parted separator (segment ++ (separator ++ rest)) (segment :: segments)

theorem Parted.ne_nil {separator text : List Char} {segments : List (List Char)}
    (h : Parted separator text segments) : segments ≠ [] := by
  cases h <;> exact List.cons_ne_nil _ _

/-! ### Atoms and runs -/

theorem Atoms.run? {text : List Char} (h : Atoms text) : top.run? text = some top := by
  induction h with
  | nil => rfl
  | escape c _ ih => rw [Zone.run?_escape rfl, ih]
  | @quoted body rest hbody _ ih =>
    have hopen : top.step? (Mark.ofChar '"') = some ⟨0, true, false⟩ := rfl
    rw [Zone.run?_cons, hopen, Option.bind_some, Zone.run?_append, Zone.run?_quoteBody hbody]
    exact ih
  | @group body rest _ _ ihbody ihrest =>
    have hopen : top.step? (Mark.ofChar '(') = some top.deeper := rfl
    rw [Zone.run?_cons, hopen, Option.bind_some, Zone.run?_append, Zone.run?_deeper ihbody]
    exact ihrest
  | plain hescape hquote hopening hclosing _ ih =>
    have hneutral := Mark.ofChar_eq_neutral.mpr ⟨hescape, hquote, hopening, hclosing⟩
    rw [Zone.run?_cons, hneutral, Zone.step?_neutral]
    exact ih

theorem atoms_of_run? {text : List Char} (h : top.run? text = some top) : Atoms text := by
  -- an atom may be long, and the atoms within a group count as well
  induction hlength : text.length using Nat.strong_induction_on generalizing text with
  | _ n ih =>
    subst hlength
    cases text with
    | nil => exact .nil
    | cons c rest =>
      cases hc : Mark.ofChar c with
      | escape =>
        rw [Mark.ofChar_eq_escape] at hc
        subst hc
        cases rest with
        | nil => cases h
        | cons d rest =>
          rw [Zone.run?_escape rfl] at h
          exact .escape d (ih rest.length (by rw [List.length_cons, List.length_cons]; omega) h rfl)
      | quote =>
        rw [Mark.ofChar_eq_quote] at hc
        subst hc
        have hrun : (⟨0, true, false⟩ : Zone).run? rest = some top := h
        obtain ⟨n, hn⟩ := Zone.exists_closing? hrun (by simp [Zone.Settled]) ⟨rfl, rfl⟩
        obtain ⟨body, tail, rfl, -, hbody⟩ := quoteLength?_eq_some.mp hn
        rw [Zone.run?_append, Zone.run?_quoteBody hbody] at hrun
        have hlt : tail.length < ('"' :: (body ++ '"' :: tail)).length := by
          simp only [List.length_cons, List.length_append]
          omega
        exact .quoted hbody (ih tail.length hlt hrun rfl)
      | opening =>
        rw [Mark.ofChar_eq_opening] at hc
        subst hc
        have hrun : top.deeper.run? rest = some top := h
        obtain ⟨n, hn⟩ := Zone.exists_closing? hrun (by simp [Zone.Settled, Zone.deeper]) ⟨rfl, rfl⟩
        obtain ⟨body, tail, rfl, -, hbody⟩ := Zone.closing?_deeper.mp hn
        rw [Zone.run?_append, Zone.run?_deeper hbody] at hrun
        have hlength : ('(' :: (body ++ ')' :: tail)).length = body.length + tail.length + 2 := by
          simp only [List.length_cons, List.length_append]
          omega
        rw [hlength] at ih
        apply Atoms.group
        · exact ih body.length (by omega) hbody rfl
        · exact ih tail.length (by omega) hrun rfl
      | closing =>
        rw [Zone.run?_cons, hc] at h
        cases h
      | neutral =>
        rw [Zone.run?_cons, hc, Zone.step?_neutral] at h
        obtain ⟨hescape, hquote, hopening, hclosing⟩ := Mark.ofChar_eq_neutral.mp hc
        exact .plain hescape hquote hopening hclosing (ih rest.length (by simp) h rfl)

theorem atoms_iff {text : List Char} : Atoms text ↔ top.run? text = some top :=
  ⟨Atoms.run?, atoms_of_run?⟩

/-- Only a backslash that is not escaped itself leaves the next character escaped. -/
theorem Zone.eq_of_step?_escaped {z : Zone} {m : Mark} {d : Nat} {q : Bool}
    (h : z.step? m = some ⟨d, q, true⟩) : m = .escape ∧ z = ⟨d, q, false⟩ := by
  have hstep := Zone.step_eq_of_step? h
  obtain ⟨d', q', e⟩ := z
  cases e with
  | true => cases hstep
  | false => cases m <;> cases q' <;> cases hstep <;> exact ⟨rfl, rfl⟩

theorem whole_iff {text : List Char} : Whole text ↔ Balanced text := by
  constructor
  · rintro (h | ⟨before, rfl, h⟩)
    · exact balanced_of_run? h.run?
    · refine ⟨⟨0, false, true⟩, ?_, rfl, rfl⟩
      rw [Zone.run?_append, h.run?]
      rfl
  · rintro ⟨⟨d, q, e⟩, hrun, hd, hq⟩
    cases hd
    cases hq
    cases e with
    | false => exact .inl (atoms_of_run? hrun)
    | true =>
      rcases List.eq_nil_or_concat text with rfl | ⟨before, c, rfl⟩
      · cases hrun
      · rw [List.concat_eq_append, Zone.run?_append] at hrun
        obtain ⟨z, hbefore, hlast⟩ := Option.bind_eq_some_iff.mp hrun
        obtain ⟨z', hstep, hz'⟩ := Option.bind_eq_some_iff.mp hlast
        cases hz'
        obtain ⟨hc, rfl⟩ := Zone.eq_of_step?_escaped hstep
        rw [Mark.ofChar_eq_escape] at hc
        subst hc
        exact .inr ⟨before, List.concat_eq_append, atoms_of_run? hbefore⟩

/-! ### The scan -/

theorem clear_iff {separator segment behind : List Char} :
    Clear separator segment behind ↔ ClearFrom separator top segment behind := by
  simp only [Clear, ClearFrom, atoms_iff]

section Scan

variable {separator : List Char} {z : Zone}

theorem Parted.scans {text : List Char} {segments : List (List Char)}
    (h : Parted separator text segments) : Scans separator top text segments := by
  induction h with
  | @last segment hwhole hclear =>
    obtain ⟨z, hrun, hz⟩ := whole_iff.mp hwhole
    have hscans := (Scans.done hz).through hrun (clear_iff.mp hclear)
    rwa [List.append_nil] at hscans
  | @next segment rest segments hatoms hclear _ ih =>
    have hscans := ih.cut.through hatoms.run? (clear_iff.mp hclear)
    rwa [List.append_nil] at hscans

/-- How a text that starts in a zone is parted: up to its end, or up to a separator at the top. -/
inductive PartedFrom (separator : List Char) (z : Zone) : List Char → List (List Char) → Prop
  | last {z' : Zone} {segment : List Char} : z.run? segment = some z' → z'.Settled →
    ClearFrom separator z segment [] → PartedFrom separator z segment [segment]
  | next {segment rest : List Char} {segments : List (List Char)} : z.run? segment = some top →
    ClearFrom separator z segment (separator ++ rest) → Parted separator rest segments →
      PartedFrom separator z (segment ++ (separator ++ rest)) (segment :: segments)

theorem PartedFrom.parted {text : List Char} {segments : List (List Char)}
    (h : PartedFrom separator top text segments) : Parted separator text segments := by
  cases h with
  | last hrun hz hclear => exact .last (whole_iff.mpr ⟨_, hrun, hz⟩) (clear_iff.mpr hclear)
  | next hrun hclear hrest => exact .next (atoms_of_run? hrun) (clear_iff.mpr hclear) hrest

theorem PartedFrom.cons {z' : Zone} {c : Char} {text : List Char} {segments : List (List Char)}
    (hstep : z.step? (Mark.ofChar c) = some z') (hhead : z = top → ¬separator <+: c :: text)
    (h : PartedFrom separator z' text segments) :
    PartedFrom separator z (c :: text) (extendHead c segments) := by
  have hrun (segment : List Char) : z.run? (c :: segment) = z'.run? segment := by
    rw [Zone.run?_cons, hstep, Option.bind_some]
  cases h with
  | last hsegment hz hclear =>
    refine .last ((hrun _).trans hsegment) hz ((clearFrom_cons hstep).mpr ⟨?_, hclear⟩)
    rwa [List.append_nil]
  | @next segment _ _ hsegment hclear hrest =>
    exact .next ((hrun segment).trans hsegment) ((clearFrom_cons hstep).mpr ⟨hhead, hclear⟩) hrest

theorem Scans.partedFrom (hne : separator ≠ [])
    (hseparator : ∀ c ∈ separator, Mark.ofChar c = .neutral) {text : List Char}
    {segments : List (List Char)} (h : Scans separator z text segments) :
    PartedFrom separator z text segments := by
  induction h with
  | done hz => exact .last rfl hz (.nil [])
  | cut _ ih => exact .next rfl (.nil _) ih.parted
  | @keep z z' c rest segments hstep hsep _ ih =>
    refine .cons hstep (fun hz hprefix => hsep ⟨hz, ?_, hprefix⟩) ih
    -- the separator starts here, and it has no marks
    obtain ⟨d, tail, rfl⟩ := List.exists_cons_of_ne_nil hne
    obtain rfl : d = c := (List.cons_prefix_cons.mp hprefix).1
    exact hseparator d List.mem_cons_self

theorem segmentsFrom_eq_ok (hne : separator ≠ [])
    (hseparator : ∀ c ∈ separator, Mark.ofChar c = .neutral) {text : List Char}
    {segments : List (List Char)} :
    segmentsFrom separator top 0 text = .ok segments ↔ Parted separator text segments := by
  rw [segmentsFrom_eq_ok_iff hne hseparator]
  exact ⟨fun h => (h.partedFrom hne hseparator).parted, Parted.scans⟩

end Scan

/-! ### Splitting -/

/-- Splitting succeeds on texts that are rows of atoms once blanks and separators at the ends are gone.
There are no segments when nothing is left; otherwise what is left is cut wherever the separator stands
between two atoms, and the segments are trimmed. -/
theorem splitAt_parts (separator text : List Char) (hne : separator ≠ [])
    (hplain : ∀ c ∈ separator, c ≠ '\\' ∧ c ≠ '"' ∧ c ≠ '(' ∧ c ≠ ')') :
    ((∃ out, splitAt separator text = .ok out) ↔ Whole (trimSeparators separator text)) ∧
      (splitAt separator text = .ok [] ↔ trimSeparators separator text = []) ∧
      ∀ out, splitAt separator text = .ok out ↔
        trimSeparators separator text = [] ∧ out = [] ∨
          trimSeparators separator text ≠ [] ∧ ∃ segments,
            Parted separator (trimSeparators separator text) segments ∧
              out = segments.map Text.trim := by
  have hneutral : ∀ c ∈ separator, Mark.ofChar c = .neutral :=
    fun c hc => Mark.ofChar_eq_neutral.mpr (hplain c hc)
  have hsplit (out : List (List Char)) : splitAt separator text = .ok out ↔
      trimSeparators separator text = [] ∧ out = [] ∨
        trimSeparators separator text ≠ [] ∧ ∃ segments,
          Parted separator (trimSeparators separator text) segments ∧
            out = segments.map Text.trim := by
    rw [splitAt]
    by_cases hnil : trimSeparators separator text = []
    · simp [hnil, eq_comm]
    · rw [if_neg hnil, if_neg hne, map_eq_ok]
      simp [hnil, segmentsFrom_eq_ok hne hneutral, eq_comm]
  refine ⟨?_, ?_, hsplit⟩
  · rw [exists_splitAt_iff hne hneutral, whole_iff]
    exact (pads_trimSeparators separator text).balanced hneutral
  · rw [hsplit]
    constructor
    · rintro (⟨hnil, -⟩ | ⟨-, segments, hparted, hout⟩)
      · exact hnil
      · exact absurd (List.map_eq_nil_iff.mp hout.symm) hparted.ne_nil
    · exact fun hnil => .inl ⟨hnil, rfl⟩

/-- A separator of two characters within a group, within quotes, behind a backslash and three times in a
row: of the row the first two are the separator. -/
theorem splitAt_parts_of_colons :
    let separator := "::".toList
    let text := " x::(a::b)\\::\"::\":::y :: ".toList
    let out := ["x".toList, "(a::b)\\::\"::\"".toList, ":y".toList]
    separator ≠ [] ∧ (∀ c ∈ separator, c ≠ '\\' ∧ c ≠ '"' ∧ c ≠ '(' ∧ c ≠ ')') ∧
      splitAt separator text = .ok out ∧ Whole (trimSeparators separator text) ∧
        ∃ segments, Parted separator (trimSeparators separator text) segments ∧
          out = segments.map Text.trim := by
  intro separator text out
  have hne : separator ≠ [] := by decide
  have hplain : ∀ c ∈ separator, c ≠ '\\' ∧ c ≠ '"' ∧ c ≠ '(' ∧ c ≠ ')' := by decide
  have hsplit : splitAt separator text = .ok out := by decide +kernel
  obtain ⟨hwhole, -, hparts⟩ := splitAt_parts separator text hne hplain
  refine ⟨hne, hplain, hsplit, hwhole.mp ⟨out, hsplit⟩, ?_⟩
  rcases (hparts out).mp hsplit with ⟨-, hnil⟩ | ⟨-, hparted⟩
  · exact absurd hnil (List.cons_ne_nil _ _)
  · exact hparted

end RowSearch.Query
