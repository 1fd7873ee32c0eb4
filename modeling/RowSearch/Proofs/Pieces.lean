import RowSearch.Proofs.Bytes
import RowSearch.Proofs.Parts
/-!
# The pieces of a text

What a scan at the top of a text passes over in one step: a character behind a backslash, a span from its
opening mark up to the mark that ends it, a plain character. In a span nothing is at the top, and its end is
found by the search over bytes. Where no end is found nothing is at the top up to the end of the text.

The scans over bytes that are made of such steps are compared with scans over characters by induction on
these pieces.
-/

namespace RowSearch.Query

open Zone (top inQuote inGroup)

/-! ### The ends of spans -/

section Spans

variable {text before body after rest : List Char}

theorem endFrom?_of_quoteBody (htext : text = before ++ '"' :: (body ++ '"' :: after))
    (hbody : QuoteBody body) :
    endFrom? .inQuote text (byteLength before + 1) = some (byteLength (before ++ '"' :: body)) :=
  endFrom?_of_closing rfl (by decide) htext (quoteLength?_append hbody after)

theorem endFrom?_of_unclosed_quote (htext : text = before ++ '"' :: rest) (h : quoteLength? rest = none) :
    endFrom? .inQuote text (byteLength before + 1) = none :=
  endFrom?_of_unclosed rfl (by decide) htext h

/-- Up to the mark that brings it to the top a text shows nothing. -/
theorem hides_of_closing? {p : Char → Bool} {z : Zone} {d : Char} (hne : z ≠ top)
    (h : z.closing? (marks (body ++ d :: after)) = some body.length) : Hides p z (body ++ [d]) := by
  induction body generalizing z with
  | nil => exact ⟨fun hz => absurd hz hne, trivial⟩
  | cons c body ih =>
    rw [List.cons_append, Zone.closing?_cons] at h
    split at h
    · cases h
    · next hstep =>
      obtain ⟨n, hn, hlength⟩ := Option.map_eq_some_iff.mp h
      cases hlength
      exact ⟨fun hz => absurd hz hne, ih hstep hn⟩

/-- A text that never comes to the top shows nothing. -/
theorem hides_of_unclosed {p : Char → Bool} {z : Zone} (hne : z ≠ top)
    (h : z.closing? (marks rest) = none) : Hides p z rest := by
  induction rest generalizing z with
  | nil => trivial
  | cons c rest ih =>
    rw [Zone.closing?_cons] at h
    split at h
    · cases h
    · next hstep => exact ⟨fun hz => absurd hz hne, ih hstep (Option.map_eq_none_iff.mp h)⟩

/-- The zones behind a quote and behind an opening parenthesis are no places for a search to end. -/
theorem Zone.of_opens {z : Zone} (hz : z = inQuote ∨ z = inGroup) : z.escaped = false ∧ z ≠ top := by
  rcases hz with rfl | rfl <;> decide

/-- A search within a quote or a group ends at a mark of one byte, and there the scan is at the top. -/
theorem exists_of_closing? {z : Zone} (hz : z = inQuote ∨ z = inGroup) {n : Nat}
    (h : z.closing? (marks rest) = some n) :
    ∃ body d after, rest = body ++ d :: after ∧ n = body.length ∧ d.utf8Size = 1 ∧
      z.run (body ++ [d]) = top := by
  rcases hz with rfl | rfl
  · obtain ⟨body, after, rfl, rfl, hbody⟩ := quoteLength?_eq_some.mp h
    refine ⟨body, '"', after, rfl, rfl, rfl, ?_⟩
    rw [Zone.run_append, inQuote, Zone.run_eq_of_run? (Zone.run?_quoteBody hbody)]
    rfl
  · obtain ⟨body, after, rfl, rfl, hbody⟩ := groupLength?_eq_some.mp h
    refine ⟨body, ')', after, rfl, rfl, rfl, ?_⟩
    have hrun : inGroup.run body = inGroup := Zone.run_eq_of_run? (Zone.run?_deeper hbody)
    rw [Zone.run_append, hrun]
    rfl

/-! ### Opening marks -/

/-- A character that opens a span at the top, with the zone behind it. -/
structure Opens (c : Char) (z : Zone) : Prop where
  step : top.step (Mark.ofChar c) = z
  zone : z = inQuote ∨ z = inGroup

/-- A text behind an opening mark up to the end of the span, with a text behind it. -/
structure Closes (z : Zone) (inner after : List Char) : Prop where
  last : ∃ body d, inner = body ++ [d] ∧ d.utf8Size = 1 ∧
    z.closing? (marks (inner ++ after)) = some body.length
  run : z.run inner = top

section Opens

variable {z : Zone} {c : Char} {inner : List Char}

theorem Opens.mark (h : Opens c z) : Mark.ofChar c = .quote ∨ Mark.ofChar c = .opening := by
  obtain ⟨rfl, hz⟩ := h
  cases hc : Mark.ofChar c with
  | quote => exact .inl rfl
  | opening => exact .inr rfl
  | escape | closing | neutral => rw [hc] at hz; rcases hz with hz | hz <;> cases hz

theorem Opens.ne_neutral (h : Opens c z) : Mark.ofChar c ≠ .neutral := by
  rcases h.mark with hc | hc <;> rw [hc] <;> decide

theorem Opens.ne_closing (h : Opens c z) : Mark.ofChar c ≠ .closing := by
  rcases h.mark with hc | hc <;> rw [hc] <;> decide

theorem Opens.not_comparing (h : Opens c z) : comparing c = false := by
  rcases h.mark with hc | hc
  · rw [Mark.ofChar_eq_quote.mp hc]
    rfl
  · rw [Mark.ofChar_eq_opening.mp hc]
    rfl

theorem Opens.ne_top (h : Opens c z) : z ≠ top :=
  (Zone.of_opens h.zone).2

theorem Opens.exists_closes {n : Nat} (h : Opens c z) (hclosing : z.closing? (marks rest) = some n) :
    ∃ inner after, rest = inner ++ after ∧ Closes z inner after := by
  obtain ⟨body, d, after, rfl, rfl, hd, hrun⟩ := exists_of_closing? h.zone hclosing
  rw [List.append_cons] at hclosing
  exact ⟨body ++ [d], after, List.append_cons .., ⟨body, d, rfl, hd, hclosing⟩, hrun⟩

theorem Opens.endFrom?_eq_none (h : Opens c z) (htext : text = before ++ c :: rest)
    (hunclosed : z.closing? (marks rest) = none) : endFrom? z text (byteLength before + 1) = none :=
  endFrom?_of_unclosed (Zone.of_opens h.zone).1 h.ne_top htext hunclosed

/-- The search from an opening mark on finds the last byte of the span. -/
theorem Opens.exists_endFrom? (h : Opens c z) (hspan : Closes z inner after)
    (htext : text = before ++ c :: (inner ++ after)) :
    ∃ e, endFrom? z text (byteLength before + 1) = some e ∧ e + 1 = byteLength (before ++ c :: inner) := by
  obtain ⟨body, d, rfl, hd, hclosing⟩ := hspan.last
  rw [← List.append_cons] at htext hclosing
  refine ⟨_, endFrom?_of_closing (Zone.of_opens h.zone).1 h.ne_top htext hclosing, ?_⟩
  simp [hd, Nat.add_assoc]

theorem Closes.hides {p : Char → Bool} (hne : z ≠ top) (hspan : Closes z inner after) : Hides p z inner := by
  obtain ⟨body, d, rfl, -, hclosing⟩ := hspan.last
  rw [← List.append_cons] at hclosing
  exact hides_of_closing? hne hclosing

end Opens

/-! ### Reading a text piece by piece -/

/-- Induction on a text along what a scan at the top passes over in one step. A plain character may start
a longer piece, so there every shorter text is at hand. -/
@[elab_as_elim]
theorem pieces_induction {motive : List Char → Prop} (nil : motive []) (dangling : motive ['\\'])
    (escape : ∀ d rest, motive rest → motive ('\\' :: d :: rest))
    (unclosed : ∀ c z rest, Opens c z → z.closing? (marks rest) = none → motive (c :: rest))
    (span : ∀ c z inner after, Opens c z → Closes z inner after → motive after →
      motive (c :: (inner ++ after)))
    (closing : ∀ rest, motive rest → motive (')' :: rest))
    (neutral : ∀ c rest, Mark.ofChar c = .neutral → (∀ rest', rest'.length ≤ rest.length → motive rest') →
      motive (c :: rest)) (text : List Char) : motive text := by
  induction hlength : text.length using Nat.strong_induction_on generalizing text with
  | _ n ih =>
    subst hlength
    cases text with
    | nil => exact nil
    | cons c rest =>
      have hshorter (rest' : List Char) (hle : rest'.length ≤ rest.length) : motive rest' :=
        ih _ (Nat.lt_succ_of_le hle) _ rfl
      have hopens {z : Zone} (h : Opens c z) : motive (c :: rest) := by
        cases hclosing : z.closing? (marks rest) with
        | none => exact unclosed c z rest h hclosing
        | some n =>
          obtain ⟨inner, after, rfl, hspan⟩ := h.exists_closes hclosing
          exact span c z inner after h hspan (hshorter after (by simp))
      cases hc : Mark.ofChar c with
      | escape =>
        cases Mark.ofChar_eq_escape.mp hc
        cases rest with
        | nil => exact dangling
        | cons d rest => exact escape d rest (hshorter rest (Nat.le_succ _))
      | quote => exact hopens ⟨congrArg _ hc, .inl rfl⟩
      | opening => exact hopens ⟨congrArg _ hc, .inr rfl⟩
      | closing =>
        cases Mark.ofChar_eq_closing.mp hc
        exact closing rest (hshorter rest (Nat.le_refl _))
      | neutral => exact neutral c rest hc hshorter

end Spans

end RowSearch.Query
