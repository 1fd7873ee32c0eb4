import RowSearch.Proofs.Outcome
import RowSearch.Query.Segment
import RowSearch.Query.Zone
import RowSearch.Text.Blank
/-!
# Runs of zones

All scanners of a query are runs of `Zone.step`. What the proofs know of such a run is collected here:
it can be cut in two at any place, it does not see the characters that mean nothing to it, and the
place where it first comes back to the top is the end of a quoted span or of a group, said without the
scanner. `run?` is the run that stops at a parenthesis that closes nothing; a text is balanced when
that run comes to its end with all quotes and groups closed.
-/

namespace RowSearch.Query

/-- Whether all characters of a text have a property is decided by going through the text, and not
through all characters that there are. -/
instance (priority := 2000) decidableForallMem (p : Char → Prop) [DecidablePred p]
    (text : List Char) : Decidable (∀ c ∈ text, p c) :=
  List.decidableBAll p text

/-! ### Marks -/

namespace Mark

@[simp] theorem ofChar_eq_escape {c : Char} : ofChar c = .escape ↔ c = '\\' := by
  unfold ofChar
  grind

@[simp] theorem ofChar_eq_quote {c : Char} : ofChar c = .quote ↔ c = '"' := by
  unfold ofChar
  grind

@[simp] theorem ofChar_eq_opening {c : Char} : ofChar c = .opening ↔ c = '(' := by
  unfold ofChar
  grind

@[simp] theorem ofChar_eq_closing {c : Char} : ofChar c = .closing ↔ c = ')' := by
  unfold ofChar
  grind

theorem ofChar_eq_neutral {c : Char} :
    ofChar c = .neutral ↔ c ≠ '\\' ∧ c ≠ '"' ∧ c ≠ '(' ∧ c ≠ ')' := by
  unfold ofChar
  grind

theorem ofChar_of_isBlank {c : Char} (h : Text.isBlank c = true) : ofChar c = .neutral := by
  rw [ofChar_eq_neutral]
  refine ⟨?_, ?_, ?_, ?_⟩ <;> rintro rfl <;> exact absurd h (by decide)

end Mark

namespace Zone

/-! ### Runs -/

def run (z : Zone) (text : List Char) : Zone :=
  (marks text).foldl step z

@[simp] theorem run_nil (z : Zone) : z.run [] = z := rfl

@[simp] theorem run_cons (z : Zone) (c : Char) (rest : List Char) :
    z.run (c :: rest) = (z.step (Mark.ofChar c)).run rest := rfl

theorem run_append (z : Zone) (a b : List Char) : z.run (a ++ b) = (z.run a).run b := by
  simp only [run, marks, List.map_append, List.foldl_append]

/-- The zone behind a mark, unless the mark closes a group that was not opened. -/
def step? (z : Zone) (m : Mark) : Option Zone :=
  if z = top ∧ m = .closing then none else some (z.step m)

def run? (z : Zone) : List Char → Option Zone
  | [] => some z
  | c :: rest => (z.step? (Mark.ofChar c)).bind (·.run? rest)

@[simp] theorem run?_nil (z : Zone) : z.run? [] = some z := rfl

theorem run?_cons (z : Zone) (c : Char) (rest : List Char) :
    z.run? (c :: rest) = (z.step? (Mark.ofChar c)).bind (·.run? rest) := rfl

theorem run?_append (z : Zone) (a b : List Char) :
    z.run? (a ++ b) = (z.run? a).bind (·.run? b) := by
  induction a generalizing z with
  | nil => rfl
  | cons c rest ih =>
    rw [List.cons_append, run?_cons, run?_cons]
    cases z.step? (Mark.ofChar c) with
    | none => rfl
    | some z' => exact ih z'

theorem step_eq_of_step? {z z' : Zone} {m : Mark} (h : z.step? m = some z') : z.step m = z' := by
  unfold step? at h
  split at h
  · cases h
  · exact Option.some.inj h

theorem run_eq_of_run? {z z' : Zone} {text : List Char} (h : z.run? text = some z') :
    z.run text = z' := by
  induction text generalizing z with
  | nil => exact Option.some.inj h
  | cons c rest ih =>
    obtain ⟨next, hstep, hrest⟩ := Option.bind_eq_some_iff.mp h
    rw [run_cons, step_eq_of_step? hstep]
    exact ih hrest

/-! ### Marks without effect -/

/-- The zone with the last backslash taken back. -/
def settle (z : Zone) : Zone :=
  { z with escaped := false }

@[simp] theorem settle_quoted (z : Zone) : z.settle.quoted = z.quoted := rfl

@[simp] theorem settle_escaped (z : Zone) : z.settle.escaped = false := rfl

@[simp] theorem settle_settle (z : Zone) : z.settle.settle = z.settle := rfl

theorem settle_of_not_escaped {z : Zone} (h : z.escaped = false) : z.settle = z := by
  obtain ⟨d, q, e⟩ := z
  cases h
  rfl

@[simp] theorem step_neutral (z : Zone) : z.step .neutral = z.settle := by
  obtain ⟨d, q, e⟩ := z
  cases e <;> rfl

@[simp] theorem step?_neutral (z : Zone) : z.step? .neutral = some z.settle := by
  rw [step?, if_neg (by simp), step_neutral]

theorem step?_of_ne_closing {z : Zone} {m : Mark} (h : m ≠ .closing) :
    z.step? m = some (z.step m) :=
  if_neg fun hz => h hz.2

theorem step?_of_ne_top {z : Zone} {m : Mark} (h : z ≠ top) : z.step? m = some (z.step m) :=
  if_neg fun hz => h hz.1

theorem run?_neutral {z : Zone} {text : List Char} (hz : z.escaped = false)
    (h : ∀ c ∈ text, Mark.ofChar c = .neutral) : z.run? text = some z := by
  induction text with
  | nil => rfl
  | cons c rest ih =>
    rw [run?_cons, h c List.mem_cons_self, step?_neutral, settle_of_not_escaped hz]
    exact ih fun d hd => h d (List.mem_cons_of_mem _ hd)

theorem run?_escape {z : Zone} (hz : z.escaped = false) (c : Char) (rest : List Char) :
    z.run? ('\\' :: c :: rest) = z.run? rest := by
  obtain ⟨d, q, e⟩ := z
  cases hz
  rw [run?_cons, step?_of_ne_closing (by decide), Option.bind_some, run?_cons, step?_of_ne_top]
  · rfl
  · exact fun h => nomatch congrArg escaped h

theorem run_escape {z : Zone} (hz : z.escaped = false) (c : Char) (rest : List Char) :
    z.run ('\\' :: c :: rest) = z.run rest := by
  obtain ⟨d, q, e⟩ := z
  cases hz
  rfl

/-- Whether a quote is open behind a mark, and whether a backslash comes last, does not depend on the
parentheses. -/
theorem exists_step_depth (z : Zone) (d : Nat) (m : Mark) :
    ∃ d', ({ z with depth := d } : Zone).step m = { z.step m with depth := d' } := by
  obtain ⟨_, q, e⟩ := z
  cases e <;> cases m <;> cases q <;> exact ⟨_, rfl⟩

/-! ### One level deeper -/

def deeper (z : Zone) : Zone :=
  { z with depth := z.depth + 1 }

theorem deeper_ne_top (z : Zone) : z.deeper ≠ top := by
  intro h
  exact absurd (congrArg depth h) (Nat.succ_ne_zero _)

theorem step_deeper {z z' : Zone} {m : Mark} (h : z.step? m = some z') :
    z.deeper.step m = z'.deeper := by
  obtain ⟨d, q, e⟩ := z
  rw [← step_eq_of_step? h]
  cases e with
  | true => rfl
  | false =>
    cases m with
    | escape => rfl
    | quote => rfl
    | opening => cases q <;> rfl
    | closing =>
      cases q with
      | true => rfl
      | false =>
        -- without an open group the run would have stopped here
        cases d with
        | zero => cases h
        | succ d => rfl
    | neutral => rfl

theorem run?_deeper {z z' : Zone} {text : List Char} (h : z.run? text = some z') :
    z.deeper.run? text = some z'.deeper := by
  induction text generalizing z with
  | nil => rw [run?_nil, Option.some.inj h]
  | cons c rest ih =>
    obtain ⟨next, hstep, hrest⟩ := Option.bind_eq_some_iff.mp h
    rw [run?_cons, step?_of_ne_top (deeper_ne_top z), step_deeper hstep]
    exact ih hrest

theorem closing?_cons (z : Zone) (c : Char) (rest : List Char) :
    z.closing? (marks (c :: rest)) =
      if z.step (Mark.ofChar c) = top then some 0
      else ((z.step (Mark.ofChar c)).closing? (marks rest)).map (· + 1) := rfl

/-- From inside of a group the top is reached at the parenthesis that closes the group: up to there
the run one level higher comes back to where the group started. -/
theorem closing?_deeper {z : Zone} {text : List Char} {n : Nat} :
    z.deeper.closing? (marks text) = some n ↔
      ∃ body rest, text = body ++ ')' :: rest ∧ body.length = n ∧ z.run? body = some top := by
  induction text generalizing z n with
  | nil =>
    constructor
    · intro h
      cases h
    · intro h
      obtain ⟨body, rest, htext, -⟩ := h
      cases body <;> cases htext
  | cons c text ih =>
    rw [closing?_cons]
    by_cases hend : z = top ∧ Mark.ofChar c = .closing
    · obtain ⟨rfl, hc⟩ := hend
      rw [hc, if_pos (by decide)]
      rw [Mark.ofChar_eq_closing] at hc
      subst hc
      constructor
      · intro h
        exact ⟨[], text, rfl, Option.some.inj h, rfl⟩
      · intro h
        obtain ⟨body, rest, htext, rfl, hrun⟩ := h
        cases body with
        | nil => rfl
        | cons d body =>
          obtain ⟨rfl, -⟩ := List.cons.inj htext
          cases hrun
    · have hstep : z.step? (Mark.ofChar c) = some (z.step (Mark.ofChar c)) := if_neg hend
      rw [step_deeper hstep, if_neg (deeper_ne_top _), Option.map_eq_some_iff]
      constructor
      · intro h
        obtain ⟨k, hk, rfl⟩ := h
        obtain ⟨body, rest, rfl, rfl, hrun⟩ := ih.mp hk
        refine ⟨c :: body, rest, rfl, rfl, ?_⟩
        rw [run?_cons, hstep]
        exact hrun
      · intro h
        obtain ⟨body, rest, htext, rfl, hrun⟩ := h
        cases body with
        | nil =>
          obtain ⟨rfl, -⟩ := List.cons.inj htext
          exact absurd ⟨Option.some.inj hrun, rfl⟩ hend
        | cons d body =>
          obtain ⟨rfl, rfl⟩ := List.cons.inj htext
          rw [run?_cons, hstep] at hrun
          exact ⟨body.length, ih.mpr ⟨body, rest, rfl, rfl, hrun⟩, rfl⟩

end Zone

open Zone (top inQuote)

/-! ### Groups and quoted spans -/

theorem groupLength?_eq_some {text : List Char} {n : Nat} :
    groupLength? text = some n ↔
      ∃ body rest, text = body ++ ')' :: rest ∧ body.length = n ∧ top.run? body = some top :=
  Zone.closing?_deeper (z := top)

/-- The text between a pair of quotes: a backslash comes with the character behind it, and no other
character is a quote. -/
inductive QuoteBody : List Char → Prop
  | nil : QuoteBody []
  | escape (c : Char) {rest : List Char} : QuoteBody rest → QuoteBody ('\\' :: c :: rest)
  | plain {c : Char} {rest : List Char} :
    c ≠ '\\' → c ≠ '"' → QuoteBody rest → QuoteBody (c :: rest)

namespace Zone

theorem step_quoted {d : Nat} {c : Char} (hescape : c ≠ '\\') (hquote : c ≠ '"') :
    (⟨d, true, false⟩ : Zone).step (Mark.ofChar c) = ⟨d, true, false⟩ := by
  cases hc : Mark.ofChar c with
  | escape => exact absurd (Mark.ofChar_eq_escape.mp hc) hescape
  | quote => exact absurd (Mark.ofChar_eq_quote.mp hc) hquote
  | opening => rfl
  | closing => rfl
  | neutral => rfl

theorem step?_quoted {d : Nat} {e : Bool} (m : Mark) :
    (⟨d, true, e⟩ : Zone).step? m = some ((⟨d, true, e⟩ : Zone).step m) :=
  step?_of_ne_top fun h => by cases h

theorem run?_quoteBody {d : Nat} {body : List Char} (h : QuoteBody body) :
    (⟨d, true, false⟩ : Zone).run? body = some ⟨d, true, false⟩ := by
  induction h with
  | nil => rfl
  | escape c _ ih =>
    rw [run?_escape rfl]
    exact ih
  | plain hescape hquote _ ih =>
    rw [run?_cons, step?_quoted, step_quoted hescape hquote]
    exact ih

theorem closing?_quoteBody {body : List Char} (h : QuoteBody body) (rest : List Char) :
    inQuote.closing? (marks (body ++ '"' :: rest)) = some body.length := by
  induction h with
  | nil => rfl
  | escape c _ ih =>
    change ((inQuote.closing? (marks (_ ++ '"' :: rest))).map (· + 1)).map (· + 1) = _
    rw [ih]
    rfl
  | plain hescape hquote _ ih =>
    have hstep := step_quoted (d := 0) hescape hquote
    rw [List.cons_append, closing?_cons, inQuote, hstep, if_neg (by decide)]
    rw [inQuote] at ih
    rw [ih]
    rfl

/-- The body of a quoted span that may start behind a backslash. -/
theorem quoteBody_of_closing? {e : Bool} {text : List Char} {n : Nat}
    (h : (⟨0, true, e⟩ : Zone).closing? (marks text) = some n) :
    ∃ body rest, text = body ++ '"' :: rest ∧ body.length = n ∧
      QuoteBody (if e then '\\' :: body else body) := by
  induction text generalizing e n with
  | nil => cases h
  | cons c text ih =>
    cases e with
    | true =>
      obtain ⟨k, hk, rfl⟩ := Option.map_eq_some_iff.mp h
      obtain ⟨body, rest, rfl, rfl, hbody⟩ := ih hk
      exact ⟨c :: body, rest, rfl, rfl, .escape c hbody⟩
    | false =>
      rw [closing?_cons] at h
      by_cases hquote : c = '"'
      · subst hquote
        cases h
        exact ⟨[], text, rfl, rfl, .nil⟩
      · by_cases hescape : c = '\\'
        · subst hescape
          obtain ⟨k, hk, rfl⟩ := Option.map_eq_some_iff.mp h
          obtain ⟨body, rest, rfl, rfl, hbody⟩ := ih hk
          exact ⟨'\\' :: body, rest, rfl, rfl, hbody⟩
        · rw [step_quoted hescape hquote, if_neg (by decide)] at h
          obtain ⟨k, hk, rfl⟩ := Option.map_eq_some_iff.mp h
          obtain ⟨body, rest, rfl, rfl, hbody⟩ := ih hk
          exact ⟨c :: body, rest, rfl, rfl, .plain hescape hquote hbody⟩

end Zone

theorem quoteLength?_append {body : List Char} (h : QuoteBody body) (rest : List Char) :
    quoteLength? (body ++ '"' :: rest) = some body.length :=
  Zone.closing?_quoteBody h rest

theorem quoteLength?_eq_some {text : List Char} {n : Nat} :
    quoteLength? text = some n ↔
      ∃ body rest, text = body ++ '"' :: rest ∧ body.length = n ∧ QuoteBody body := by
  constructor
  · exact Zone.quoteBody_of_closing?
  · intro h
    obtain ⟨body, rest, rfl, rfl, hbody⟩ := h
    exact quoteLength?_append hbody rest

/-! ### Reading a text unit by unit -/

/-- Induction on a text in which a backslash comes with the character behind it. -/
@[elab_as_elim]
theorem units_induction {motive : List Char → Prop} (nil : motive []) (dangling : motive ['\\'])
    (escape : ∀ c rest, motive rest → motive ('\\' :: c :: rest))
    (quote : ∀ rest, motive rest → motive ('"' :: rest))
    (plain : ∀ c rest, c ≠ '\\' → c ≠ '"' → motive rest → motive (c :: rest)) :
    ∀ text, motive text
  | [] => nil
  | [c] =>
    if hescape : c = '\\' then hescape ▸ dangling
    else if hquote : c = '"' then hquote ▸ quote [] nil
    else plain c [] hescape hquote nil
  | c :: d :: rest =>
    if hescape : c = '\\' then
      hescape ▸ escape d rest (units_induction nil dangling escape quote plain rest)
    else if hquote : c = '"' then
      hquote ▸ quote (d :: rest) (units_induction nil dangling escape quote plain (d :: rest))
    else
      plain c (d :: rest) hescape hquote
        (units_induction nil dangling escape quote plain (d :: rest))

namespace Segment

theorem cutFrom_nil (inside : Bool) :
    cutFrom inside [] = if inside then .error .mismatchedQuotes else .ok [bare []] := by
  rw [cutFrom]

theorem cutFrom_dangling (inside : Bool) :
    cutFrom inside ['\\'] = (cutFrom inside []).map (extendFirst ['\\']) := by
  simp [cutFrom]

theorem cutFrom_escape (inside : Bool) (c : Char) (rest : List Char) :
    cutFrom inside ('\\' :: c :: rest) = (cutFrom inside rest).map (extendFirst ['\\', c]) := by
  rw [cutFrom]

theorem cutFrom_quote (inside : Bool) (rest : List Char) :
    cutFrom inside ('"' :: rest) =
      (cutFrom (!inside) rest).map ((if inside then quoted [] else bare []) :: ·) := by
  rw [cutFrom]

theorem cutFrom_plain (inside : Bool) {c : Char} (rest : List Char) (hescape : c ≠ '\\')
    (hquote : c ≠ '"') :
    cutFrom inside (c :: rest) = (cutFrom inside rest).map (extendFirst [c]) := by
  rw [cutFrom]
  · exact fun _ _ h _ => hescape h
  · exact hquote

theorem eq_mismatchedQuotes_of_cutFrom {inside : Bool} {text : List Char} {e : QueryError}
    (h : cutFrom inside text = .error e) : e = .mismatchedQuotes := by
  induction text using units_induction generalizing inside with
  | nil =>
    rw [cutFrom_nil] at h
    cases inside <;> cases h
    rfl
  | dangling =>
    rw [cutFrom_dangling, cutFrom_nil] at h
    cases inside <;> cases h
    rfl
  | escape c rest ih =>
    rw [cutFrom_escape, map_eq_error] at h
    exact ih h
  | quote rest ih =>
    rw [cutFrom_quote, map_eq_error] at h
    exact ih h
  | plain c rest hescape hquote ih =>
    rw [cutFrom_plain inside rest hescape hquote, map_eq_error] at h
    exact ih h

def ofText : Bool → List Char → Segment
  | true, body => quoted body
  | false, text => bare text

/-- How a text that starts inside of quotes or outside is cut: into the text of its first segment and
the segments behind that one. -/
inductive Cuts : Bool → List Char → List Char → List Segment → Prop
  | nil : Cuts false [] [] []
  | dangling : Cuts false ['\\'] ['\\'] []
  | escape {inside : Bool} (c : Char) {rest first : List Char} {tail : List Segment} :
    Cuts inside rest first tail → Cuts inside ('\\' :: c :: rest) ('\\' :: c :: first) tail
  | quote {inside : Bool} {rest first : List Char} {tail : List Segment} :
    Cuts (!inside) rest first tail →
    Cuts inside ('"' :: rest) [] (ofText (!inside) first :: tail)
  | plain {inside : Bool} {c : Char} {rest first : List Char} {tail : List Segment} :
    c ≠ '\\' → c ≠ '"' → Cuts inside rest first tail → Cuts inside (c :: rest) (c :: first) tail

theorem exists_cuts {inside : Bool} {text : List Char} {segments : List Segment}
    (h : cutFrom inside text = .ok segments) :
    ∃ first tail, segments = ofText inside first :: tail ∧ Cuts inside text first tail := by
  induction text using units_induction generalizing inside segments with
  | nil =>
    rw [cutFrom_nil] at h
    cases inside <;> cases h
    exact ⟨[], [], rfl, .nil⟩
  | dangling =>
    rw [cutFrom_dangling, cutFrom_nil] at h
    cases inside <;> cases h
    exact ⟨['\\'], [], rfl, .dangling⟩
  | escape c rest ih =>
    rw [cutFrom_escape, map_eq_ok] at h
    obtain ⟨segments', hcut, rfl⟩ := h
    obtain ⟨first, tail, rfl, hcuts⟩ := ih hcut
    refine ⟨_, tail, ?_, .escape c hcuts⟩
    cases inside <;> rfl
  | quote rest ih =>
    rw [cutFrom_quote, map_eq_ok] at h
    obtain ⟨segments', hcut, rfl⟩ := h
    obtain ⟨first, tail, rfl, hcuts⟩ := ih hcut
    refine ⟨[], _, ?_, .quote hcuts⟩
    cases inside <;> rfl
  | plain c rest hescape hquote ih =>
    rw [cutFrom_plain inside rest hescape hquote, map_eq_ok] at h
    obtain ⟨segments', hcut, rfl⟩ := h
    obtain ⟨first, tail, rfl, hcuts⟩ := ih hcut
    refine ⟨_, tail, ?_, .plain hescape hquote hcuts⟩
    cases inside <;> rfl

/-- A character that is no backslash and no quote changes the depth at most. -/
theorem exists_step_plain {d : Nat} {q : Bool} {c : Char} (hescape : c ≠ '\\') (hquote : c ≠ '"') :
    ∃ d', (⟨d, q, false⟩ : Zone).step (Mark.ofChar c) = ⟨d', q, false⟩ := by
  cases hc : Mark.ofChar c with
  | escape => exact absurd (Mark.ofChar_eq_escape.mp hc) hescape
  | quote => exact absurd (Mark.ofChar_eq_quote.mp hc) hquote
  | opening => cases q <;> exact ⟨_, rfl⟩
  | closing => cases q <;> exact ⟨_, rfl⟩
  | neutral => exact ⟨_, rfl⟩

theorem exists_cutFrom_iff {d : Nat} {inside : Bool} {text : List Char} :
    (∃ segments, cutFrom inside text = .ok segments) ↔
      ((⟨d, inside, false⟩ : Zone).run text).quoted = false := by
  induction text using units_induction generalizing d inside with
  | nil =>
    rw [cutFrom_nil, Zone.run_nil]
    cases inside <;> simp
  | dangling =>
    rw [cutFrom_dangling, cutFrom_nil]
    cases inside <;> simp [Except.map, Zone.run, marks, Zone.step, Mark.ofChar]
  | escape c rest ih =>
    rw [cutFrom_escape, exists_map_eq_ok, Zone.run_escape rfl, ← ih]
  | quote rest ih =>
    have hstep : (⟨d, inside, false⟩ : Zone).step (Mark.ofChar '"') = ⟨d, !inside, false⟩ := rfl
    rw [cutFrom_quote, exists_map_eq_ok, Zone.run_cons, hstep, ← ih]
  | plain c rest hescape hquote ih =>
    obtain ⟨d', hstep⟩ := exists_step_plain (d := d) (q := inside) hescape hquote
    rw [cutFrom_plain inside rest hescape hquote, exists_map_eq_ok, Zone.run_cons, hstep, ← ih]

end Segment

end RowSearch.Query
