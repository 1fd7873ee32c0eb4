import RowSearch.Proofs.Level
/-!
# Rows of parts

Here texts are put together so that splitting finds the parts again. A text hides a class of
characters when none of them stands at its top, that is outside of quotes and groups and not behind a
backslash. Parts that hide the separator and close what they open come back when they are joined and
split; and if each part is laid out as in a normal form, so is a row of them with a space between any
two.
-/

namespace RowSearch.Query

open Text (isBlank Blank Tight)
open Zone (top)

/-- In a text that starts in a zone no character of a class stands at the top. -/
def Hides (p : Char → Bool) (z : Zone) : List Char → Prop
  | [] => True
  | c :: rest => (z = top → p c = false) ∧ Hides p (z.step (Mark.ofChar c)) rest

section Hides

variable {p : Char → Bool} {z : Zone}

theorem hides_append {x y : List Char} : Hides p z (x ++ y) ↔ Hides p z x ∧ Hides p (z.run x) y := by
  induction x generalizing z with
  | nil => exact (and_iff_right trivial).symm
  | cons c rest ih => rw [List.cons_append, Hides, Hides, Zone.run_cons, ih, and_assoc]

theorem Hides.of_forall {text : List Char} (h : ∀ c ∈ text, p c = false) : Hides p z text := by
  induction text generalizing z with
  | nil => trivial
  | cons c rest ih =>
    exact ⟨fun _ => h c List.mem_cons_self, ih fun d hd => h d (List.mem_cons_of_mem _ hd)⟩

theorem Hides.imp {q : Char → Bool} {text : List Char} (h : Hides p z text)
    (hqp : ∀ c, q c = true → p c = true) : Hides q z text := by
  induction text generalizing z with
  | nil => trivial
  | cons c rest ih =>
    refine ⟨fun hz => ?_, ih h.2⟩
    have hc := h.1 hz
    by_contra hq
    rw [hqp c (by simpa using hq)] at hc
    cases hc

theorem hides_deeper {z' : Zone} {text : List Char} (h : z.run? text = some z') :
    Hides p z.deeper text := by
  induction text generalizing z with
  | nil => trivial
  | cons c rest ih =>
    obtain ⟨next, hstep, hrest⟩ := Option.bind_eq_some_iff.mp h
    refine ⟨fun hz => absurd hz (Zone.deeper_ne_top z), ?_⟩
    rw [Zone.step_deeper hstep]
    exact ih hrest

theorem hides_quoteBody {d : Nat} {body : List Char} (h : QuoteBody body) :
    Hides p ⟨d, true, false⟩ body := by
  induction h with
  | nil => trivial
  | escape c _ ih => exact ⟨fun hz => (nomatch hz), fun hz => (nomatch hz), ih⟩
  | plain hescape hquote _ ih =>
    refine ⟨fun hz => (nomatch hz), ?_⟩
    rw [Zone.step_quoted hescape hquote]
    exact ih

end Hides

/-! ### Joining and splitting -/

section Join

variable {separator : Char}

theorem Hides.clearFrom {z z' : Zone} {x : List Char} (h : Hides (· == separator) z x)
    (hrun : z.run? x = some z') (behind : List Char) : ClearFrom [separator] z x behind := by
  induction x generalizing z with
  | nil => exact .nil behind
  | cons c x ih =>
    obtain ⟨next, hstep, hrest⟩ := Option.bind_eq_some_iff.mp hrun
    obtain ⟨hhead, htail⟩ := h
    rw [Zone.step_eq_of_step? hstep] at htail
    refine (clearFrom_cons hstep).mpr ⟨fun hz hprefix => ?_, ih htail hrest⟩
    have hc : separator = c := (List.cons_prefix_cons.mp hprefix).1
    exact beq_eq_false_iff_ne.mp (hhead hz) hc.symm

/-- The scan carries a part along that hides the separator. -/
theorem Scans.append_left {z z' : Zone} {x y first : List Char} {rest : List (List Char)}
    (hrun : z.run? x = some z') (hhides : Hides (· == separator) z x)
    (h : Scans [separator] z' y (first :: rest)) :
    Scans [separator] z (x ++ y) ((x ++ first) :: rest) :=
  h.through hrun (hhides.clearFrom hrun y)

/-- A part that splitting leaves whole: it hides the separator, closes what it opens, and has neither
blanks nor separators at its ends. -/
structure Solid (separator : Char) (piece : List Char) : Prop where
  run : top.run? piece = some top
  hides : Hides (· == separator) top piece
  first : ∃ c rest, piece = c :: rest ∧ isBlank c = false ∧ c ≠ separator
  last : ∃ before c, piece = before ++ [c] ∧ isBlank c = false ∧ c ≠ separator

theorem Solid.tight {piece : List Char} (h : Solid separator piece) : Tight piece := by
  obtain ⟨c, rest, hfirst, hc, -⟩ := h.first
  obtain ⟨before, d, hlast, hd, -⟩ := h.last
  exact Text.tight_of_ends hfirst hc hlast hd

theorem scans_intercalate {pieces : List (List Char)} (hne : pieces ≠ [])
    (h : ∀ piece ∈ pieces, Solid separator piece) :
    Scans [separator] top ([separator].intercalate pieces) pieces := by
  induction pieces with
  | nil => exact absurd rfl hne
  | cons piece rest ih =>
    have hpiece := h piece List.mem_cons_self
    cases rest with
    | nil =>
      have hend : Scans [separator] top [] [[]] := .done ⟨rfl, rfl⟩
      have hscans := hend.append_left hpiece.run hpiece.hides
      rw [List.append_nil] at hscans
      rwa [List.intercalate_singleton]
    | cons next rest =>
      have hrest := ih (List.cons_ne_nil _ _) fun other hother =>
        h other (List.mem_cons_of_mem _ hother)
      have hscans := hrest.cut.append_left hpiece.run hpiece.hides
      rwa [List.append_nil, ← List.append_assoc, ← List.intercalate_cons_cons] at hscans

theorem trimSeparators_eq_self {text : List Char}
    (hfirst : ∃ c rest, text = c :: rest ∧ isBlank c = false ∧ c ≠ separator)
    (hlast : ∃ before c, text = before ++ [c] ∧ isBlank c = false ∧ c ≠ separator) :
    trimSeparators [separator] text = text := by
  have htight : Tight text := by
    obtain ⟨c, rest, heq, hc, -⟩ := hfirst
    obtain ⟨before, d, heq', hd, -⟩ := hlast
    exact Text.tight_of_ends heq hc heq' hd
  have hleading : dropLeading [separator] text = text := by
    rw [dropLeading, if_neg]
    intro hprefix
    obtain ⟨tail, htail⟩ := List.isPrefixOf_iff_prefix.mp hprefix
    obtain ⟨c, rest, rfl, -, hne⟩ := hfirst
    exact hne (List.cons.inj htail).1.symm
  have htrailing : dropTrailing [separator] text = text := by
    rw [dropTrailing, if_neg]
    intro hsuffix
    obtain ⟨front, hfront⟩ := List.isSuffixOf_iff_suffix.mp hsuffix
    obtain ⟨before, c, rfl, -, hne⟩ := hlast
    exact hne (List.cons.inj (List.append_inj' hfront rfl).2).1.symm
  rw [trimSeparators, Text.trim_eq_self htight, trimSeparatorsFrom, hleading, htrailing,
    if_neg (Nat.lt_irrefl _)]

theorem first_intercalate {pieces : List (List Char)} (hne : pieces ≠ [])
    (h : ∀ piece ∈ pieces, Solid separator piece) :
    ∃ c rest, [separator].intercalate pieces = c :: rest ∧ isBlank c = false ∧ c ≠ separator := by
  obtain ⟨piece, rest, rfl⟩ := List.exists_cons_of_ne_nil hne
  obtain ⟨c, tail, rfl, hc⟩ := (h piece List.mem_cons_self).first
  cases rest with
  | nil => exact ⟨c, tail, by rw [List.intercalate_singleton], hc⟩
  | cons next rest =>
    refine ⟨c, tail ++ [separator] ++ [separator].intercalate (next :: rest), ?_, hc⟩
    rw [List.intercalate_cons_cons]
    simp only [List.cons_append, List.append_assoc]

theorem last_intercalate {pieces : List (List Char)} (hne : pieces ≠ [])
    (h : ∀ piece ∈ pieces, Solid separator piece) :
    ∃ before c, [separator].intercalate pieces = before ++ [c] ∧ isBlank c = false ∧
      c ≠ separator := by
  induction pieces with
  | nil => exact absurd rfl hne
  | cons piece rest ih =>
    cases rest with
    | nil =>
      obtain ⟨before, c, rfl, hc⟩ := (h piece List.mem_cons_self).last
      exact ⟨before, c, by rw [List.intercalate_singleton], hc⟩
    | cons next rest =>
      obtain ⟨before, c, hlast, hc⟩ := ih (List.cons_ne_nil _ _) fun other hother =>
        h other (List.mem_cons_of_mem _ hother)
      refine ⟨piece ++ [separator] ++ before, c, ?_, hc⟩
      rw [List.intercalate_cons_cons, hlast, ← List.append_assoc]

/-- Splitting undoes joining. -/
theorem splitAt_intercalate (hneutral : Mark.ofChar separator = .neutral)
    {pieces : List (List Char)} (hne : pieces ≠ [])
    (h : ∀ piece ∈ pieces, Solid separator piece) :
    splitAt [separator] ([separator].intercalate pieces) = .ok pieces := by
  have hfirst := first_intercalate hne h
  have hbody := trimSeparators_eq_self hfirst (last_intercalate hne h)
  have htight : ∀ piece ∈ pieces, Text.trim piece = piece :=
    fun piece hpiece => Text.trim_eq_self (h piece hpiece).tight
  obtain ⟨c, rest, hcons, -⟩ := hfirst
  have hnil : [separator].intercalate pieces ≠ [] := by
    rw [hcons]
    exact List.cons_ne_nil _ _
  rw [splitAt, hbody, if_neg hnil, if_neg (List.cons_ne_nil _ _),
    (scans_intercalate hne h).segmentsFrom_eq (List.cons_ne_nil _ _) (by simpa using hneutral)]
  exact congrArg Except.ok ((List.map_congr_left htight).trans (List.map_id _))

end Join

theorem tokens_of_tidy {text : List Char} {pieces : List (List Char)}
    (htidy : tidy text = [' '].intercalate pieces) (hne : pieces ≠ [])
    (h : ∀ piece ∈ pieces, Solid ' ' piece) : tokens text = .ok pieces := by
  have hsplit := splitAt_intercalate (by decide) hne h
  rw [← htidy] at hsplit
  have hbalanced : Balanced text :=
    balanced_tidy.mp ((exists_splitAt_iff (List.cons_ne_nil _ _) (by decide)).mp ⟨pieces, hsplit⟩)
  exact tokens_eq_ok.mpr ⟨hbalanced.quoted, pieces, hsplit, (if_neg hne).symm⟩

/-! ### Rows of parts -/

/-- The characters that a comparison can start with. -/
def comparing (c : Char) : Bool :=
  isComparison c || c == '!'

/-- A part that stands in a query as it stands in the normal form. -/
structure Laid (piece : List Char) : Prop extends Solid ' ' piece where
  head : ∀ c, piece.head? = some c → comparing c = false
  firm : Firm piece
  tidy : tidyFrom top false piece = piece

theorem startsComparison_of_not_comparing {c : Char} (h : comparing c = false) (rest : List Char) :
    startsComparison (c :: rest) = false := by
  rw [comparing, Bool.or_eq_false_iff] at h
  simp [startsComparison_cons, h.1, beq_eq_false_iff_ne.mp h.2]

theorem startsComparison_intercalate {pieces : List (List Char)} (hne : pieces ≠ [])
    (h : ∀ piece ∈ pieces, Laid piece) :
    startsComparison (([' '].intercalate pieces).dropWhile isBlank) = false := by
  obtain ⟨piece, rest, rfl⟩ := List.exists_cons_of_ne_nil hne
  have hpiece := h piece List.mem_cons_self
  obtain ⟨c, tail, rfl, hblank, -⟩ := hpiece.first
  have hc : comparing c = false := hpiece.head c rfl
  cases rest with
  | nil =>
    rw [List.intercalate_singleton, List.dropWhile_cons_of_neg (by simp [hblank])]
    exact startsComparison_of_not_comparing hc _
  | cons next rest =>
    rw [List.intercalate_cons_cons, List.append_assoc, List.cons_append,
      List.dropWhile_cons_of_neg (by simp [hblank])]
    exact startsComparison_of_not_comparing hc _

theorem tidyFrom_intercalate {pieces : List (List Char)} (h : ∀ piece ∈ pieces, Laid piece)
    (glue : Bool) : tidyFrom top glue ([' '].intercalate pieces) = [' '].intercalate pieces := by
  induction pieces generalizing glue with
  | nil => rfl
  | cons piece rest ih =>
    have hpiece := h piece List.mem_cons_self
    have htidy : tidyFrom top glue piece = piece := by
      rw [tidyFrom_glue hpiece.tight.1 top glue false, hpiece.tidy]
    cases rest with
    | nil => rw [List.intercalate_singleton, htidy]
    | cons next rest =>
      have hrest : ∀ other ∈ next :: rest, Laid other :=
        fun other hother => h other (List.mem_cons_of_mem _ hother)
      have hrun := Zone.run_eq_of_run? hpiece.run
      rw [List.intercalate_cons_cons, List.append_assoc,
        tidyFrom_append_gap hpiece.firm hrun rfl rfl Text.blank_space (List.cons_ne_nil _ _)
          (startsComparison_intercalate (List.cons_ne_nil _ _) hrest),
        htidy, ih hrest]
      rfl

theorem tokens_intercalate {pieces : List (List Char)} (hne : pieces ≠ [])
    (h : ∀ piece ∈ pieces, Laid piece) : tokens ([' '].intercalate pieces) = .ok pieces := by
  have hsolid : ∀ piece ∈ pieces, Solid ' ' piece := fun piece hpiece => (h piece hpiece).toSolid
  refine tokens_of_tidy ?_ hne hsolid
  rw [tidy, tidyFrom_intercalate h]
  obtain ⟨c, rest, hfirst, hc, -⟩ := first_intercalate hne hsolid
  obtain ⟨before, d, hlast, hd, -⟩ := last_intercalate hne hsolid
  exact Text.trim_eq_self (Text.tight_of_ends hfirst hc hlast hd)

theorem laid_of_letters {piece : List Char} (hne : piece ≠ [])
    (h : ∀ c ∈ piece, isBlank c = false ∧ comparing c = false ∧ Mark.ofChar c = .neutral) :
    Laid piece where
  run := Zone.run?_neutral rfl fun c hc => (h c hc).2.2
  hides := .of_forall fun c hc => by
    rw [beq_eq_false_iff_ne]
    intro heq
    subst heq
    cases (h ' ' hc).1
  first := by
    obtain ⟨c, rest, rfl⟩ := List.exists_cons_of_ne_nil hne
    have hc := (h c List.mem_cons_self).1
    refine ⟨c, rest, rfl, hc, ?_⟩
    intro heq
    subst heq
    cases hc
  last := by
    have hlast := List.dropLast_append_getLast hne
    have hc := (h _ (List.getLast_mem hne)).1
    refine ⟨_, _, hlast.symm, hc, fun heq => ?_⟩
    rw [heq] at hc
    cases hc
  head := fun c hc => (h c (List.mem_of_head? hc)).2.1
  firm := by
    have hc := h _ (List.getLast_mem hne)
    rw [comparing, Bool.or_eq_false_iff, beq_eq_false_iff_ne] at hc
    exact ⟨_, _, (List.dropLast_append_getLast hne).symm, hc.1, hc.2.1.2, hc.2.1.1⟩
  tidy := tidyFrom_of_not_blank (fun c hc => (h c hc).1) top false

end RowSearch.Query
