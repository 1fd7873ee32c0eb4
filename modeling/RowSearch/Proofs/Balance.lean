import RowSearch.Proofs.Blind
import RowSearch.Query.Split
/-!
# Balance

A text is balanced when the run over it from the top ends with all quotes and groups closed. Balance
survives what is done to a query before it is cut at its separators: the normal form, and dropping
blanks and separators at the ends.
-/

namespace RowSearch.Query

open Text (isBlank Blank Tight)
open Zone (top)

def Zone.Settled (z : Zone) : Prop :=
  z.depth = 0 ∧ z.quoted = false

/-- Behind a balanced text all quotes and groups are closed. A last backslash may be left over. -/
def Balanced (text : List Char) : Prop :=
  ∃ z, top.run? text = some z ∧ z.Settled

theorem balanced_of_run? {text : List Char} (h : top.run? text = some top) : Balanced text :=
  ⟨top, h, rfl, rfl⟩

theorem Balanced.settled {text : List Char} (h : Balanced text) {z : Zone}
    (hrun : top.run? text = some z) : z.Settled := by
  obtain ⟨z', hz', hsettled⟩ := h
  cases hrun.symm.trans hz'
  exact hsettled

theorem Balanced.quoted {text : List Char} (h : Balanced text) : (top.run text).quoted = false := by
  obtain ⟨z, hrun, hz⟩ := h
  rw [Zone.run_eq_of_run? hrun]
  exact hz.2

/-! ### Characters without meaning -/

theorem exists_run?_neutral {text : List Char} (h : ∀ c ∈ text, Mark.ofChar c = .neutral) (z : Zone) :
    ∃ z', z.run? text = some z' ∧ z'.depth = z.depth ∧ z'.quoted = z.quoted := by
  cases text with
  | nil => exact ⟨z, rfl, rfl, rfl⟩
  | cons c rest =>
    refine ⟨z.settle, ?_, rfl, rfl⟩
    rw [Zone.run?_cons, h c List.mem_cons_self, Zone.step?_neutral]
    exact Zone.run?_neutral rfl fun d hd => h d (List.mem_cons_of_mem _ hd)

/-- Characters without meaning at the ends of a text do not matter to its balance. -/
theorem balanced_append {before text after : List Char}
    (hbefore : ∀ c ∈ before, Mark.ofChar c = .neutral)
    (hafter : ∀ c ∈ after, Mark.ofChar c = .neutral) :
    Balanced (before ++ text ++ after) ↔ Balanced text := by
  have hrun : top.run? (before ++ text ++ after) = (top.run? text).bind (·.run? after) := by
    rw [Zone.run?_append, Zone.run?_append, Zone.run?_neutral rfl hbefore]
    rfl
  rw [Balanced, Balanced, hrun]
  constructor
  · intro h
    obtain ⟨z, h, hz⟩ := h
    obtain ⟨z', htext, hrest⟩ := Option.bind_eq_some_iff.mp h
    obtain ⟨z'', hrun', hdepth, hquoted⟩ := exists_run?_neutral hafter z'
    cases Option.some.inj (hrun'.symm.trans hrest)
    exact ⟨z', htext, hdepth ▸ hz.1, hquoted ▸ hz.2⟩
  · intro h
    obtain ⟨z, h, hz⟩ := h
    obtain ⟨z', hrun', hdepth, hquoted⟩ := exists_run?_neutral hafter z
    exact ⟨z', by rw [h]; exact hrun', hdepth.trans hz.1, hquoted.trans hz.2⟩

theorem neutral_of_blank {text : List Char} (h : Blank text) :
    ∀ c ∈ text, Mark.ofChar c = .neutral :=
  fun c hc => Mark.ofChar_of_isBlank (h c hc)

theorem balanced_trim {text : List Char} : Balanced (Text.trim text) ↔ Balanced text := by
  obtain ⟨before, after, hbefore, hafter, htext⟩ := Text.exists_blank_trim text
  conv_rhs => rw [htext]
  exact (balanced_append (neutral_of_blank hbefore) (neutral_of_blank hafter)).symm

theorem balanced_tidy {text : List Char} : Balanced (tidy text) ↔ Balanced text := by
  have hrun : top.run? (tidyFrom top false text) = top.run? text :=
    blind_run?.apply_tidyFrom (fun _ => rfl) text
  rw [tidy, balanced_trim, Balanced, hrun, Balanced]

theorem run_tidy_quoted (text : List Char) :
    (top.run (tidy text)).quoted = (top.run text).quoted := by
  have hrun : top.run (tidyFrom top false text) = top.run text :=
    blind_run.apply_tidyFrom (fun _ => rfl) text
  obtain ⟨before, after, hbefore, hafter, htrim⟩ := Text.exists_blank_trim (tidyFrom top false text)
  rw [← hrun, htrim, Zone.run_append, (run_blank hafter _).1, Zone.run_append,
    run_blank_of_not_escaped hbefore rfl]
  rfl

/-! ### Separators at the ends -/

/-- What is dropped at the ends of a text when it is split: blanks and separators. -/
def Padding (separator text : List Char) : Prop :=
  ∀ c ∈ text, isBlank c = true ∨ c ∈ separator

theorem Padding.nil (separator : List Char) : Padding separator [] :=
  fun _ h => (List.not_mem_nil h).elim

theorem Padding.append {separator x y : List Char} (hx : Padding separator x)
    (hy : Padding separator y) : Padding separator (x ++ y) :=
  fun c hc => (List.mem_append.mp hc).elim (hx c) (hy c)

theorem Padding.of_blank {separator text : List Char} (h : Blank text) : Padding separator text :=
  fun c hc => .inl (h c hc)

theorem Padding.neutral {separator text : List Char} (h : Padding separator text)
    (hseparator : ∀ c ∈ separator, Mark.ofChar c = .neutral) :
    ∀ c ∈ text, Mark.ofChar c = .neutral :=
  fun c hc => (h c hc).elim Mark.ofChar_of_isBlank (hseparator c)

def Pads (separator text kept : List Char) : Prop :=
  ∃ before after, Padding separator before ∧ Padding separator after ∧
    text = before ++ kept ++ after

theorem Pads.refl (separator text : List Char) : Pads separator text text :=
  ⟨[], [], .nil _, .nil _, (List.append_nil _).symm⟩

theorem Pads.trans {separator x y z : List Char} (hxy : Pads separator x y)
    (hyz : Pads separator y z) : Pads separator x z := by
  obtain ⟨before, after, hbefore, hafter, rfl⟩ := hxy
  obtain ⟨before', after', hbefore', hafter', rfl⟩ := hyz
  refine ⟨before ++ before', after' ++ after, hbefore.append hbefore', hafter'.append hafter, ?_⟩
  simp only [List.append_assoc]

theorem pads_trim (separator text : List Char) : Pads separator text (Text.trim text) := by
  obtain ⟨before, after, hbefore, hafter, htext⟩ := Text.exists_blank_trim text
  exact ⟨before, after, .of_blank hbefore, .of_blank hafter, htext⟩

theorem pads_dropLeading (separator text : List Char) :
    Pads separator text (dropLeading separator text) := by
  rw [dropLeading]
  split
  · next h =>
    obtain ⟨rest, rfl⟩ := List.isPrefixOf_iff_prefix.mp h
    rw [List.drop_left]
    refine Pads.trans ⟨separator, [], fun c hc => .inr hc, .nil _, ?_⟩ (pads_trim separator rest)
    rw [List.append_nil]
  · exact .refl _ _

theorem pads_dropTrailing (separator text : List Char) :
    Pads separator text (dropTrailing separator text) := by
  rw [dropTrailing]
  split
  · next h =>
    obtain ⟨rest, rfl⟩ := List.isSuffixOf_iff_suffix.mp h
    rw [List.length_append, Nat.add_sub_cancel, List.take_left]
    exact Pads.trans ⟨[], separator, .nil _, fun c hc => .inr hc, rfl⟩ (pads_trim separator rest)
  · exact .refl _ _

theorem pads_trimSeparatorsFrom (separator text : List Char) :
    Pads separator text (trimSeparatorsFrom separator text) := by
  fun_induction trimSeparatorsFrom separator text with
  | case1 text shorter _ ih =>
    exact ((pads_dropLeading separator text).trans (pads_dropTrailing separator _)).trans ih
  | case2 text shorter _ => exact .refl _ _

theorem pads_trimSeparators (separator text : List Char) :
    Pads separator text (trimSeparators separator text) :=
  (pads_trim separator text).trans (pads_trimSeparatorsFrom separator _)

theorem tight_trimSeparatorsFrom {separator text : List Char} (h : Tight text) :
    Tight (trimSeparatorsFrom separator text) := by
  have hleading {text : List Char} (h : Tight text) : Tight (dropLeading separator text) := by
    rw [dropLeading]
    split
    · exact Text.tight_trim _
    · exact h
  have htrailing {text : List Char} (h : Tight text) : Tight (dropTrailing separator text) := by
    rw [dropTrailing]
    split
    · exact Text.tight_trim _
    · exact h
  fun_induction trimSeparatorsFrom separator text with
  | case1 text shorter _ ih => exact ih (htrailing (hleading h))
  | case2 text shorter _ => exact h

theorem tight_trimSeparators (separator text : List Char) : Tight (trimSeparators separator text) :=
  tight_trimSeparatorsFrom (Text.tight_trim text)

theorem Pads.balanced {separator text kept : List Char} (h : Pads separator text kept)
    (hseparator : ∀ c ∈ separator, Mark.ofChar c = .neutral) : Balanced text ↔ Balanced kept := by
  obtain ⟨before, after, hbefore, hafter, rfl⟩ := h
  exact balanced_append (hbefore.neutral hseparator) (hafter.neutral hseparator)

end RowSearch.Query
