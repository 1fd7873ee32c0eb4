import Mathlib.Data.List.DropRight
import RowSearch.Text.Blank
/-!
# Trimmed texts

A text is its trimmed form between two runs of blanks, and the trimmed form is the one that neither
starts nor ends with a blank.
-/

namespace RowSearch.Text

def Blank (text : List Char) : Prop :=
  ∀ c ∈ text, isBlank c = true

/-- A text that neither starts nor ends with a blank. -/
def Tight (text : List Char) : Prop :=
  (∀ c, text.head? = some c → isBlank c = false) ∧
    ∀ c, text.getLast? = some c → isBlank c = false

theorem blank_nil : Blank [] :=
  fun _ h => (List.not_mem_nil h).elim

theorem blank_space : Blank [' '] := by
  intro c hc
  rw [List.mem_singleton.mp hc]
  decide

theorem tight_of_ends {text rest before : List Char} {c d : Char} (hfirst : text = c :: rest)
    (hc : isBlank c = false) (hlast : text = before ++ [d]) (hd : isBlank d = false) :
    Tight text := by
  constructor
  · intro c' hc'
    rw [hfirst] at hc'
    cases hc'
    exact hc
  · intro d' hd'
    rw [hlast, List.getLast?_concat] at hd'
    cases hd'
    exact hd

theorem trimStart_append {before : List Char} (h : Blank before) (text : List Char) :
    trimStart (before ++ text) = trimStart text :=
  List.dropWhile_append_of_pos h

theorem trimEnd_append {after : List Char} (h : Blank after) (text : List Char) :
    trimEnd (text ++ after) = trimEnd text := by
  rw [trimEnd, List.reverse_append, List.dropWhile_append_of_pos, trimEnd]
  exact fun c hc => h c (List.mem_reverse.mp hc)

theorem trimStart_eq_self {text : List Char}
    (h : ∀ c, text.head? = some c → isBlank c = false) : trimStart text = text := by
  cases text with
  | nil => rfl
  | cons c rest => exact List.dropWhile_cons_of_neg (by rw [h c rfl]; exact Bool.false_ne_true)

theorem trimEnd_eq_self {text : List Char}
    (h : ∀ c, text.getLast? = some c → isBlank c = false) : trimEnd text = text := by
  have hstart : trimStart text.reverse = text.reverse :=
    trimStart_eq_self fun c hc => h c (by rwa [List.head?_reverse] at hc)
  rw [trimEnd]
  exact (congrArg List.reverse hstart).trans text.reverse_reverse

theorem trimEnd_cons (c : Char) (text : List Char) :
    trimEnd (c :: text) = if isBlank c = true ∧ trimEnd text = [] then [] else c :: trimEnd text := by
  rw [trimEnd, trimEnd, List.reverse_cons, List.dropWhile_append]
  cases hrest : text.reverse.dropWhile isBlank with
  | nil => by_cases hc : isBlank c = true <;> simp [hc]
  | cons d rest => simp

theorem trimEnd_cons_inj {c : Char} {x y : List Char} :
    trimEnd (c :: x) = trimEnd (c :: y) ↔ trimEnd x = trimEnd y := by
  refine ⟨fun h => ?_, fun h => by rw [trimEnd_cons, trimEnd_cons, h]⟩
  rw [trimEnd_cons, trimEnd_cons] at h
  split at h <;> split at h
  · next hx hy => rw [hx.2, hy.2]
  · cases h
  · cases h
  · exact (List.cons.inj h).2

theorem trimEnd_cons_of_not_blank {c : Char} (h : isBlank c = false) (text : List Char) :
    trimEnd (c :: text) = c :: trimEnd text := by
  rw [trimEnd_cons, if_neg (by simp [h])]

theorem trim_eq_self {text : List Char} (h : Tight text) : trim text = text := by
  rw [trim, trimStart_eq_self h.1, trimEnd_eq_self h.2]

theorem head?_trimStart (text : List Char) :
    ∀ c, (trimStart text).head? = some c → isBlank c = false := by
  intro c hc
  have h := List.head?_dropWhile_not isBlank text
  rw [trimStart] at hc
  rw [hc] at h
  simpa using h

theorem trimEnd_prefix (text : List Char) : trimEnd text <+: text :=
  List.rdropWhile_prefix isBlank text

theorem trim_sublist (text : List Char) : (trim text).Sublist text := by
  have hend : trim text <+: trimStart text := trimEnd_prefix _
  exact hend.sublist.trans (List.dropWhile_sublist _)

theorem tight_trim (text : List Char) : Tight (trim text) := by
  constructor
  · intro c hc
    obtain ⟨after, hafter⟩ := trimEnd_prefix (trimStart text)
    refine head?_trimStart text c ?_
    rw [trim] at hc
    rw [← hafter, List.head?_append, hc]
    rfl
  · intro c hc
    refine head?_trimStart (trimStart text).reverse c ?_
    rw [trim, trimEnd, List.getLast?_reverse] at hc
    exact hc

/-- A text is its trimmed form between two runs of blanks. -/
theorem exists_blank_trim (text : List Char) :
    ∃ before after, Blank before ∧ Blank after ∧ text = before ++ trim text ++ after := by
  refine ⟨text.takeWhile isBlank, (trimStart text).rtakeWhile isBlank, ?_, ?_, ?_⟩
  · exact fun c hc => List.mem_takeWhile_imp hc
  · exact fun c hc => List.mem_rtakeWhile_imp hc
  · have hend : trim text ++ (trimStart text).rtakeWhile isBlank = trimStart text :=
      List.rdropWhile_append_rtakeWhile
    rw [List.append_assoc, hend]
    exact List.takeWhile_append_dropWhile.symm

theorem trim_blank {text : List Char} (h : Blank text) : trim text = [] := by
  have hstart : trimStart text = [] := List.dropWhile_eq_nil_iff.mpr h
  rw [trim, hstart]
  rfl

theorem trim_tight {before text after : List Char} (hbefore : Blank before) (htext : Tight text)
    (hafter : Blank after) : trim (before ++ text ++ after) = text := by
  cases text with
  | nil =>
    refine trim_blank fun c hc => ?_
    rw [List.append_nil, List.mem_append] at hc
    exact hc.elim (hbefore c) (hafter c)
  | cons c rest =>
    rw [trim, List.append_assoc, trimStart_append hbefore, trimStart_eq_self, trimEnd_append hafter,
      trimEnd_eq_self htext.2]
    exact htext.1

theorem trim_append {before after : List Char} (hbefore : Blank before) (hafter : Blank after)
    (text : List Char) : trim (before ++ text ++ after) = trim text := by
  obtain ⟨lead, tail, hlead, htail, htext⟩ := exists_blank_trim text
  have hshape : before ++ text ++ after = (before ++ lead) ++ trim text ++ (tail ++ after) := by
    conv_lhs => rw [htext]
    simp only [List.append_assoc]
  rw [hshape]
  refine trim_tight ?_ (tight_trim text) ?_
  · exact fun c hc => (List.mem_append.mp hc).elim (hbefore c) (hlead c)
  · exact fun c hc => (List.mem_append.mp hc).elim (htail c) (hafter c)

end RowSearch.Text
