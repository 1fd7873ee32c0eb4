import RowSearch.Proofs.Canonical
import RowSearch.Proofs.Structure
import RowSearch.Proofs.Unbroken
/-!
# Queries without the symbols of two characters

Whether the comparison symbols of two characters are known makes no difference to a query that shows
none of them outside of its quotes. The setting is asked for at every token of every fragment, and each
fragment is brought into normal form anew, which drops blanks. So it is not enough that the two
characters of a symbol never stand side by side: they may not have just blanks between them either.
This is what a normal form sees to, and what holds of a text holds of its normal form and of all
pieces that are cut from it where no quote is open.
-/

namespace RowSearch.Query

open Text (isBlank)
open Zone (top)

/-! ### Symbols of two characters -/

/-- A text starts with a comparison symbol of two characters. -/
def Double : List Char → Prop
  | [] => False
  | c :: rest => c ∈ ['!', '<', '>'] ∧ rest.head? = some '='

/-- A text starts with a comparison symbol of two characters that may have a gap between them. -/
def Loose : List Char → Prop
  | [] => False
  | c :: rest => c ∈ ['!', '<', '>'] ∧ (rest.dropWhile isBlank).head? = some '='

/-- A text starts with a comparison symbol of two characters that have a gap between them. -/
def Gapped (text : List Char) : Prop :=
  Loose text ∧ ¬Double text

/-- In a text that starts in a zone no rest outside of quotes has a property. -/
def Nowhere (P : List Char → Prop) (z : Zone) : List Char → Prop
  | [] => True
  | c :: rest => (z.quoted = false → ¬P (c :: rest)) ∧ Nowhere P (z.step (Mark.ofChar c)) rest

/-- A property that a text keeps when more text comes behind it. -/
def Stays (P : List Char → Prop) : Prop :=
  ∀ x y, P x → P (x ++ y)

def HoldsDouble (text : List Char) : Prop :=
  ∃ op ∈ [CompareOp.ne, .le, .ge], op.symbol.toList <:+: text

instance (text : List Char) : Decidable (HoldsDouble text) :=
  inferInstanceAs (Decidable (∃ op ∈ [CompareOp.ne, .le, .ge], op.symbol.toList <:+: text))

/-- A text holds a comparison symbol of two characters outside of its quoted spans. -/
def ShowsDouble (text : List Char) : Prop :=
  ∃ segments bare, Segment.cut text = .ok segments ∧ Segment.bare bare ∈ segments ∧ HoldsDouble bare

section Nowhere

variable {P Q : List Char → Prop} {z : Zone} {text : List Char}

theorem Nowhere.imp (h : Nowhere P z text) (himp : ∀ rest, Q rest → P rest) : Nowhere Q z text := by
  induction text generalizing z with
  | nil => trivial
  | cons c rest ih => exact ⟨fun hz hQ => h.1 hz (himp _ hQ), ih h.2⟩

theorem nowhere_false (z : Zone) (text : List Char) : Nowhere (fun _ => False) z text := by
  induction text generalizing z with
  | nil => trivial
  | cons c rest ih => exact ⟨fun _ => id, ih _⟩

theorem Nowhere.or (hP : Nowhere P z text) (hQ : Nowhere Q z text) :
    Nowhere (fun rest => P rest ∨ Q rest) z text := by
  induction text generalizing z with
  | nil => trivial
  | cons c rest ih => exact ⟨fun hz h => h.elim (hP.1 hz) (hQ.1 hz), ih hP.2 hQ.2⟩

/-- What stands nowhere in a text stands nowhere in its parts. -/
theorem Nowhere.append {x y : List Char} (hP : Stays P) (h : Nowhere P z (x ++ y)) :
    Nowhere P z x ∧ Nowhere P (z.run x) y := by
  induction x generalizing z with
  | nil => exact ⟨trivial, h⟩
  | cons c rest ih =>
    obtain ⟨hrest, hy⟩ := ih h.2
    exact ⟨⟨fun hz hfirst => h.1 hz (hP _ y hfirst), hrest⟩, hy⟩

theorem nowhere_depth (z : Zone) (d : Nat) :
    Nowhere P { z with depth := d } text ↔ Nowhere P z text := by
  induction text generalizing z d with
  | nil => rfl
  | cons c rest ih =>
    obtain ⟨d', hstep⟩ := Zone.exists_step_depth z d (Mark.ofChar c)
    rw [Nowhere, Nowhere, hstep, ih]

end Nowhere

theorem stays_loose : Stays Loose := by
  intro x y h
  cases x with
  | nil => exact h.elim
  | cons c rest =>
    obtain ⟨hc, hhead⟩ := h
    obtain ⟨after, hafter⟩ := List.head?_eq_some_iff.mp hhead
    refine ⟨hc, ?_⟩
    show ((rest ++ y).dropWhile isBlank).head? = _
    rw [List.dropWhile_append, hafter]
    rfl

theorem Double.loose {text : List Char} (h : Double text) : Loose text := by
  cases text with
  | nil => exact h
  | cons c rest =>
    obtain ⟨hc, hhead⟩ := h
    obtain ⟨after, rfl⟩ := List.head?_eq_some_iff.mp hhead
    exact ⟨hc, rfl⟩

theorem stays_gapped : Stays Gapped := by
  intro x y h
  obtain ⟨hloose, hdouble⟩ := h
  refine ⟨stays_loose x y hloose, ?_⟩
  cases x with
  | nil => exact hloose.elim
  | cons c rest =>
    intro hmore
    cases rest with
    | nil => cases hloose.2
    | cons d rest => exact hdouble hmore

/-! ### The hypothesis -/

theorem Segment.Cuts.head? {text first : List Char} {tail : List Segment}
    (h : Segment.Cuts false text first tail) (hhead : text.head? = some '=') : first.head? = some '=' := by
  generalize hinside : false = inside at h
  cases h with
  | nil | dangling | escape _ _ | quote _ => cases hhead
  | plain _ _ _ => exact hhead

theorem holdsDouble_cons {c : Char} {rest : List Char} (h : ¬HoldsDouble (c :: rest)) :
    ¬Double (c :: rest) ∧ ¬HoldsDouble rest := by
  refine ⟨fun hdouble => h ?_, fun hrest => h ?_⟩
  · obtain ⟨hc, hhead⟩ := hdouble
    obtain ⟨after, rfl⟩ := List.head?_eq_some_iff.mp hhead
    simp only [List.mem_cons, List.not_mem_nil, or_false] at hc
    rcases hc with rfl | rfl | rfl
    · exact ⟨.ne, by decide, [], after, rfl⟩
    · exact ⟨.le, by decide, [], after, rfl⟩
    · exact ⟨.ge, by decide, [], after, rfl⟩
  · obtain ⟨op, hop, before, after, htext⟩ := hrest
    exact ⟨op, hop, c :: before, after, by rw [← htext]; rfl⟩

/-- A symbol outside of quotes stands in one segment, as no quote is part of it. -/
theorem Segment.Cuts.double {c : Char} {text first : List Char} {tail : List Segment}
    (h : Segment.Cuts false text first tail) (hfirst : ¬HoldsDouble (c :: first)) :
    ¬Double (c :: text) := by
  intro hdouble
  exact (holdsDouble_cons hfirst).1 ⟨hdouble.1, h.head? hdouble.2⟩

theorem nowhere_double_of_cuts {d : Nat} {inside : Bool} {text first : List Char} {tail : List Segment}
    (h : Segment.Cuts inside text first tail) (hfirst : inside = false → ¬HoldsDouble first)
    (htail : ∀ bare, Segment.bare bare ∈ tail → ¬HoldsDouble bare) :
    Nowhere Double ⟨d, inside, false⟩ text := by
  induction h generalizing d with
  | nil => trivial
  | dangling => exact ⟨fun _ hdouble => absurd hdouble.1 (by decide), trivial⟩
  | @escape inside c rest first tail hcuts ih =>
    have hrest (hinside : inside = false) := (holdsDouble_cons (hfirst hinside)).2
    refine ⟨fun _ hdouble => absurd hdouble.1 (by decide), fun hquoted => ?_, ?_⟩
    · obtain rfl : inside = false := hquoted
      exact hcuts.double (hrest rfl)
    · exact ih (fun hinside => (holdsDouble_cons (hrest hinside)).2) htail
  | @quote inside rest first tail _ ih =>
    refine ⟨fun _ hdouble => absurd hdouble.1 (by decide), ih (fun hinside => ?_) ?_⟩
    · have hbare : Segment.ofText (!inside) first = .bare first := by
        rw [hinside]
        rfl
      exact htail first (hbare ▸ List.mem_cons_self)
    · exact fun bare hmem => htail bare (List.mem_cons_of_mem _ hmem)
  | @plain inside c rest first tail hescape hquote hcuts ih =>
    obtain ⟨d', hstep⟩ := Segment.exists_step_plain (d := d) (q := inside) hescape hquote
    refine ⟨fun hquoted => ?_, ?_⟩
    · obtain rfl : inside = false := hquoted
      exact hcuts.double (hfirst rfl)
    · rw [hstep]
      exact ih (fun hinside => (holdsDouble_cons (hfirst hinside)).2) htail

theorem nowhere_double {text : List Char} (hquoted : (top.run text).quoted = false)
    (h : ¬ShowsDouble text) : Nowhere Double top text := by
  obtain ⟨segments, hcut⟩ := Segment.exists_cutFrom_iff.mpr hquoted
  obtain ⟨first, tail, rfl, hcuts⟩ := Segment.exists_cuts hcut
  refine nowhere_double_of_cuts hcuts (fun _ hfirst => ?_) fun bare hmem hbare => ?_
  · exact h ⟨_, first, hcut, List.mem_cons_self, hfirst⟩
  · exact h ⟨_, bare, hcut, List.mem_cons_of_mem _ hmem, hbare⟩

/-! ### The normal form -/

section Normal

variable {P Q : List Char → Prop} {z : Zone} {text : List Char}

theorem head?_dropWhile_tidyFrom (hquoted : z.quoted = false) (glue : Bool) :
    ((tidyFrom z glue text).dropWhile isBlank).head? = (text.dropWhile isBlank).head? := by
  induction text generalizing z glue with
  | nil => rfl
  | cons c rest ih =>
    have hrest : ((tidyFrom z.settle true rest).dropWhile isBlank).head? =
      (rest.dropWhile isBlank).head? := ih (z := z.settle) hquoted true
    cases passes z glue c rest with
    | drop _ hblank hdrop =>
      rw [tidyFrom_drop hquoted hblank hdrop, List.dropWhile_cons_of_pos hblank, hrest]
    | space _ hblank hglue hstart =>
      rw [hglue, tidyFrom_space hquoted hblank hstart, List.dropWhile_cons_of_pos (by decide),
        List.dropWhile_cons_of_pos hblank, hrest]
    | keep hkeep =>
      have hc : ¬isBlank c = true := by simpa [hquoted] using hkeep
      rw [tidyFrom_keep hkeep, List.dropWhile_cons_of_neg hc, List.dropWhile_cons_of_neg hc]
      rfl

/-- What stands nowhere in a text, a normal form of it can only have where a character was kept. -/
theorem nowhere_tidyFrom (hspace : ∀ rest, ¬P (' ' :: rest))
    (hkeep : ∀ {z : Zone} {c : Char} {rest : List Char}, z.quoted = false → ¬Q (c :: rest) →
      ¬P (c :: tidyFrom (z.step (Mark.ofChar c)) (isComparison c) rest))
    {glue : Bool} (hglue : glue = true → z.escaped = false) (h : Nowhere Q z text) :
    Nowhere P z (tidyFrom z glue text) := by
  induction text generalizing z glue with
  | nil => trivial
  | cons c rest ih =>
    obtain ⟨hfirst, hrest⟩ := h
    cases passes z glue c rest with
    | drop hquoted hblank hdrop =>
      rw [Mark.ofChar_of_isBlank hblank, Zone.step_neutral] at hrest
      have hout : Nowhere P z.settle (tidyFrom z.settle true rest) := ih (fun _ => rfl) hrest
      rw [tidyFrom_drop hquoted hblank hdrop]
      rcases hdrop with hg | hstart
      · rwa [Zone.settle_of_not_escaped (hglue hg)] at hout ⊢
      · -- the blank may have been escaped; now the symbol behind it is
        obtain ⟨d, after, hd, hstep⟩ := exists_cons_of_dropped hquoted hstart
        rw [hd] at hout ⊢
        exact ⟨hout.1, hstep ▸ hout.2⟩
    | space hquoted hblank hg hstart =>
      rw [Mark.ofChar_of_isBlank hblank, Zone.step_neutral] at hrest
      rw [hg, tidyFrom_space hquoted hblank hstart]
      refine ⟨fun _ => hspace _, ?_⟩
      show Nowhere P (z.step .neutral) _
      rw [Zone.step_neutral]
      exact ih (fun _ => rfl) hrest
    | keep hkept =>
      rw [tidyFrom_keep hkept]
      refine ⟨fun hquoted => ?_, ih escaped_step_of_glue hrest⟩
      rw [hquoted, Bool.not_false, Bool.true_and]
      exact hkeep hquoted (hfirst hquoted)

theorem neutral_of_mem : ∀ c ∈ ['!', '<', '>'], Mark.ofChar c = .neutral := by
  decide

theorem nowhere_loose_tidyFrom {glue : Bool} (hglue : glue = true → z.escaped = false)
    (h : Nowhere Loose z text) : Nowhere Loose z (tidyFrom z glue text) := by
  refine nowhere_tidyFrom (fun rest hloose => absurd hloose.1 (by decide)) ?_ hglue h
  intro z c rest hquoted hfirst hloose
  obtain ⟨hc, hhead⟩ := hloose
  rw [neutral_of_mem c hc, Zone.step_neutral, head?_dropWhile_tidyFrom (z := z.settle) hquoted] at hhead
  exact hfirst ⟨hc, hhead⟩

/-- The normal form closes the gaps in the symbols of two characters. -/
theorem nowhere_gapped_tidyFrom {glue : Bool} (hglue : glue = true → z.escaped = false)
    (text : List Char) : Nowhere Gapped z (tidyFrom z glue text) := by
  refine nowhere_tidyFrom (fun rest hgapped => absurd hgapped.1.1 (by decide)) ?_ hglue
    (nowhere_false z text)
  intro z c rest hquoted _ hgapped
  obtain ⟨⟨hc, hhead⟩, hdouble⟩ := hgapped
  rw [neutral_of_mem c hc, Zone.step_neutral] at hhead hdouble
  refine hdouble ⟨hc, ?_⟩
  by_cases hbang : c = '!'
  · subst hbang
    rw [head?_dropWhile_tidyFrom (z := z.settle) hquoted] at hhead
    exact (head?_tidyFrom_eq (z := z.settle) hquoted).mpr hhead
  · -- behind `<` and `>` the pass drops all blanks
    have hglue : isComparison c = true := by
      simp only [List.mem_cons, hbang, List.not_mem_nil, or_false, false_or] at hc
      rcases hc with rfl | rfl <;> rfl
    rw [hglue] at hhead ⊢
    have hstart := Text.trimStart_eq_self (head?_tidyFrom (z := z.settle) hquoted rest)
    rw [Text.trimStart] at hstart
    rwa [hstart] at hhead

theorem Nowhere.of_pads {separator kept : List Char} (hP : Stays P)
    (hseparator : ∀ c ∈ separator, Mark.ofChar c = .neutral) (hpads : Pads separator text kept)
    (h : Nowhere P top text) : Nowhere P top kept := by
  obtain ⟨before, after, hbefore, -, rfl⟩ := hpads
  have hkept := ((h.append hP).1.append hP).2
  rwa [Zone.run_eq_of_run? (Zone.run?_neutral rfl (hbefore.neutral hseparator))] at hkept

theorem nowhere_trim (hP : Stays P) (h : Nowhere P top text) : Nowhere P top (Text.trim text) :=
  h.of_pads hP (fun _ hc => (List.not_mem_nil hc).elim) (pads_trim [] text)

theorem nowhere_loose_tidy (h : Nowhere Loose top text) : Nowhere Loose top (tidy text) :=
  nowhere_trim stays_loose (nowhere_loose_tidyFrom (fun _ => rfl) h)

/-- A normal form without symbols of two characters also has none with a gap in it. -/
theorem nowhere_loose_of_not_shows (hquoted : (top.run text).quoted = false)
    (h : ¬ShowsDouble (tidy text)) : Nowhere Loose top (tidy text) := by
  have hgapped : Nowhere Gapped top (tidy text) :=
    nowhere_trim stays_gapped (nowhere_gapped_tidyFrom (fun _ => rfl) text)
  have hdouble := nowhere_double ((run_tidy_quoted text).trans hquoted) h
  refine (hgapped.or hdouble).imp fun rest hloose => ?_
  by_cases hfirst : Double rest
  · exact .inr hfirst
  · exact .inl ⟨hloose, hfirst⟩

end Normal

/-! ### The pieces of a text -/

section Pieces

variable {P : List Char → Prop} {separator text : List Char}

theorem Splits.nowhere {segments : List (List Char)} (hP : Stays P)
    (hseparator : ∀ c ∈ separator, Mark.ofChar c = .neutral) (htext : Nowhere P top text)
    (h : Splits separator top text segments) : ∀ s ∈ segments, Nowhere P top s := by
  generalize hz : top = z at h
  induction h with
  | last =>
    cases hz
    exact List.forall_mem_singleton.mpr htext
  | next hrun _ ih =>
    cases hz
    obtain ⟨hfront, hrest⟩ := htext.append hP
    rw [Zone.run_append, Zone.run_eq_of_run? hrun,
      Zone.run_eq_of_run? (Zone.run?_neutral rfl hseparator)] at hrest
    exact List.forall_mem_cons.mpr ⟨(hfront.append hP).1, ih hrest rfl⟩

theorem nowhere_of_splitAt {segments : List (List Char)} (hP : Stays P)
    (hne : separator ≠ []) (hseparator : ∀ c ∈ separator, Mark.ofChar c = .neutral)
    (htext : Nowhere P top text) (h : splitAt separator text = .ok segments) :
    ∀ s ∈ segments, Nowhere P top s := by
  rcases splitAt_eq_ok hne h with ⟨-, rfl⟩ | ⟨pieces, hpieces, rfl⟩
  · exact fun _ hs => (List.not_mem_nil hs).elim
  · have hbody := htext.of_pads hP hseparator (pads_trimSeparators separator text)
    exact List.forall_mem_map.mpr fun piece hpiece =>
      nowhere_trim hP (hpieces.nowhere hP hseparator hbody piece hpiece)

/-- Neither side of a comparison has what the token has nowhere. -/
theorem Nowhere.sides {extended : Bool} {token key value : List Char} {op : CompareOp}
    (hP : Stays P) (h : Nowhere P top token)
    (hsplit : splitComparison? extended token = some (key, op, value)) :
    Nowhere P top key ∧ Nowhere P top value := by
  obtain ⟨rfl, hkey⟩ := splitComparison?_eq_some hsplit
  obtain ⟨hfront, hvalue⟩ := h.append hP
  rw [Zone.run_append, hkey, Zone.run_eq_of_run? (Zone.run?_neutral rfl op.neutral_symbol)] at hvalue
  exact ⟨(hfront.append hP).1, hvalue⟩

theorem Nowhere.inside {token inner : List Char} {f : Function} (hP : Stays P)
    (h : Nowhere P top token) (hsplit : splitCall? token = some (f, inner)) :
    Nowhere P top inner := by
  obtain ⟨rfl, -⟩ := splitCall?_eq_some.mp hsplit
  obtain ⟨-, hgroup⟩ := h.append hP
  rw [Zone.run_eq_of_run? (Zone.run?_neutral rfl f.neutral_key)] at hgroup
  -- the parenthesis leaves the inside one level deeper, which does not matter
  have hinner : Nowhere P Zone.inGroup inner := (hgroup.2.append hP).1
  exact (nowhere_depth top 1).mp hinner

end Pieces

/-! ### Tokens without the symbols -/

section Tokens

variable {token : List Char}

theorem CompareOp.atStart?_of_not_double {text : List Char} (h : ¬Double text) (extended : Bool) :
    atStart? extended text = atStart? false text := by
  cases text with
  | nil => rfl
  | cons c rest =>
    rw [atStart?, if_neg]
    · rfl
    · intro hlong
      simp only [Bool.and_eq_true, Bool.or_eq_true, decide_eq_true_eq] at hlong
      obtain ⟨⟨-, hhead⟩, hc⟩ := hlong
      exact h ⟨by simpa [or_assoc] using hc, hhead⟩

theorem CompareOp.width_of_atStart? {text : List Char} {op : CompareOp}
    (h : atStart? false text = some op) : op.width = 1 := by
  cases text with
  | nil => cases h
  | cons c rest =>
    rw [atStart?, if_neg (by simp)] at h
    split at h
    · cases h
      rfl
    · split at h
      · cases h
        rfl
      · split at h
        · cases h
          rfl
        · cases h

/-- Both scans of a token find the same, as none of them finds a symbol of two characters. -/
theorem comparisonsFrom_of_nowhere {z : Zone} (h : Nowhere Double z token) (extended : Bool)
    (place : Nat) :
    comparisonsFrom extended z place 0 token = comparisonsFrom false z place 0 token := by
  induction token generalizing z place with
  | nil => rfl
  | cons c rest ih =>
    obtain ⟨hfirst, hrest⟩ := h
    have hstart : (if z = top then CompareOp.atStart? extended (c :: rest) else none) =
        if z = top then CompareOp.atStart? false (c :: rest) else none := by
      split
      · next hz =>
        subst hz
        exact CompareOp.atStart?_of_not_double (hfirst rfl) extended
      · rfl
    rw [comparisonsFrom, comparisonsFrom, hstart]
    split
    · next op hfound =>
      obtain ⟨rfl, hop⟩ : z = top ∧ CompareOp.atStart? false (c :: rest) = some op := by
        split at hfound
        · next hz => exact ⟨hz, hfound⟩
        · cases hfound
      rw [(CompareOp.atStart?_eq_some hop).1] at hrest
      rw [CompareOp.width_of_atStart? hop]
      exact congrArg ((place, op) :: ·) (ih (z := top) hrest (place + 1))
    · exact ih hrest _

theorem splitComparison?_of_nowhere (h : Nowhere Double top token) (extended : Bool) :
    splitComparison? extended token = splitComparison? false token := by
  rw [splitComparison?, splitComparison?, comparisons, comparisons, comparisonsFrom_of_nowhere h]

def withExtended (config : Config) (extended : Bool) : Config :=
  { config with extendedOperators := extended }

theorem ofToken_of_nowhere (h : Nowhere Double top token) (config : Config) :
    Kind.ofToken (withExtended config true) token = Kind.ofToken (withExtended config false) token := by
  have hclaims : Kind.claims (withExtended config true) token =
      Kind.claims (withExtended config false) token := by
    funext kind
    cases kind with
    | comparison => exact congrArg Option.isSome (splitComparison?_of_nowhere h true)
    | root | empty | not | logic | call | quoted | word => rfl
  rw [Kind.ofToken, Kind.ofToken, hclaims]

end Tokens

/-! ### Fragments without the symbols -/

/-- A text that shows no symbol of two characters when it is brought into normal form to be built. -/
def Undoubled (text : List Char) : Prop :=
  (top.run text).quoted = false → Nowhere Loose top (tidy text)

section Fragments

variable {text token : List Char} {parts : List (List Char)}

theorem Undoubled.of_nowhere (h : Nowhere Loose top text) : Undoubled text :=
  fun _ => nowhere_loose_tidy h

theorem undoubled_of_not_shows (h : ∀ normal, normalize text = .ok normal → ¬ShowsDouble normal) :
    Undoubled text :=
  fun hquoted => nowhere_loose_of_not_shows hquoted (h _ (normalize_eq_ok.mpr ⟨hquoted, rfl⟩))

theorem Undoubled.tokens (h : Undoubled text) (hparts : tokens text = .ok parts) :
    ∀ token ∈ parts, Nowhere Loose top token := by
  obtain ⟨hquoted, pieces, hpieces, rfl⟩ := tokens_eq_ok.mp hparts
  have hnowhere := nowhere_of_splitAt stays_loose (List.cons_ne_nil _ _) (by decide) (h hquoted) hpieces
  split
  · exact List.forall_mem_singleton.mpr trivial
  · exact hnowhere

theorem Nowhere.undoubled_sides {extended : Bool} {key value : List Char} {op : CompareOp}
    (h : Nowhere Loose top token)
    (hsplit : splitComparison? extended token = some (key, op, value)) :
    Undoubled key ∧ Undoubled value := by
  obtain ⟨hkey, hvalue⟩ := h.sides stays_loose hsplit
  exact ⟨.of_nowhere hkey, .of_nowhere hvalue⟩

theorem Nowhere.undoubled_args {f : Function} {inner : List Char} {args : List (List Char)}
    (h : Nowhere Loose top token) (hsplit : splitCall? token = some (f, inner))
    (hargs : splitAt [','] inner = .ok args) : ∀ arg ∈ args, Undoubled arg := by
  have hinner := h.inside stays_loose hsplit
  exact fun arg harg => .of_nowhere <|
    nowhere_of_splitAt stays_loose (List.cons_ne_nil _ _) (by decide) hinner hargs arg harg

theorem Fragment.undoubled {config : Config} {query : List Char} (h : Fragment config query text)
    (hquery : Undoubled query) : Undoubled text := by
  induction h with
  | whole => exact hquery
  | key _ hparts htoken hsplit ih => exact ((ih.tokens hparts _ htoken).undoubled_sides hsplit).1
  | value _ hparts htoken hsplit ih => exact ((ih.tokens hparts _ htoken).undoubled_sides hsplit).2
  | argument _ hparts htoken hsplit hargs harg ih =>
    exact (ih.tokens hparts _ htoken).undoubled_args hsplit hargs _ harg

end Fragments

/-! ### Building under both settings -/

section Build

variable {config : Config} {text token : List Char}

/-- A token without the symbols becomes the same item under both settings, if the queries inside of it
become the same trees. -/
theorem pending_of_nowhere {inner inner' : List Char → Except QueryError Built}
    (hinner : ∀ text, Undoubled text → inner text = inner' text) (h : Nowhere Loose top token) :
    pending (withExtended config true) inner token =
      pending (withExtended config false) inner' token := by
  have hdouble : Nowhere Double top token := h.imp fun rest => Double.loose
  have hsymbols : splitComparison? (withExtended config true).extendedOperators token =
      splitComparison? (withExtended config false).extendedOperators token :=
    splitComparison?_of_nowhere hdouble true
  rw [pending, pending, ofToken_of_nowhere hdouble, hsymbols]
  refine bind_congr_ok fun kind _ => ?_
  cases kind with
  | root | empty | not | logic | quoted | word => rfl
  | comparison =>
    dsimp only
    split
    · next key op value hsplit =>
      obtain ⟨hkey, hvalue⟩ := h.undoubled_sides hsplit
      rw [hinner key hkey, hinner value hvalue]
      rfl
    · rfl
  | call =>
    dsimp only
    split
    · next f text hsplit =>
      refine bind_congr_ok fun args hargs => ?_
      rw [mapM_congr fun arg harg => hinner arg (h.undoubled_args hsplit hargs arg harg)]
      rfl
    · rfl

theorem buildFrom_of_undoubled (h : Undoubled text) (levels : Nat) :
    buildFrom (withExtended config true) levels text =
      buildFrom (withExtended config false) levels text := by
  induction levels generalizing text with
  | zero => rfl
  | succ levels ih =>
    rw [buildFrom, buildFrom]
    refine bind_congr_ok fun parts hparts => ?_
    rw [mapM_congr fun token htoken =>
      pending_of_nowhere (fun text htext => ih htext) (h.tokens hparts token htoken)]
    rfl

end Build

/-- If the normal form of a query shows no comparison symbol of two characters outside of its quoted
spans, it makes no difference to the query whether these symbols are known: it has the same tree or the
same error, and so has every fragment of it, on whatever level it is built. -/
theorem build_extended_irrelevant (config : Config) (query : List Char)
    (h : ∀ normal, normalize query = .ok normal → ¬ShowsDouble normal) :
    build (withExtended config true) query = build (withExtended config false) query ∧
    ∀ extended text, Fragment (withExtended config extended) query text → ∀ levels,
      buildFrom (withExtended config true) levels text =
        buildFrom (withExtended config false) levels text := by
  have hquery := undoubled_of_not_shows h
  refine ⟨?_, fun extended text htext => buildFrom_of_undoubled (htext.undoubled hquery)⟩
  exact congrArg (Except.map (·.node)) (buildFrom_of_undoubled hquery _)

/-- The symbol within the quotes of `a=b AND (x < c OR NOT "p>=q")` does not count. -/
theorem build_extended_irrelevant_of_quoted :
    let query := "a=b AND (x < c OR NOT \"p>=q\")".toList
    (∀ normal, normalize query = .ok normal → ¬ShowsDouble normal) ∧
      build (withExtended .standard true) query = build (withExtended .standard false) query ∧
      Fragment (withExtended .standard true) query "x<c OR NOT \"p>=q\"".toList ∧
      ∀ levels, buildFrom (withExtended .standard true) levels "x<c OR NOT \"p>=q\"".toList =
        buildFrom (withExtended .standard false) levels "x<c OR NOT \"p>=q\"".toList := by
  intro query
  have hplain : ∀ normal, normalize query = .ok normal → ¬ShowsDouble normal := by
    rintro normal hnormal ⟨segments, bare, hcut, hmem, hholds⟩
    have hspans : (normalize query).bind Segment.cut =
        .ok [.bare "a=b AND (x<c OR NOT ".toList, .quoted "p>=q".toList, .bare ")".toList] := by
      decide +kernel
    rw [hnormal] at hspans
    cases hcut.symm.trans hspans
    revert hholds
    simp only [List.mem_cons, Segment.bare.injEq, reduceCtorEq, List.not_mem_nil, false_or,
      or_false] at hmem
    rcases hmem with rfl | rfl <;> decide +kernel
  have htokens : tokens query =
      .ok ["a=b".toList, "AND".toList, "(x<c OR NOT \"p>=q\")".toList] := by
    decide +kernel
  have hcall : splitCall? "(x<c OR NOT \"p>=q\")".toList =
      some (.group, "x<c OR NOT \"p>=q\"".toList) := by
    decide +kernel
  have hargs : splitAt [','] "x<c OR NOT \"p>=q\"".toList = .ok ["x<c OR NOT \"p>=q\"".toList] := by
    decide +kernel
  have hfragment : Fragment (withExtended .standard true) query "x<c OR NOT \"p>=q\"".toList :=
    .argument .whole htokens (by simp) hcall hargs List.mem_cons_self
  have hsame := build_extended_irrelevant .standard query hplain
  exact ⟨hplain, hsame.1, hfragment, hsame.2 true _ hfragment⟩

/-- A symbol outside of quotes matters. -/
example : build (withExtended .standard true) "a!=b".toList ≠
    build (withExtended .standard false) "a!=b".toList := by
  decide +kernel

end RowSearch.Query
