import RowSearch.Proofs.Atoms
import RowSearch.Proofs.Juxtaposition
import RowSearch.Proofs.Structure
/-!
# The sides of a comparison

A token is cut at the only comparison symbol at its top. Scanned by themselves, the two sides show no
symbol. The other way round, texts that show none are the sides of the comparison between them, unless
the first of them leaves something open that hides the symbol, or ends with a mark that makes a longer
symbol of it.

The scan looks one character ahead, and this is all that a text behind the one that is scanned can
change: what shows no symbol by itself shows none in front of other text, except at the last character.
-/

namespace RowSearch.Query

open Zone (top)

/-! ### Closed texts -/

/-- A text in which every quote has the one that ends its span, and every opening parenthesis the one
that closes its group. Parentheses that close nothing do not count, and a backslash may be left over. -/
inductive Closed : List Char → Prop
  | nil : Closed []
  | dangling : Closed ['\\']
  | escape (c : Char) {rest : List Char} : Closed rest → Closed ('\\' :: c :: rest)
  | quoted {body rest : List Char} :
    QuoteBody body → Closed rest → Closed ('"' :: (body ++ '"' :: rest))
  | group {body rest : List Char} :
    Atoms body → Closed rest → Closed ('(' :: (body ++ ')' :: rest))
  | plain {c : Char} {rest : List Char} :
    c ≠ '\\' → c ≠ '"' → c ≠ '(' → Closed rest → Closed (c :: rest)

theorem run_group {body : List Char} (h : Atoms body) (rest : List Char) :
    top.run ('(' :: (body ++ ')' :: rest)) = top.run rest := by
  have hopen : top.step (Mark.ofChar '(') = top.deeper := rfl
  have hclose : top.deeper.step (Mark.ofChar ')') = top := rfl
  rw [Zone.run_cons, hopen, Zone.run_append, Zone.run_eq_of_run? (Zone.run?_deeper h.run?),
    Zone.run_cons, hclose]

theorem step_top_plain {c : Char} (hescape : c ≠ '\\') (hquote : c ≠ '"') (hopening : c ≠ '(') :
    top.step (Mark.ofChar c) = top := by
  cases hc : Mark.ofChar c with
  | escape => exact absurd (Mark.ofChar_eq_escape.mp hc) hescape
  | quote => exact absurd (Mark.ofChar_eq_quote.mp hc) hquote
  | opening => exact absurd (Mark.ofChar_eq_opening.mp hc) hopening
  | closing => rfl
  | neutral => rfl

theorem Closed.settled {text : List Char} (h : Closed text) : (top.run text).Settled := by
  induction h with
  | nil => exact ⟨rfl, rfl⟩
  | dangling => exact ⟨rfl, rfl⟩
  | escape c _ ih =>
    rw [Zone.run_escape rfl]
    exact ih
  | quoted hbody _ ih =>
    rw [top, run_span hbody]
    exact ih
  | group hbody _ ih =>
    rw [run_group hbody]
    exact ih
  | plain hescape hquote hopening _ ih =>
    rw [Zone.run_cons, step_top_plain hescape hquote hopening]
    exact ih

/-- A scan stands at the top behind a closed text that does not end with a backslash of its own. -/
theorem Closed.run_eq {text : List Char} (h : Closed text) (hend : dangles text = false) :
    top.run text = top := by
  obtain ⟨hdepth, hquoted⟩ := h.settled
  have hescaped : (top.run text).escaped = false := (run_escaped rfl text).trans hend
  generalize top.run text = z at hdepth hquoted hescaped
  obtain ⟨d, q, e⟩ := z
  cases hdepth
  cases hquoted
  cases hescaped
  rfl

/-! ### Symbols at a joint -/

section Joint

variable {extended : Bool}

/-- More text makes a symbol of no character but of a last exclamation mark. -/
theorem atStart?_append {c : Char} {rest more : List Char}
    (h : CompareOp.atStart? extended (c :: rest) = none)
    (hjoint : extended = true → (c :: rest).getLast? = some '!' → more.head? ≠ some '=') :
    CompareOp.atStart? extended (c :: (rest ++ more)) = none := by
  cases rest with
  | cons d rest =>
    rw [CompareOp.atStart?] at h ⊢
    exact h
  | nil =>
    have hc := not_isComparison_of_atStart? h
    simp only [isComparison, Bool.or_eq_false_iff, decide_eq_false_iff_not] at hc
    obtain ⟨⟨heq, hlt⟩, hgt⟩ := hc
    have hbang : ¬(extended = true ∧ more.head? = some '=' ∧ c = '!') := by
      rintro ⟨hextended, hhead, rfl⟩
      exact hjoint hextended rfl hhead
    simpa [CompareOp.atStart?, heq, hlt, hgt] using hbang

/-- What shows no symbol is passed over by a scan of more text, if the joint makes none. -/
theorem comparisonsFrom_joint {z : Zone} {text more : List Char} {place : Nat}
    (h : comparisonsFrom extended z place 0 text = [])
    (hjoint : extended = true → text.getLast? = some '!' → more.head? ≠ some '=') :
    comparisonsFrom extended z place 0 (text ++ more) =
      comparisonsFrom extended (z.run text) (place + text.length) 0 more := by
  induction text generalizing z place with
  | nil => rfl
  | cons c rest ih =>
    rw [comparisonsFrom] at h
    split at h
    · cases h
    · next hnone =>
      have hfirst : (if z = top then CompareOp.atStart? extended (c :: (rest ++ more)) else none) = none := by
        split
        · next hz =>
          rw [if_pos hz] at hnone
          exact atStart?_append hnone hjoint
        · rfl
      have hrest : extended = true → rest.getLast? = some '!' → more.head? ≠ some '=' := by
        intro hextended hlast
        apply hjoint hextended
        rw [List.getLast?_cons, hlast]
        rfl
      rw [List.cons_append, comparisonsFrom, hfirst, Zone.run_cons, List.length_cons]
      dsimp only
      rw [ih h hrest, Nat.add_assoc, Nat.add_comm 1]

/-- Whether a text shows a symbol does not depend on where its places are counted from. -/
theorem comparisonsFrom_of_comparisons {text : List Char} (h : comparisons extended text = [])
    (place : Nat) : comparisonsFrom extended top place 0 text = [] :=
  comparisonsFrom_eq_nil (hides_of_comparisonsFrom h) place

theorem head?_ne_of_comparisons {text : List Char} (h : comparisons extended text = []) :
    text.head? ≠ some '=' := by
  intro hhead
  obtain ⟨rest, rfl⟩ := List.head?_eq_some_iff.mp hhead
  have hnone : isComparison '=' = false := (hides_of_comparisonsFrom h).1 rfl
  cases hnone

end Joint

/-! ### Cutting -/

/-- Two texts that can be the sides of a comparison: neither shows a symbol, and the key neither hides
the symbol between them, by leaving something open, nor makes a longer one of it. -/
structure Sides (extended : Bool) (key : List Char) (op : CompareOp) (value : List Char) : Prop where
  known : extended = true ∨ op = .eq ∨ op = .lt ∨ op = .gt
  inKey : comparisons extended key = []
  inValue : comparisons extended value = []
  closed : Closed key
  undangling : dangles key = false
  apart : extended = true → op = .eq → key.getLast? ≠ some '!'

section Cut

variable {extended : Bool} {token key value : List Char} {op : CompareOp}

theorem Sides.comparisons_eq (h : Sides extended key op value) :
    comparisons extended (key ++ op.symbol.toList ++ value) = [(key.length, op)] := by
  have hjoint : extended = true → key.getLast? = some '!' →
      (op.symbol.toList ++ value).head? ≠ some '=' := by
    intro hextended hlast
    cases op with
    | eq => exact absurd hlast (h.apart hextended rfl)
    | ne | lt | gt | le | ge => exact nofun
  rw [List.append_assoc, comparisons, comparisonsFrom_joint h.inKey hjoint,
    h.closed.run_eq h.undangling, comparisonsFrom_symbol h.known (head?_ne_of_comparisons h.inValue),
    comparisonsFrom_of_comparisons h.inValue, Nat.zero_add]

theorem comparisons_of_splitComparison? (h : splitComparison? extended token = some (key, op, value)) :
    comparisons extended token = [(key.length, op)] := by
  rw [splitComparison?] at h
  split at h
  · next place found hfound =>
    cases h
    obtain ⟨before, c, after, rfl, hplace, -⟩ := exists_first_of_comparisonsFrom hfound
    have hlength : ((before ++ c :: after).take place).length = place := by
      rw [List.length_take, List.length_append]
      omega
    rw [hfound, hlength]
  · cases h

/-- A token is cut into two sides just at its only symbol: the sides that are found show none, and any
two texts that can be the sides of a comparison are found again. What the value leaves open does not
matter, and it does not start with an equals sign, as that would be a symbol of its own. -/
theorem splitComparison?_cuts (extended : Bool) :
    (∀ token key op value, splitComparison? extended token = some (key, op, value) →
      token = key ++ op.symbol.toList ++ value ∧ comparisons extended token = [(key.length, op)] ∧
        comparisons extended key = [] ∧ comparisons extended value = []) ∧
    ∀ key op value, Sides extended key op value →
      splitComparison? extended (key ++ op.symbol.toList ++ value) = some (key, op, value) := by
  constructor
  · intro token key op value h
    obtain ⟨hkey, hvalue⟩ := hides_of_splitComparison? h
    exact ⟨(splitComparison?_eq_some h).1, comparisons_of_splitComparison? h,
      comparisonsFrom_eq_nil hkey 0, comparisonsFrom_eq_nil hvalue 0⟩
  · intro key op value h
    exact splitComparison?_of_comparisons h.comparisons_eq

/-- A key with symbols in a group, in quotes and behind a backslash, and a value that leaves a quote
open. -/
theorem splitComparison?_cuts_of_hidden_symbols :
    Sides true "f(=\")\")\\>".toList .ge "!\"=".toList ∧
      splitComparison? true "f(=\")\")\\>>=!\"=".toList =
        some ("f(=\")\")\\>".toList, .ge, "!\"=".toList) ∧
      comparisons true "!\"=".toList = [] := by
  have hbody : QuoteBody [')'] := .plain (by decide) (by decide) .nil
  have hquoted : Atoms ('"' :: ([')'] ++ ['"'])) := .quoted hbody .nil
  have hinside : Atoms "=\")\"".toList := .plain (by decide) (by decide) (by decide) (by decide) hquoted
  have hbehind : Closed "\\>".toList := .escape '>' .nil
  have hgroup : Closed ('(' :: ("=\")\"".toList ++ ')' :: "\\>".toList)) := .group hinside hbehind
  have hclosed : Closed "f(=\")\")\\>".toList := .plain (by decide) (by decide) (by decide) hgroup
  have hsides : Sides true "f(=\")\")\\>".toList .ge "!\"=".toList :=
    ⟨.inl rfl, by decide, by decide, hclosed, by decide, nofun⟩
  obtain ⟨hsound, hfound⟩ := splitComparison?_cuts true
  have hcut := hfound _ _ _ hsides
  exact ⟨hsides, hcut, (hsound _ _ _ _ hcut).2.2.2⟩

end Cut

end RowSearch.Query
