import RowSearch.Proofs.Parts
import RowSearch.Proofs.Token
/-!
# What a token shows

The kind of a token can be told from what it shows at its top. Sides that hide comparison symbols are
the sides of the comparison between them; a token that hides them and is written as a call is that
call, and so on in the order of the kinds. A call hides what stands in its parentheses from everything
that is done to the text around it.
-/

namespace RowSearch.Query

open Text (isBlank Blank Tight)
open Zone (top)

/-! ### Comparisons -/

section Comparisons

variable {extended : Bool}

theorem atStart?_of_not_comparing {c : Char} (h : comparing c = false) (rest : List Char) :
    CompareOp.atStart? extended (c :: rest) = none := by
  simp only [comparing, isComparison, Bool.or_eq_false_iff, decide_eq_false_iff_not,
    beq_eq_false_iff_ne] at h
  obtain ⟨⟨⟨heq, hlt⟩, hgt⟩, hbang⟩ := h
  simp [CompareOp.atStart?, heq, hlt, hgt, hbang]

theorem not_isComparison_of_atStart? {c : Char} {rest : List Char}
    (h : CompareOp.atStart? extended (c :: rest) = none) : isComparison c = false := by
  rw [CompareOp.atStart?] at h
  split_ifs at h with hlong heq hlt hgt
  simp [isComparison, heq, hlt, hgt]

theorem comparisonsFrom_append {z : Zone} {x : List Char} (h : Hides comparing z x) (place : Nat)
    (y : List Char) :
    comparisonsFrom extended z place 0 (x ++ y) =
      comparisonsFrom extended (z.run x) (place + x.length) 0 y := by
  induction x generalizing z place with
  | nil => rfl
  | cons c x ih =>
    have hnone : (if z = top then CompareOp.atStart? extended (c :: (x ++ y)) else none) = none := by
      split
      · next hz => exact atStart?_of_not_comparing (h.1 hz) _
      · rfl
    rw [List.cons_append, comparisonsFrom, hnone, Zone.run_cons, List.length_cons]
    dsimp only
    rw [ih h.2, Nat.add_assoc, Nat.add_comm 1]

theorem comparisonsFrom_of_hides {z : Zone} {text : List Char} (h : Hides comparing z text)
    (place : Nat) : comparisonsFrom extended z place 0 text = [] := by
  conv_lhs => rw [← List.append_nil text]
  rw [comparisonsFrom_append h, comparisonsFrom]

/-- A scan that finds no symbol in a text has seen none at its top. -/
theorem hides_of_comparisonsFrom {z : Zone} {text : List Char} {place : Nat}
    (h : comparisonsFrom extended z place 0 text = []) : Hides isComparison z text := by
  induction text generalizing z place with
  | nil => trivial
  | cons c rest ih =>
    rw [comparisonsFrom] at h
    split at h
    · cases h
    · next hnone =>
      refine ⟨fun hz => ?_, ih h⟩
      rw [if_pos hz] at hnone
      exact not_isComparison_of_atStart? hnone

theorem splitComparison?_of_hides {token : List Char} (h : Hides comparing top token) :
    splitComparison? extended token = none := by
  rw [splitComparison?, comparisons, comparisonsFrom_of_hides h]

/-- A symbol that is known, in front of anything but an equals sign, is read as it is written. -/
theorem atStart?_symbol {op : CompareOp} (hop : extended = true ∨ op = .eq ∨ op = .lt ∨ op = .gt)
    {value : List Char} (hvalue : value.head? ≠ some '=') :
    CompareOp.atStart? extended (op.symbol.toList ++ value) = some op := by
  cases op <;> rcases hop with rfl | hop <;> simp_all [CompareOp.atStart?, CompareOp.symbol]

theorem comparisonsFrom_symbol {op : CompareOp}
    (hop : extended = true ∨ op = .eq ∨ op = .lt ∨ op = .gt) {value : List Char}
    (hvalue : value.head? ≠ some '=') (place : Nat) :
    comparisonsFrom extended top place 0 (op.symbol.toList ++ value) =
      (place, op) :: comparisonsFrom extended top (place + op.width) 0 value := by
  have hstart := atStart?_symbol hop hvalue
  obtain ⟨c, rest, hsymbol⟩ : ∃ c rest, op.symbol.toList = c :: rest := by
    cases op <;> exact ⟨_, _, rfl⟩
  rw [hsymbol, List.cons_append] at hstart
  rw [hsymbol, List.cons_append, comparisonsFrom, if_pos rfl, hstart]
  -- a symbol of two characters is skipped in two steps
  cases op <;> cases hsymbol <;> rfl

/-- A token with one symbol is cut around it. -/
theorem splitComparison?_of_comparisons {key value : List Char} {op : CompareOp}
    (h : comparisons extended (key ++ op.symbol.toList ++ value) = [(key.length, op)]) :
    splitComparison? extended (key ++ op.symbol.toList ++ value) = some (key, op, value) := by
  have hkey : (key ++ op.symbol.toList ++ value).take key.length = key := by
    rw [List.append_assoc, List.take_left]
  have hvalue : (key ++ op.symbol.toList ++ value).drop (key.length + op.width) = value := by
    rw [CompareOp.width, ← List.length_append, List.drop_left]
  rw [splitComparison?, h]
  dsimp only
  rw [hkey, hvalue]

/-- The sides of a comparison are found again when each of them hides comparisons. -/
theorem splitComparison?_of_sides {op : CompareOp}
    (hop : extended = true ∨ op = .eq ∨ op = .lt ∨ op = .gt) {key value : List Char}
    (hkey : Hides comparing top key) (hrun : top.run key = top)
    (hvalue : Hides comparing top value) (hhead : value.head? ≠ some '=') :
    splitComparison? extended (key ++ (op.symbol.toList ++ value)) = some (key, op, value) := by
  rw [← List.append_assoc]
  apply splitComparison?_of_comparisons
  rw [List.append_assoc, comparisons, comparisonsFrom_append hkey, hrun, Nat.zero_add,
    comparisonsFrom_symbol hop hhead, comparisonsFrom_of_hides hvalue]

/-! ### The sides of a comparison -/

/-- A text without symbols of one character at its top has none at all there, as those of two
characters end with an equals sign. -/
theorem comparisonsFrom_eq_nil {z : Zone} {text : List Char} (h : Hides isComparison z text)
    (place : Nat) : comparisonsFrom extended z place 0 text = [] := by
  induction text generalizing z place with
  | nil => rfl
  | cons c rest ih =>
    obtain ⟨hc, hrest⟩ := h
    have hnone : (if z = top then CompareOp.atStart? extended (c :: rest) else none) = none := by
      split
      · next hz =>
        subst hz
        have hsymbol := hc rfl
        simp only [isComparison, Bool.or_eq_false_iff, decide_eq_false_iff_not] at hsymbol
        obtain ⟨⟨heq, hlt⟩, hgt⟩ := hsymbol
        have hlong : ¬(rest.head? = some '=' ∧ c = '!') := by
          rintro ⟨hhead, rfl⟩
          obtain ⟨after, rfl⟩ := List.head?_eq_some_iff.mp hhead
          exact absurd (hrest.1 rfl) (by decide)
        simp only [CompareOp.atStart?, heq, hlt, hgt]
        simpa using fun _ hhead hbang => hlong ⟨hhead, hbang⟩
      · rfl
    rw [comparisonsFrom, hnone]
    exact ih hrest _

theorem comparisonsFrom_skip (z : Zone) (place skip : Nat) (text : List Char) :
    comparisonsFrom extended z place skip text =
      comparisonsFrom extended z (place + skip) 0 (text.drop skip) := by
  induction skip generalizing place text with
  | zero => rfl
  | succ skip ih =>
    cases text with
    | nil => rfl
    | cons c rest =>
      rw [comparisonsFrom, ih, List.drop_succ_cons, Nat.add_assoc, Nat.add_comm 1]

/-- In front of the first symbol that a scan finds there is none at the top, and behind it there are
those that it finds further on. -/
theorem exists_first_of_comparisonsFrom {z : Zone} {start place : Nat} {text : List Char}
    {op : CompareOp} {others : List (Nat × CompareOp)}
    (h : comparisonsFrom extended z start 0 text = (place, op) :: others) :
    ∃ before c after, text = before ++ c :: after ∧ place = start + before.length ∧
      Hides isComparison z before ∧
      comparisonsFrom extended top (place + 1) (op.width - 1) after = others := by
  induction text generalizing z start with
  | nil => cases h
  | cons c rest ih =>
    rw [comparisonsFrom] at h
    split at h
    · next found hfound =>
      split at hfound
      · next hz =>
        obtain ⟨hfirst, hothers⟩ := List.cons.inj h
        cases hfirst
        subst hz
        exact ⟨[], c, rest, rfl, rfl, trivial, hothers⟩
      · cases hfound
    · next hnone =>
      obtain ⟨before, d, after, rfl, rfl, hbefore, hothers⟩ := ih h
      refine ⟨c :: before, d, after, rfl, by rw [List.length_cons]; omega, ⟨fun hz => ?_, hbefore⟩, hothers⟩
      rw [if_pos hz] at hnone
      exact not_isComparison_of_atStart? hnone

/-- Neither side of a comparison has a symbol at its top. -/
theorem hides_of_splitComparison? {token key value : List Char} {op : CompareOp}
    (h : splitComparison? extended token = some (key, op, value)) :
    Hides isComparison top key ∧ Hides isComparison top value := by
  rw [splitComparison?] at h
  split at h
  · next place found hfound =>
    cases h
    obtain ⟨before, c, after, rfl, hplace, hbefore, hothers⟩ := exists_first_of_comparisonsFrom hfound
    have hwidth : 1 ≤ op.width := by cases op <;> decide
    rw [Nat.zero_add] at hplace
    rw [comparisonsFrom_skip] at hothers
    have hvalue : (before ++ c :: after).drop (place + op.width) = after.drop (op.width - 1) := by
      rw [hplace, ← List.drop_drop, List.drop_left]
      obtain ⟨n, hn⟩ := Nat.exists_eq_succ_of_ne_zero (Nat.ne_of_gt hwidth)
      rw [hn]
      rfl
    rw [hplace, List.take_left, ← hplace, hvalue]
    exact ⟨hbefore, hides_of_comparisonsFrom hothers⟩
  · cases h

end Comparisons

/-! ### Kinds -/

section Kinds

variable {config : Config} {token : List Char}

/-- A token that is no keyword and not empty. -/
structure Proper (token : List Char) : Prop where
  ne_nil : token ≠ []
  ne_not : token ≠ "NOT".toList
  ne_keyword : ∀ op : LogicOp, token ≠ op.keyword.toList

theorem Proper.of_mem {c : Char} (h : c ∈ token) (hc : c ∉ "NOTANDOR".toList) : Proper token where
  ne_nil := by
    intro heq
    subst heq
    exact List.not_mem_nil h
  ne_not := by
    intro heq
    subst heq
    exact hc (List.mem_append_left _ h)
  ne_keyword := by
    intro op heq
    subst heq
    refine hc (List.mem_append_right "NOT".toList ?_)
    cases op with
    | and => exact List.mem_append_left "OR".toList h
    | or => exact List.mem_append_right "AND".toList h

/-- The kinds that are left for a token that is no keyword. -/
theorem Kind.find?_of_proper (h : Proper token) :
    order.find? (claims config token) =
      [comparison, call, quoted, word].find? (claims config token) := by
  have hempty : claims config token .empty = false := by
    rw [claims]
    simpa using h.ne_nil
  have hnot : claims config token .not = false := decide_eq_false h.ne_not
  have hlogic : claims config token .logic = false := by
    rw [claims, Option.isSome_eq_false_iff, Option.isNone_iff_eq_none]
    by_contra hsome
    obtain ⟨op, hop⟩ := Option.ne_none_iff_exists'.mp hsome
    exact h.ne_keyword op (LogicOp.ofToken?_eq_some.mp hop).symm
  have hroot : claims config token .root = false := rfl
  rw [order, List.find?_cons_of_neg (by simp [hroot]),
    List.find?_cons_of_neg (by simp [hempty]), List.find?_cons_of_neg (by simp [hnot]),
    List.find?_cons_of_neg (by simp [hlogic])]

theorem Kind.not_claims_comparison (h : Hides comparing top token) :
    claims config token .comparison = false := by
  rw [claims, splitComparison?_of_hides h]
  rfl

theorem Kind.not_claims_call (h : splitCall? token = none) : claims config token .call = false := by
  rw [claims, h]
  rfl

theorem Kind.ofToken_comparison (h : Proper token) {parts : List Char × CompareOp × List Char}
    (hsplit : splitComparison? config.extendedOperators token = some parts) :
    ofToken config token = .ok .comparison := by
  have hclaims : claims config token .comparison = true := by rw [claims, hsplit]; rfl
  rw [ofToken_eq_ok, find?_of_proper h, List.find?_cons_of_pos hclaims]

theorem Kind.ofToken_call (h : Proper token) (hhides : Hides comparing top token)
    {call : Function × List Char} (hsplit : splitCall? token = some call) :
    ofToken config token = .ok .call := by
  have hclaims : claims config token .call = true := by rw [claims, hsplit]; rfl
  rw [ofToken_eq_ok, find?_of_proper h,
    List.find?_cons_of_neg (by simp [not_claims_comparison hhides]),
    List.find?_cons_of_pos hclaims]

theorem Kind.ofToken_quoted (h : Proper token) (hhides : Hides comparing top token)
    (hcall : splitCall? token = none) {text : List Char} (htext : unquote? token = some text) :
    ofToken config token = .ok .quoted := by
  have hclaims : claims config token .quoted = true := by rw [claims, htext]; rfl
  rw [ofToken_eq_ok, find?_of_proper h,
    List.find?_cons_of_neg (by simp [not_claims_comparison hhides]),
    List.find?_cons_of_neg (by simp [not_claims_call hcall]), List.find?_cons_of_pos hclaims]

theorem Kind.ofToken_word (h : Proper token) (hhides : Hides comparing top token)
    (hcall : splitCall? token = none) (hquote : unquote? token = none)
    (hblank : hasTopBlank token = false) : ofToken config token = .ok .word := by
  have hnoquote : claims config token .quoted = false := by rw [claims, hquote]; rfl
  have hclaims : claims config token .word = true := by
    rw [claims, hblank]
    simpa using h.ne_nil
  rw [ofToken_eq_ok, find?_of_proper h,
    List.find?_cons_of_neg (by simp [not_claims_comparison hhides]),
    List.find?_cons_of_neg (by simp [not_claims_call hcall]),
    List.find?_cons_of_neg (by simp [hnoquote]), List.find?_cons_of_pos hclaims]

theorem reads_not {build : List Char → Except QueryError Built} :
    Reads config build "NOT".toList .not :=
  .not rfl

theorem reads_keyword {build : List Char → Except QueryError Built} (op : LogicOp) :
    Reads config build op.keyword.toList (.logic op) :=
  .logic (by cases op <;> rfl) (LogicOp.ofToken?_eq_some.mpr rfl)

end Kinds

/-! ### Groups and calls -/

section Calls

variable {config : Config} {inner : List Char} {f : Function}

def callText (f : Function) (inner : List Char) : List Char :=
  f.key.toList ++ '(' :: (inner ++ [')'])

theorem splitCall?_callText (h : top.run? inner = some top) :
    splitCall? (callText f inner) = some (f, inner) :=
  splitCall?_eq_some.mpr ⟨rfl, h⟩

theorem run?_of_closed {text : List Char} (h : top.run? text = some top) (d : Nat) :
    (⟨d, false, false⟩ : Zone).run? text = some ⟨d, false, false⟩ := by
  induction d with
  | zero => exact h
  | succ d ih => exact Zone.run?_deeper ih

theorem run?_callText (h : top.run? inner = some top) (f : Function) (d : Nat) :
    (⟨d, false, false⟩ : Zone).run? (callText f inner) = some ⟨d, false, false⟩ := by
  have hopen : (⟨d, false, false⟩ : Zone).step? (Mark.ofChar '(') = some ⟨d + 1, false, false⟩ :=
    Zone.step?_of_ne_closing (by decide)
  have hclose : (⟨d + 1, false, false⟩ : Zone).step? (Mark.ofChar ')') = some ⟨d, false, false⟩ :=
    Zone.step?_of_ne_top (Zone.deeper_ne_top ⟨d, false, false⟩)
  rw [callText, Zone.run?_append, Zone.run?_neutral rfl f.neutral_key, Option.bind_some,
    Zone.run?_cons, hopen, Option.bind_some, Zone.run?_append, run?_of_closed h, Option.bind_some,
    Zone.run?_cons, hclose]
  rfl

/-- A call shows its key and the parenthesis behind it, and nothing else. -/
theorem hides_callText {p : Char → Bool} (h : top.run? inner = some top)
    (hkey : ∀ c ∈ f.key.toList, p c = false) (hopening : p '(' = false) :
    Hides p top (callText f inner) := by
  have hopen : top.step (Mark.ofChar '(') = top.deeper := rfl
  rw [callText, hides_append, Zone.run_eq_of_run? (Zone.run?_neutral rfl f.neutral_key)]
  refine ⟨.of_forall hkey, fun _ => hopening, ?_⟩
  rw [hopen, hides_append, Zone.run_eq_of_run? (Zone.run?_deeper h)]
  exact ⟨hides_deeper h, fun hz => absurd hz (Zone.deeper_ne_top top), trivial⟩

theorem proper_callText (f : Function) (inner : List Char) : Proper (callText f inner) :=
  .of_mem (List.mem_append_right _ List.mem_cons_self) (by decide)

theorem hides_comparing_callText (h : top.run? inner = some top) (f : Function) :
    Hides comparing top (callText f inner) :=
  hides_callText h (by cases f <;> decide) (by decide)

theorem Kind.ofToken_callText (h : top.run? inner = some top) (f : Function) :
    ofToken config (callText f inner) = .ok .call :=
  ofToken_call (proper_callText f inner) (hides_comparing_callText h f) (splitCall?_callText h)

theorem firm_callText (f : Function) (inner : List Char) : Firm (callText f inner) :=
  ⟨f.key.toList ++ '(' :: inner, ')', by simp [callText], by decide, by decide, by decide⟩

/-- A call is laid out by laying out what stands in its parentheses. -/
theorem tidyFrom_callText (f : Function) (inner : List Char) (d : Nat) (glue : Bool) :
    tidyFrom ⟨d, false, false⟩ glue (callText f inner) =
      callText f (tidyFrom top false inner) := by
  have hfirm : Firm (f.key.toList ++ ['(']) :=
    ⟨f.key.toList, '(', rfl, by decide, by decide, by decide⟩
  have hkey : ∀ c ∈ f.key.toList ++ ['('], isBlank c = false := by cases f <;> decide
  have hrun : (⟨d, false, false⟩ : Zone).run (f.key.toList ++ ['(']) = ⟨d + 1, false, false⟩ := by
    rw [Zone.run_append, Zone.run_eq_of_run? (Zone.run?_neutral rfl f.neutral_key)]
    rfl
  have hinner : tidyFrom ⟨d + 1, false, false⟩ false inner = tidyFrom top false inner :=
    tidyFrom_depth top (d + 1) false inner
  have happart : Apart inner [')'] := apart_of_not_startsComparison (by decide) inner
  have hshape (body : List Char) : callText f body = (f.key.toList ++ ['(']) ++ (body ++ [')']) := by
    simp only [callText, List.append_assoc, List.singleton_append]
  have hclose (z : Zone) (glue : Bool) : tidyFrom z glue [')'] = [')'] :=
    tidyFrom_of_not_blank (by decide) z glue
  rw [hshape, tidyFrom_firm_append hfirm, tidyFrom_of_not_blank hkey, hrun, tidyFrom_append happart,
    hinner, hclose, ← hshape]

theorem solid_callText (h : top.run? inner = some top) (f : Function) :
    Solid ' ' (callText f inner) where
  run := run?_callText h f 0
  hides := hides_callText h (by cases f <;> decide) (by decide)
  first := by
    cases f with
    | abs => exact ⟨'a', _, rfl, by decide, by decide⟩
    | group => exact ⟨'(', _, rfl, by decide, by decide⟩
  last := ⟨f.key.toList ++ '(' :: inner, ')', by simp [callText], by decide, by decide⟩

theorem reads_callText {build : List Char → Except QueryError Built} {arg : List Char}
    (h : top.run? inner = some top) (harg : splitAt [','] inner = .ok [arg]) {item : Pending} :
    Reads config build (callText f inner) item ↔
      ∃ built, build arg = .ok built ∧ item = .term ⟨.call f [built.node], built.height + 1⟩ ∧
        built.height + 1 ≤ heightLimit config := by
  have hkind : Kind.ofToken config (callText f inner) = .ok .call := Kind.ofToken_callText h f
  have htallest (built : Built) : tallest [built] = built.height := Nat.max_eq_right (Nat.zero_le _)
  constructor
  · intro hreads
    cases hreads with
    | call _ hsplit hparts hargs _ hheight =>
      cases hsplit.symm.trans (splitCall?_callText h)
      cases hparts.symm.trans harg
      obtain ⟨built, _, hbuilt, hnil, rfl⟩ := List.forall₂_cons_left_iff.mp hargs
      cases hnil
      rw [htallest] at hheight
      rw [htallest]
      exact ⟨built, hbuilt, rfl, hheight⟩
    | empty hother => cases hkind.symm.trans hother
    | not hother => cases hkind.symm.trans hother
    | logic hother => cases hkind.symm.trans hother
    | comparison hother => cases hkind.symm.trans hother
    | quoted hother => cases hkind.symm.trans hother
    | word hother => cases hkind.symm.trans hother
  · intro h
    obtain ⟨built, hbuilt, rfl, hheight⟩ := h
    rw [← htallest built]
    refine .call hkind (splitCall?_callText h) harg (.cons hbuilt .nil) ?_ ?_
    · cases f <;> rfl
    · rw [htallest]
      exact hheight

end Calls

end RowSearch.Query
