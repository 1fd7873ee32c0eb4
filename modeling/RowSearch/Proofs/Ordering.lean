import RowSearch.Query.Eval
/-!
# The order of values

What the four ordering comparisons say of two values is read off one ordering, or off there being
none. It is that of two numbers or that of two texts, and in both cases it turns round when the sides
are swapped. Only numbers can have none: if one of them is not a number, no comparison holds. Texts
are in a linear order, whatever case-folding makes of them.
-/

namespace RowSearch.Query

/-! ### Numbers -/

section Numbers

open Float.Model (UnpackedFloat)

theorem unpacked_compare_swap (x y : UnpackedFloat) :
    y.compare x = (x.compare y).map Ordering.swap := by
  have hmagnitude (e e' : Int) (m m' : Nat) :
      (compare e' e).then (compare m' m) = ((compare e e').then (compare m m')).swap := by
    rw [Ordering.swap_then, ← Std.OrientedOrd.eq_swap, ← Std.OrientedOrd.eq_swap]
  have hsign (s s' : UnpackedFloat.Sign) : compare s' s = (compare s s').swap := by
    cases s <;> cases s' <;> rfl
  cases x with
  | notANumber => cases y <;> rfl
  | infinity s =>
    cases y with
    | notANumber => rfl
    | infinity s' => exact congrArg some (hsign s s')
    | zero _ => cases s <;> rfl
    | finite s' _ _ _ => cases s <;> cases s' <;> rfl
  | zero s =>
    cases y with
    | notANumber => rfl
    | infinity s' => cases s' <;> rfl
    | zero _ => rfl
    | finite s' _ _ _ => cases s' <;> rfl
  | finite s m e _ =>
    cases y with
    | notANumber => rfl
    | infinity s' => cases s <;> cases s' <;> rfl
    | zero _ => cases s <;> rfl
    | finite s' m' e' _ =>
      cases s <;> cases s'
      · exact congrArg (some ·.swap) (hmagnitude e e' m m')
      · rfl
      · rfl
      · exact congrArg some (hmagnitude e e' m m')

theorem isSome_unpacked_compare {x y : UnpackedFloat} (hx : x.isNaN = false) (hy : y.isNaN = false) :
    (x.compare y).isSome = true := by
  cases x with
  | notANumber => cases hx
  | infinity s =>
    cases y with
    | notANumber => cases hy
    | infinity _ | zero _ | finite _ _ _ _ => cases s <;> rfl
  | zero _ =>
    cases y with
    | notANumber => cases hy
    | zero _ => rfl
    | infinity s' | finite s' _ _ _ => cases s' <;> rfl
  | finite s _ _ _ =>
    cases y with
    | notANumber => cases hy
    | zero _ => cases s <;> rfl
    | infinity s' | finite s' _ _ _ => cases s <;> cases s' <;> rfl

theorem unpacked_compare_eq_none {x y : UnpackedFloat} :
    x.compare y = none ↔ x.isNaN = true ∨ y.isNaN = true := by
  constructor
  · intro h
    cases hx : x.isNaN with
    | true => exact .inl rfl
    | false =>
      cases hy : y.isNaN with
      | true => exact .inr rfl
      | false =>
        have hsome := isSome_unpacked_compare hx hy
        rw [h] at hsome
        cases hsome
  · intro h
    rcases h with h | h
    · cases x with
      | notANumber => cases y <;> rfl
      | infinity _ | zero _ | finite _ _ _ _ => cases h
    · cases y with
      | notANumber => cases x <;> rfl
      | infinity _ | zero _ | finite _ _ _ _ => cases h

/-- How two numbers are ordered. There is no order when one of them is not a number. -/
def numberOrder? (x y : Float) : Option Ordering :=
  x.toModel.compare y.toModel

theorem lt_iff_numberOrder? {x y : Float} : x < y ↔ numberOrder? x y = some .lt := by
  show Float.lt x y = true ↔ _
  rw [Float.lt, decide_eq_true_iff]
  exact beq_iff_eq

theorem beq_iff_numberOrder? {x y : Float} : (x == y) = true ↔ numberOrder? x y = some .eq := by
  show (numberOrder? x y == some .eq) = true ↔ _
  exact beq_iff_eq

theorem numberOrder?_swap (x y : Float) : numberOrder? y x = (numberOrder? x y).map .swap :=
  unpacked_compare_swap _ _

theorem numberOrder?_eq_none {x y : Float} :
    numberOrder? x y = none ↔ x.isNaN = true ∨ y.isNaN = true :=
  unpacked_compare_eq_none

/-- The three tests of two numbers find their order. -/
theorem numberOrder?_eq (x y : Float) :
    numberOrder? x y =
      if x < y then some .lt else if x == y then some .eq else if y < x then some .gt else none := by
  simp only [lt_iff_numberOrder?, beq_iff_numberOrder?, numberOrder?_swap x y]
  rcases numberOrder? x y with _ | _ | _ | _ <;> rfl

end Numbers

/-! ### Values -/

section Values

variable {config : Config} {left right : Value}

def textOrder (config : Config) (left right : Value) : Ordering :=
  compare (String.ofList (config.fold left.display.toList))
    (String.ofList (config.fold right.display.toList))

theorem textOrder_swap (config : Config) (left right : Value) :
    textOrder config right left = (textOrder config left right).swap :=
  Std.OrientedOrd.eq_swap

/-- Two values are compared by the numbers that they read as, since one of them is a number. -/
def Numeric (left right : Value) (x y : Float) : Prop :=
  (left.isNumber = true ∨ right.isNumber = true) ∧
    left.asNumber = some x ∧ right.asNumber = some y

theorem Numeric.swap {x y : Float} (h : Numeric left right x y) : Numeric right left y x :=
  ⟨h.1.symm, h.2.2, h.2.1⟩

theorem order?_numeric {x y : Float} (h : Numeric left right x y) :
    order? config left right = numberOrder? x y := by
  obtain ⟨hnumber, hleft, hright⟩ := h
  rw [order?, if_pos (by simpa using hnumber), hleft, hright, numberOrder?_eq]

theorem order?_textual (h : ∀ x y, ¬Numeric left right x y) :
    order? config left right = some (textOrder config left right) := by
  rw [order?]
  split
  · next hnumber =>
    split
    · next x y hleft hright => exact absurd ⟨by simpa using hnumber, hleft, hright⟩ (h x y)
    · rfl
  · rfl

/-- Two values that are compared by numbers of which one is none. -/
def Unordered (left right : Value) : Prop :=
  ∃ x y, Numeric left right x y ∧ (x.isNaN = true ∨ y.isNaN = true)

theorem order?_eq_none : order? config left right = none ↔ Unordered left right := by
  by_cases h : ∃ x y, Numeric left right x y
  · obtain ⟨x, y, hnumeric⟩ := h
    rw [order?_numeric hnumeric, numberOrder?_eq_none]
    constructor
    · exact fun hnan => ⟨x, y, hnumeric, hnan⟩
    · intro h
      obtain ⟨x', y', ⟨-, hleft, hright⟩, hnan⟩ := h
      cases hleft.symm.trans hnumeric.2.1
      cases hright.symm.trans hnumeric.2.2
      exact hnan
  · rw [order?_textual fun x y hnumeric => h ⟨x, y, hnumeric⟩]
    refine iff_of_false (Option.some_ne_none _) ?_
    intro hunordered
    obtain ⟨x, y, hnumeric, -⟩ := hunordered
    exact h ⟨x, y, hnumeric⟩

theorem order?_swap (config : Config) (left right : Value) :
    order? config right left = (order? config left right).map .swap := by
  by_cases h : ∃ x y, Numeric left right x y
  · obtain ⟨x, y, hnumeric⟩ := h
    rw [order?_numeric hnumeric, order?_numeric hnumeric.swap, numberOrder?_swap]
  · rw [order?_textual fun x y hnumeric => h ⟨x, y, hnumeric⟩,
      order?_textual fun x y hnumeric => h ⟨y, x, hnumeric.swap⟩, textOrder_swap]
    rfl

end Values

/-! ### Comparisons -/

def Holds (matcher : Matcher Id) (config : Config) (op : CompareOp) (left right : Value) : Prop :=
  compareBy matcher config op left right = true

def ExactlyOne (p q r : Prop) : Prop :=
  (p ∧ ¬q ∧ ¬r) ∨ (¬p ∧ q ∧ ¬r) ∨ (¬p ∧ ¬q ∧ r)

section Comparisons

variable {matcher : Matcher Id} {config : Config} {left right : Value}

theorem holds_ne : Holds matcher config .ne left right ↔ ¬Holds matcher config .eq left right := by
  show (!(equals matcher config left right : Bool)) = true ↔ ¬(equals matcher config left right = true)
  rw [Bool.not_eq_true', Bool.not_eq_true]

theorem holds_lt : Holds matcher config .lt left right ↔ order? config left right = some .lt :=
  decide_eq_true_iff

theorem holds_gt : Holds matcher config .gt left right ↔ order? config left right = some .gt :=
  decide_eq_true_iff

theorem holds_le :
    Holds matcher config .le left right ↔
      order? config left right = some .lt ∨ order? config left right = some .eq := by
  show (decide _ || decide _) = true ↔ _
  rw [Bool.or_eq_true_iff, decide_eq_true_iff, decide_eq_true_iff]

theorem holds_ge :
    Holds matcher config .ge left right ↔
      order? config left right = some .gt ∨ order? config left right = some .eq := by
  show (decide _ || decide _) = true ↔ _
  rw [Bool.or_eq_true_iff, decide_eq_true_iff, decide_eq_true_iff]

theorem holds_le_text {a b : String} :
    Holds matcher config .le (.text a) (.text b) ↔ (textOrder config (.text a) (.text b)).isLE := by
  have htextual : ∀ x y, ¬Numeric (.text a) (.text b) x y := by
    rintro x y ⟨hnumber, -⟩
    simp [Value.isNumber] at hnumber
  rw [holds_le, order?_textual htextual]
  cases textOrder config (.text a) (.text b) <;> simp

/-- The ordering comparisons of two values agree with one another. They all fail if the values are
compared by numbers of which one is none. Otherwise the left value is smaller, greater or neither, just
one of these; and whatever the values, swapping them turns each comparison round. Between texts the
comparison by `<=` goes on from one to the next. -/
theorem ordering_consistent (matcher : Matcher Id) (config : Config) :
    (∀ left right, Unordered left right →
      ∀ op ∈ [CompareOp.lt, .gt, .le, .ge], ¬Holds matcher config op left right) ∧
    (∀ left right, ¬Unordered left right →
      ExactlyOne (Holds matcher config .lt left right) (Holds matcher config .gt left right)
        (Holds matcher config .le left right ∧ Holds matcher config .ge left right) ∧
      (Holds matcher config .le left right ↔ ¬Holds matcher config .gt left right) ∧
      (Holds matcher config .ge left right ↔ ¬Holds matcher config .lt left right)) ∧
    (∀ left right,
      (Holds matcher config .lt left right ↔ Holds matcher config .gt right left) ∧
      (Holds matcher config .le left right ↔ Holds matcher config .ge right left)) ∧
    ∀ a b c : String, Holds matcher config .le (.text a) (.text b) →
      Holds matcher config .le (.text b) (.text c) → Holds matcher config .le (.text a) (.text c) := by
  refine ⟨fun left right h => ?_, fun left right h => ?_, fun left right => ?_, fun a b c hab hbc => ?_⟩
  · have hnone : order? config left right = none := order?_eq_none.mpr h
    simp [holds_lt, holds_gt, holds_le, holds_ge, hnone]
  · have hsome : order? config left right ≠ none := fun hnone => h (order?_eq_none.mp hnone)
    obtain ⟨order, horder⟩ := Option.ne_none_iff_exists'.mp hsome
    simp only [holds_lt, holds_gt, holds_le, holds_ge, horder]
    cases order <;> simp [ExactlyOne]
  · simp only [holds_lt, holds_gt, holds_le, holds_ge, order?_swap config left right]
    rcases order? config left right with _ | _ | _ | _ <;> simp
  · rw [holds_le_text] at *
    exact Std.TransOrd.isLE_trans hab hbc

/-- The text ` NaN ` is in no order with a number, but it is with another text. -/
theorem ordering_consistent_of_nan :
    Unordered (.text " NaN ") (.number 1.0) ∧ ¬Unordered (.text "NaN") (.text "1") ∧
      ¬Holds plainMatcher .standard .le (.text " NaN ") (.number 1.0) ∧
      ¬Holds plainMatcher .standard .le (.text "NaN") (.text "1") ∧
      Holds plainMatcher .standard .gt (.text "NaN") (.text "1") := by
  have hunordered : Unordered (.text " NaN ") (.number 1.0) :=
    ⟨0.0 / 0.0, 1.0, ⟨.inr rfl, by decide +kernel, rfl⟩, .inl (by decide +kernel)⟩
  have hordered : ¬Unordered (.text "NaN") (.text "1") := by
    rintro ⟨x, y, ⟨hnumber, -⟩, -⟩
    simp [Value.isNumber] at hnumber
  have hgt : Holds plainMatcher .standard .gt (.text "NaN") (.text "1") :=
    holds_gt.mpr (by decide +kernel)
  obtain ⟨hnone, hone, -⟩ := ordering_consistent plainMatcher .standard
  refine ⟨hunordered, hordered, hnone _ _ hunordered .le (by decide), ?_, hgt⟩
  exact fun hle => (hone _ _ hordered).2.1.mp hle hgt

end Comparisons

end RowSearch.Query
