import RowSearch.Proofs.Notation
/-!
# The intervals of doubles

A number rounds to one double only: the intervals of two doubles have nothing in common. Where two of
them meet, the end belongs to the even one of the two mantissas, and at a power of two the lower neighbour
is nearer, so that its interval still ends where the next one begins. What is written for a double lies in
its interval, so it is written for no other.
-/

namespace RowSearch.Number

/-! ### Doubles -/

/-- The mantissa and the exponent of a positive double. Only the smallest exponent goes with a mantissa
of fewer than 53 bits. -/
structure Canonical (m : Nat) (e : Int) : Prop where
  pos : 0 < m
  lt : m < 2 ^ 53
  least : -1074 ≤ e
  normal : 2 ^ 52 ≤ m ∨ e = -1074

/-- A quarter of the distance between doubles of an exponent, in the unit of their intervals. -/
def quarter (e : Int) : Nat :=
  Nat.pow 2 (e + 1074).toNat * Nat.pow 5 unitPlaces

theorem quarter_eq (e : Int) : quarter e = 2 ^ (e + 1074).toNat * 5 ^ unitPlaces := by
  rw [quarter, Nat.pow_eq, Nat.pow_eq]

theorem quarter_pos (e : Int) : 0 < quarter e := by
  rw [quarter_eq]
  exact Nat.mul_pos (Nat.pow_pos (by decide)) (Nat.pow_pos (by decide))

/-- From one exponent to a greater one the distance doubles at least once. -/
theorem exists_quarter_eq {e e' : Int} (hleast : -1074 ≤ e) (hlt : e < e') :
    ∃ r, 0 < r ∧ quarter e' = 2 * r * quarter e := by
  refine ⟨2 ^ ((e' - e).toNat - 1), Nat.pow_pos (by decide), ?_⟩
  have hexponent : (e' + 1074).toNat = 1 + ((e' - e).toNat - 1) + (e + 1074).toNat := by omega
  rw [quarter_eq, quarter_eq, hexponent, Nat.pow_add, Nat.pow_add, Nat.pow_one, Nat.mul_assoc]

/-- How many quarters the interval of a double goes down. -/
def below (m : Nat) (e : Int) : Nat :=
  if m = 2 ^ 52 ∧ -1074 < e then 1 else 2

theorem below_bounds (m : Nat) (e : Int) : 1 ≤ below m e ∧ below m e ≤ 2 := by
  rw [below]
  split
  · decide
  · decide

namespace Interval

variable {i : Interval} {n m m' : Nat} {e e' : Int}

/-! ### What an interval contains -/

theorem bounds_of_contains (h : i.contains n = true) : i.low ≤ n ∧ n ≤ i.high := by
  rw [contains] at h
  split at h
  · simpa using h
  · simp at h
    omega

theorem bounds_of_open (hclosed : i.closed = false) (h : i.contains n = true) :
    i.low < n ∧ n < i.high := by
  simpa [contains, hclosed] using h

theorem contains_of_between (hlow : i.low < n) (hhigh : n < i.high) : i.contains n = true := by
  rw [contains]
  split
  · simpa using ⟨hlow.le, hhigh.le⟩
  · simpa using ⟨hlow, hhigh⟩

theorem low_ofBinary (m : Nat) (e : Int) :
    (ofBinary m e).low = (4 * m - below m e) * quarter e :=
  rfl

theorem high_ofBinary (m : Nat) (e : Int) : (ofBinary m e).high = (4 * m + 2) * quarter e :=
  rfl

theorem value_ofBinary (m : Nat) (e : Int) : (ofBinary m e).value = 4 * m * quarter e :=
  rfl

theorem closed_ofBinary (m : Nat) (e : Int) : (ofBinary m e).closed = true ↔ m % 2 = 0 :=
  beq_iff_eq

theorem contains_value (h : Canonical m e) : (ofBinary m e).contains (ofBinary m e).value = true := by
  have hbelow := below_bounds m e
  have hpos := h.pos
  apply contains_of_between
  · rw [low_ofBinary, value_ofBinary]
    exact Nat.mul_lt_mul_of_pos_right (by omega) (quarter_pos e)
  · rw [high_ofBinary, value_ofBinary]
    exact Nat.mul_lt_mul_of_pos_right (by omega) (quarter_pos e)

/-! ### Intervals are apart -/

/-- In quarters of the smaller of the two distances, the interval of a double ends before that of a greater
one begins. It ends earlier still if both ends belong to their intervals. -/
theorem ends_before (h : Canonical m e) (h' : Canonical m' e') (hlt : e < e' ∨ e = e' ∧ m < m') :
    (ofBinary m e).high ≤ (ofBinary m' e').low ∧
      (m % 2 = 0 → m' % 2 = 0 → (ofBinary m e).high < (ofBinary m' e').low) := by
  have hquarter := quarter_pos e
  have hsize := h.lt
  obtain ⟨scale, hscale, hends, hapart⟩ : ∃ scale, quarter e' = scale * quarter e ∧
      4 * m + 2 ≤ (4 * m' - below m' e') * scale ∧
      (m % 2 = 0 → m' % 2 = 0 → 4 * m + 2 < (4 * m' - below m' e') * scale) := by
    rcases hlt with hexponent | ⟨rfl, hmantissa⟩
    · obtain ⟨r, hr, hscale⟩ := exists_quarter_eq h.least hexponent
      have hleast := h.least
      have hnormal : 2 ^ 52 ≤ m' := h'.normal.resolve_right (by omega)
      -- The lowest of all doubles with a greater exponent is a power of two.
      have hlow : 2 ^ 54 - 1 ≤ 4 * m' - below m' e' := by
        rw [below]
        split <;> omega
      have hgrow : 4 * m' - below m' e' ≤ (4 * m' - below m' e') * r := Nat.le_mul_of_pos_right _ hr
      have hproduct : (4 * m' - below m' e') * (2 * r) = 2 * ((4 * m' - below m' e') * r) := by ring
      exact ⟨2 * r, hscale, by omega, by omega⟩
    · have hbelow := below_bounds m' e
      exact ⟨1, (Nat.one_mul _).symm, by omega, by omega⟩
  rw [high_ofBinary, low_ofBinary, hscale, ← Nat.mul_assoc]
  exact ⟨Nat.mul_le_mul_right _ hends,
    fun heven heven' => Nat.mul_lt_mul_of_pos_right (hapart heven heven') hquarter⟩

theorem not_contains_both (h : Canonical m e) (h' : Canonical m' e')
    (hlt : e < e' ∨ e = e' ∧ m < m') (hn : (ofBinary m e).contains n = true)
    (hn' : (ofBinary m' e').contains n = true) : False := by
  obtain ⟨hends, hapart⟩ := ends_before h h' hlt
  have hhigh := (bounds_of_contains hn).2
  have hlow := (bounds_of_contains hn').1
  cases hclosed : (ofBinary m e).closed with
  | false =>
    have hhigh := (bounds_of_open hclosed hn).2
    omega
  | true =>
    cases hclosed' : (ofBinary m' e').closed with
    | false =>
      have hlow := (bounds_of_open hclosed' hn').1
      omega
    | true =>
      have hends := hapart ((closed_ofBinary m e).mp hclosed) ((closed_ofBinary m' e').mp hclosed')
      omega

/-- A number lies in the interval of one double only. -/
theorem eq_of_contains (h : Canonical m e) (h' : Canonical m' e')
    (hn : (ofBinary m e).contains n = true) (hn' : (ofBinary m' e').contains n = true) :
    m = m' ∧ e = e' := by
  rcases Int.lt_trichotomy e e' with hlt | rfl | hgt
  · exact (not_contains_both h h' (.inl hlt) hn hn').elim
  · rcases Nat.lt_trichotomy m m' with hlt | rfl | hgt
    · exact (not_contains_both h h' (.inr ⟨rfl, hlt⟩) hn hn').elim
    · exact ⟨rfl, rfl⟩
    · exact (not_contains_both h' h (.inr ⟨rfl, hgt⟩) hn' hn).elim
  · exact (not_contains_both h' h (.inl hgt) hn' hn).elim

/-! ### The shortest decimal -/

theorem contains_of_gridPoint? {step : Nat} (h : i.gridPoint? step = some n) :
    i.contains (n * step) = true := by
  unfold gridPoint? at h
  dsimp only at h
  split at h
  · next hbelow habove =>
    split at h
    · cases h
      exact hbelow
    · cases h
      exact habove
  · next hbelow _ =>
    cases h
    exact hbelow
  · next _ habove =>
    cases h
    exact habove
  · cases h

/-- The search ends with a decimal in the interval, at the latest with the double itself. -/
theorem contains_coarsestPoint (h : i.contains i.value = true) (k : Nat) :
    (i.coarsestPoint k).places ≤ unitPlaces ∧ i.contains (i.coarsestPoint k).units = true := by
  induction k with
  | zero =>
    have hunits : (i.coarsestPoint 0).units = i.value := by
      rw [coarsestPoint, Decimal.units, Nat.sub_self, Nat.pow_zero, Nat.mul_one]
    rw [hunits]
    exact ⟨Nat.le_refl _, h⟩
  | succ k ih =>
    rw [coarsestPoint]
    cases hgrid : i.gridPoint? (Nat.pow 10 (k + 1)) with
    | none => exact ih
    | some n =>
      -- Steps of more than one are kept in the coefficient, the others in the places.
      have hstep : k + 1 = (k + 1 - unitPlaces) + (unitPlaces - (unitPlaces - (k + 1))) := by omega
      have hunits : (⟨n * Nat.pow 10 (k + 1 - unitPlaces), unitPlaces - (k + 1)⟩ : Decimal).units =
          n * Nat.pow 10 (k + 1) := by
        conv_rhs => rw [hstep]
        rw [Decimal.units, Nat.pow_eq, Nat.pow_eq, Nat.pow_add, Nat.mul_assoc]
      refine ⟨Nat.sub_le _ _, ?_⟩
      dsimp only
      rw [hunits]
      exact contains_of_gridPoint? hgrid

end Interval

/-! ### The text of a double -/

variable {n m m' : Nat} {e e' : Int}

/-- A whole number is the value of its double. -/
theorem units_of_whole? (hleast : -1074 ≤ e) (h : whole? m e = some n) :
    (⟨n, 0⟩ : Decimal).units = (Interval.ofBinary m e).value := by
  have hplaces : unitPlaces = 1076 := rfl
  have hten : (10 : Nat) ^ unitPlaces = 2 ^ unitPlaces * 5 ^ unitPlaces := by
    rw [← Nat.mul_pow]
  rw [Interval.value_ofBinary, quarter_eq, Decimal.units, Nat.sub_zero, hten]
  dsimp only
  rw [whole?] at h
  simp only [Nat.pow_eq] at h
  split at h
  · cases h
    have hpower : (2 : Nat) ^ e.toNat * 2 ^ unitPlaces = 4 * 2 ^ (e + 1074).toNat := by
      have hexponent : e.toNat + unitPlaces = 2 + (e + 1074).toNat := by omega
      rw [← Nat.pow_add, hexponent, Nat.pow_add]
    calc m * 2 ^ e.toNat * (2 ^ unitPlaces * 5 ^ unitPlaces)
        = m * (2 ^ e.toNat * 2 ^ unitPlaces) * 5 ^ unitPlaces := by ring
      _ = 4 * m * (2 ^ (e + 1074).toNat * 5 ^ unitPlaces) := by rw [hpower]; ring
  · next hnegative =>
    split at h
    · next hdvd =>
      cases h
      have hpower : (2 : Nat) ^ unitPlaces = 4 * 2 ^ (-e).toNat * 2 ^ (e + 1074).toNat := by
        have hexponent : unitPlaces = 2 + (-e).toNat + (e + 1074).toNat := by omega
        conv_lhs => rw [hexponent]
        rw [Nat.pow_add, Nat.pow_add]
      have hm : m / 2 ^ (-e).toNat * 2 ^ (-e).toNat = m :=
        Nat.div_mul_cancel (Nat.dvd_of_mod_eq_zero hdvd)
      calc m / 2 ^ (-e).toNat * (2 ^ unitPlaces * 5 ^ unitPlaces)
          = 4 * (m / 2 ^ (-e).toNat * 2 ^ (-e).toNat) * (2 ^ (e + 1074).toNat * 5 ^ unitPlaces) := by
            rw [hpower]; ring
        _ = 4 * m * (2 ^ (e + 1074).toNat * 5 ^ unitPlaces) := by rw [hm]
    · cases h

/-- The text of a positive double is that of a decimal in its interval. -/
theorem exists_magnitude_eq (h : Canonical m e) :
    ∃ d : Decimal, magnitude m e = d.written ∧ d.places ≤ unitPlaces ∧
      (Interval.ofBinary m e).contains d.units = true := by
  have hvalue := Interval.contains_value h
  have hshortest : (shortest m e).places ≤ unitPlaces ∧
      (Interval.ofBinary m e).contains (shortest m e).units = true :=
    Interval.contains_coarsestPoint hvalue _
  rw [magnitude]
  cases hwhole : whole? m e with
  | none => exact ⟨shortest m e, rfl, hshortest⟩
  | some n =>
    dsimp only
    split
    · refine ⟨⟨n, 0⟩, (written_whole n).symm, Nat.zero_le _, ?_⟩
      rw [units_of_whole? h.least hwhole]
      exact hvalue
    · exact ⟨shortest m e, rfl, hshortest⟩

theorem contains_unitsOf_magnitude (h : Canonical m e) :
    (Interval.ofBinary m e).contains (unitsOf (magnitude m e)) = true := by
  obtain ⟨d, hd, hplaces, hcontains⟩ := exists_magnitude_eq h
  rwa [hd, unitsOf_written hplaces]

/-- Two positive doubles that are written alike are the same. -/
theorem magnitude_injective (h : Canonical m e) (h' : Canonical m' e')
    (heq : magnitude m e = magnitude m' e') : m = m' ∧ e = e' := by
  have hcontains := contains_unitsOf_magnitude h
  rw [heq] at hcontains
  exact Interval.eq_of_contains h h' hcontains (contains_unitsOf_magnitude h')

/-- No positive double is written like zero. -/
theorem magnitude_ne_zero (h : Canonical m e) : magnitude m e ≠ ['0'] := by
  intro heq
  have hcontains := contains_unitsOf_magnitude h
  have hzero : unitsOf ['0'] = 0 := by
    have hdigit : ofDigits ['0'] = 0 := rfl
    rw [unitsOf_whole (by decide), hdigit, Nat.zero_mul]
  rw [heq, hzero] at hcontains
  have hlow := (Interval.bounds_of_contains hcontains).1
  have hbelow := below_bounds m e
  have hpos := h.pos
  rw [Interval.low_ofBinary] at hlow
  exact absurd hlow (Nat.not_le_of_gt (Nat.mul_pos (by omega) (quarter_pos e)))

end RowSearch.Number
