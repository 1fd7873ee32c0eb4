import Mathlib.Data.List.DropRight
import Mathlib.Tactic.Ring
import RowSearch.Proofs.Digits
/-!
# Positional notation

A decimal that is written in positional notation can be read back, whatever zeros were dropped behind
the point. So a text stands for one value only, and two decimals that are written alike are equal. Values
are measured in the unit in which the ends of intervals are whole numbers.
-/

namespace RowSearch.Number

/-! ### The characters of numerals -/

def numeralChars : List Char :=
  '.' :: digitChars

theorem mem_numeralChars_of_digits {n : Nat} : ∀ c ∈ digits n, c ∈ numeralChars :=
  fun c hc => List.mem_cons_of_mem _ (mem_digitChars_of_digits c hc)

theorem mem_numeralChars_of_fractionDigits {n places : Nat} :
    ∀ c ∈ fractionDigits n places, c ∈ numeralChars := by
  intro c hc
  rw [fractionDigits, List.mem_reverse] at hc
  have hpadded := List.mem_reverse.mp ((List.dropWhile_sublist _).mem hc)
  rcases List.mem_append.mp hpadded with hzero | hdigit
  · rw [List.eq_of_mem_replicate hzero]
    decide
  · exact mem_numeralChars_of_digits c hdigit

theorem mem_numeralChars_of_decimal (d : Decimal) : ∀ c ∈ d.written, c ∈ numeralChars := by
  intro c hc
  rw [Decimal.written] at hc
  split at hc
  · exact mem_numeralChars_of_digits c hc
  · next fraction hfraction =>
    rcases List.mem_append.mp hc with hwhole | hrest
    · exact mem_numeralChars_of_digits c hwhole
    · rcases List.mem_cons.mp hrest with rfl | hmem
      · decide
      · exact mem_numeralChars_of_fractionDigits c hmem

theorem mem_numeralChars_of_magnitude (m : Nat) (e : Int) :
    ∀ c ∈ magnitude m e, c ∈ numeralChars := by
  intro c hc
  rw [magnitude] at hc
  split at hc
  · split at hc
    · exact mem_numeralChars_of_digits c hc
    · exact mem_numeralChars_of_decimal _ c hc
  · exact mem_numeralChars_of_decimal _ c hc

/-! ### The value of a text -/

/-- The value of a decimal in units of `10^-1076`. -/
def Decimal.units (d : Decimal) : Nat :=
  d.coefficient * 10 ^ (unitPlaces - d.places)

def fractionOf (text : List Char) : List Char :=
  (text.dropWhile (· ≠ '.')).drop 1

/-- The value of a text in positional notation, in the same unit. -/
def unitsOf (text : List Char) : Nat :=
  ofDigits (text.takeWhile (· ≠ '.')) * 10 ^ unitPlaces
    + ofDigits (fractionOf text) * 10 ^ (unitPlaces - (fractionOf text).length)

section Point

variable {whole : List Char} (h : '.' ∉ whole)

include h

theorem forall_ne_point : ∀ c ∈ whole, decide (c ≠ '.') = true := by
  intro c hc
  exact decide_eq_true fun heq => h (heq ▸ hc)

theorem unitsOf_whole : unitsOf whole = ofDigits whole * 10 ^ unitPlaces := by
  have hfront : whole.takeWhile (· ≠ '.') = whole := List.takeWhile_eq_self_iff.mpr (forall_ne_point h)
  have hback : whole.dropWhile (· ≠ '.') = [] := List.dropWhile_eq_nil_iff.mpr (forall_ne_point h)
  rw [unitsOf, fractionOf, hfront, hback]
  simp [ofDigits]

theorem unitsOf_point (fraction : List Char) :
    unitsOf (whole ++ '.' :: fraction) =
      ofDigits whole * 10 ^ unitPlaces
        + ofDigits fraction * 10 ^ (unitPlaces - fraction.length) := by
  have hfront : (whole ++ '.' :: fraction).takeWhile (· ≠ '.') = whole := by
    rw [List.takeWhile_append_of_pos (forall_ne_point h)]
    simp
  have hback : fractionOf (whole ++ '.' :: fraction) = fraction := by
    rw [fractionOf, List.dropWhile_append_of_pos (forall_ne_point h)]
    simp
  rw [unitsOf, hfront, hback]

end Point

/-! ### Digits behind the point -/

theorem ofDigits_eq (text : List Char) : ofDigits text = Nat.ofDigitChars 10 text 0 :=
  Nat.ofDigitChars_eq_foldl.symm

theorem ofDigits_nil : ofDigits [] = 0 :=
  rfl

theorem ofDigits_append (front back : List Char) :
    ofDigits (front ++ back) = ofDigits front * 10 ^ back.length + ofDigits back := by
  simp only [ofDigits_eq]
  rw [Nat.ofDigitChars_append, Nat.ofDigitChars_eq_ofDigitChars_zero, Nat.mul_comm]

theorem ofDigits_zeros (count : Nat) : ofDigits (List.replicate count '0') = 0 := by
  rw [ofDigits_eq, Nat.ofDigitChars_replicate_zero, Nat.mul_zero]

/-- The digits behind the point before zeros are dropped. -/
def paddedDigits (n places : Nat) : List Char :=
  List.replicate (places - (digits n).length) '0' ++ digits n

theorem ofDigits_paddedDigits (n places : Nat) : ofDigits (paddedDigits n places) = n := by
  rw [paddedDigits, ofDigits_append, ofDigits_zeros, ofDigits_digits, Nat.zero_mul, Nat.zero_add]

theorem length_paddedDigits {n places : Nat} (hplaces : 0 < places) (h : n < 10 ^ places) :
    (paddedDigits n places).length = places := by
  have hlength : (digits n).length ≤ places := (Nat.length_toDigits_le_iff (by decide) hplaces).mpr h
  rw [paddedDigits, List.length_append, List.length_replicate]
  omega

/-- Only zeros are dropped. -/
theorem exists_zeros (n places : Nat) :
    ∃ count, paddedDigits n places = fractionDigits n places ++ List.replicate count '0' := by
  have hzeros : (paddedDigits n places).rtakeWhile (· = '0') =
      List.replicate ((paddedDigits n places).rtakeWhile (· = '0')).length '0' :=
    List.eq_replicate_of_mem fun c hc =>
      of_decide_eq_true (List.mem_rtakeWhile_imp (p := fun c => decide (c = '0')) hc)
  have hsplit : fractionDigits n places ++ (paddedDigits n places).rtakeWhile (· = '0') =
      paddedDigits n places := List.rdropWhile_append_rtakeWhile
  exact ⟨_, by rw [← hzeros, hsplit]⟩

/-- The digits behind the point have the value of the number they were written for. -/
theorem ofDigits_fractionDigits {n places : Nat} (hplaces : places ≤ unitPlaces)
    (h : n < 10 ^ places) :
    ofDigits (fractionDigits n places) * 10 ^ (unitPlaces - (fractionDigits n places).length) =
      n * 10 ^ (unitPlaces - places) := by
  rcases Nat.eq_zero_or_pos places with rfl | hpos
  · obtain rfl : n = 0 := by omega
    have hnone : fractionDigits 0 0 = [] := by decide
    rw [hnone]
    simp [ofDigits]
  · obtain ⟨count, hzeros⟩ := exists_zeros n places
    have hvalue := ofDigits_paddedDigits n places
    have hlength := length_paddedDigits hpos h
    rw [hzeros, ofDigits_append, ofDigits_zeros, Nat.add_zero, List.length_replicate] at hvalue
    rw [hzeros, List.length_append, List.length_replicate] at hlength
    have hexponent : unitPlaces - (fractionDigits n places).length = count + (unitPlaces - places) := by
      omega
    calc ofDigits (fractionDigits n places) * 10 ^ (unitPlaces - (fractionDigits n places).length)
        = ofDigits (fractionDigits n places) * 10 ^ count * 10 ^ (unitPlaces - places) := by
          rw [hexponent, Nat.pow_add, Nat.mul_assoc]
      _ = n * 10 ^ (unitPlaces - places) := by rw [hvalue]

/-! ### Decimals -/

theorem point_notMem_digits (n : Nat) : '.' ∉ digits n :=
  fun hmem => absurd (mem_digitChars_of_digits _ hmem) (by decide)

/-- The text of a decimal has its value. -/
theorem unitsOf_written {d : Decimal} (h : d.places ≤ unitPlaces) : unitsOf d.written = d.units := by
  have hpos : 0 < 10 ^ d.places := Nat.pow_pos (by decide)
  have hfraction := ofDigits_fractionDigits h (Nat.mod_lt d.coefficient hpos)
  have hunits : d.units = d.coefficient / 10 ^ d.places * 10 ^ unitPlaces
      + d.coefficient % 10 ^ d.places * 10 ^ (unitPlaces - d.places) := by
    have hsplit : (10 : Nat) ^ unitPlaces = 10 ^ d.places * 10 ^ (unitPlaces - d.places) := by
      rw [← Nat.pow_add, Nat.add_sub_cancel' h]
    calc d.units = (10 ^ d.places * (d.coefficient / 10 ^ d.places) + d.coefficient % 10 ^ d.places)
          * 10 ^ (unitPlaces - d.places) := by rw [Nat.div_add_mod, Decimal.units]
      _ = _ := by rw [hsplit]; ring
  rw [hunits, ← hfraction, Decimal.written]
  simp only [Nat.pow_eq]
  cases fractionDigits (d.coefficient % 10 ^ d.places) d.places with
  | nil =>
    rw [unitsOf_whole (point_notMem_digits _), ofDigits_digits, ofDigits_nil, Nat.zero_mul,
      Nat.add_zero]
  | cons first rest =>
    rw [unitsOf_point (point_notMem_digits _), ofDigits_digits]

/-- Whole numbers are written as decimals without places. -/
theorem written_whole (n : Nat) : (⟨n, 0⟩ : Decimal).written = digits n := by
  have hnone : fractionDigits 0 0 = [] := by decide
  simp [Decimal.written, hnone, Nat.mod_one]

end RowSearch.Number
