import RowSearch.Number.Written
/-!
# Decimal digits

Reading the digits of a whole number gives the number back, and no number but zero starts with the digit
zero.
-/

namespace RowSearch.Number

def digitChars : List Char :=
  "0123456789".toList

theorem mem_digitChars_of_isDigit {c : Char} (h : c.isDigit = true) : c ∈ digitChars := by
  have hdigits : ∀ n ∈ List.range' 48 10, Char.ofNat n ∈ digitChars := by decide
  have hrange : c.toNat ∈ List.range' 48 10 := by
    rw [Char.isDigit, Bool.and_eq_true, decide_eq_true_iff, decide_eq_true_iff] at h
    have hlow : 48 ≤ c.toNat := h.1
    have hhigh : c.toNat ≤ 57 := h.2
    rw [List.mem_range'_1]
    omega
  have hmem := hdigits c.toNat hrange
  rwa [Char.ofNat_toNat] at hmem

theorem mem_digitChars_of_digits {n : Nat} : ∀ c ∈ digits n, c ∈ digitChars :=
  fun _ hc => mem_digitChars_of_isDigit (Nat.isDigit_of_mem_toDigits (by decide) (by decide) hc)

theorem digits_ne_nil (n : Nat) : digits n ≠ [] :=
  Nat.toDigits_ne_nil

/-- Reading the digits of a number gives the number. -/
theorem ofDigits_digits (n : Nat) : ofDigits (digits n) = n :=
  calc ofDigits (digits n) = Nat.ofDigitChars 10 (digits n) 0 := Nat.ofDigitChars_eq_foldl.symm
    _ = n := Nat.ofDigitChars_ten_toDigits

/-- A number other than zero does not start with the digit zero. -/
theorem head?_digits_ne {n : Nat} (h : 0 < n) : (digits n).head? ≠ some '0' := by
  induction n using Nat.strongRecOn with
  | ind n ih =>
    by_cases hsmall : n < 10
    · have hdigit : ∀ d ∈ List.range' 1 9, Nat.digitChar d ≠ '0' := by decide
      rw [digits, Nat.toDigits_of_lt_base hsmall, List.head?_cons]
      exact fun heq => hdigit n (List.mem_range'_1.mpr (by omega)) (Option.some.inj heq)
    · obtain ⟨c, rest, hfront⟩ := List.exists_cons_of_ne_nil (digits_ne_nil (n / 10))
      have hhead := ih (n / 10) (by omega) (by omega)
      rw [digits] at hfront hhead
      rw [digits, Nat.toDigits_of_base_le (by decide) (by omega), hfront]
      rwa [hfront] at hhead

end RowSearch.Number
