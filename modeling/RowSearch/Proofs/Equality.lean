import RowSearch.Proofs.Nearest
import RowSearch.Proofs.Ordering
import RowSearch.Proofs.Patterns
/-!
# Numbers that are equal

Equality of two numbers is decided on their texts and their order on the numbers themselves, and the two
agree: a text is written for one number only, apart from the two zeros, which are equal in the order as
well. The texts of numbers that are no NaN consist of a sign and a size, and what folding case changes in
them is the name of infinity. They have no wildcards, so as patterns they only match themselves.
-/

namespace RowSearch.Number

open Float.Model (UnpackedFloat Format)
open Float.Model.UnpackedFloat (Sign)

/-! ### Doubles as they are kept -/

theorem toNat_implicit {width : Nat} (bits : BitVec width) :
    (1#1 ++ bits).toNat = 2 ^ width + bits.toNat := by
  rw [BitVec.toNat_append, ← Nat.shiftLeft_add_eq_or_of_lt bits.isLt]
  simp [Nat.shiftLeft_eq]

theorem canonical_of_unpack {bits : BitVec Format.binary64.numBits} {s : Sign} {m : Nat} {e : Int}
    {hm : 0 < m} (h : UnpackedFloat.unpack Format.binary64 bits = .finite s m e hm) :
    Canonical m e := by
  have hbias : (Format.binary64.exponentBias : Int)
      + (Format.binary64.mantissaBitsWithoutImplicit : Int) = 1075 := by decide
  delta UnpackedFloat.unpack at h
  extract_lets mantissa exponent power signBit sign at h
  have hpower : power = exponent.toNat - 1075 := congrArg (_ - ·) hbias
  have hmantissa : mantissa.toNat < 2 ^ 52 := mantissa.isLt
  clear_value exponent power signBit sign
  -- An exponent of ones only is kept for infinities and NaN, and one of zeros only for small numbers.
  by_cases hones : exponent = -1#_
  · rw [if_pos hones] at h
    by_cases hinfinite : mantissa = 0#_
    · rw [if_pos hinfinite] at h
      cases h
    · rw [if_neg hinfinite] at h
      cases h
  · rw [if_neg hones] at h
    by_cases hsubnormal : exponent = 0#_
    · rw [if_pos hsubnormal] at h
      by_cases hzero : mantissa = 0#_
      · rw [dif_pos hzero] at h
        cases h
      · rw [dif_neg hzero] at h
        have hexponent : exponent.toNat = 0 := by
          rw [hsubnormal]
          rfl
        cases h
        exact ⟨hm, by omega, by omega, .inr (by omega)⟩
    · rw [if_neg hsubnormal] at h
      have hexponent : exponent.toNat ≠ 0 := fun heq => hsubnormal (BitVec.eq_of_toNat_eq heq)
      have himplicit : (1#1 ++ mantissa).toNat = 2 ^ 52 + mantissa.toNat := toNat_implicit mantissa
      cases h
      exact ⟨hm, by omega, by omega, .inl (by omega)⟩

/-- A number as it comes out of a double. -/
def Unpacked (u : UnpackedFloat) : Prop :=
  ∀ s m e h, u = .finite s m e h → Canonical m e

theorem unpacked (x : Float) : Unpacked x.toModel.unpack :=
  fun _ _ _ _ h => canonical_of_unpack h

/-! ### Signs and sizes -/

def hasSign : UnpackedFloat → Bool
  | .infinity .negative => true
  | .finite .negative _ _ _ => true
  | _ => false

def nanText : List Char := "NaN".toList

def infinityText : List Char := "Infinity".toList

def sizeText : UnpackedFloat → List Char
  | .notANumber => nanText
  | .infinity _ => infinityText
  | .zero _ => ['0']
  | .finite _ m e _ => magnitude m e

def signedText (u : UnpackedFloat) : List Char :=
  if hasSign u then '-' :: sizeText u else sizeText u

theorem toList_written (x : Float) : (written x).toList = signedText x.toModel.unpack := by
  rw [written]
  cases x.toModel.unpack with
  | notANumber => rfl
  | infinity s => cases s <;> rfl
  | zero s => cases s <;> rfl
  | finite s m e h => cases s <;> exact String.toList_ofList

theorem minus_notMem_sizeText (u : UnpackedFloat) : '-' ∉ sizeText u := by
  cases u with
  | notANumber => exact (by decide : '-' ∉ nanText)
  | infinity s => exact (by decide : '-' ∉ infinityText)
  | zero s => exact (by decide : '-' ∉ ['0'])
  | finite s m e h =>
    exact fun hmem => absurd (mem_numeralChars_of_magnitude m e _ hmem) (by decide)

/-- A signed text gives away the sign and the size. -/
theorem signedText_eq_iff {u v : UnpackedFloat} :
    signedText u = signedText v ↔ hasSign u = hasSign v ∧ sizeText u = sizeText v := by
  have hhead {u v : UnpackedFloat} : '-' :: sizeText u ≠ sizeText v :=
    fun heq => minus_notMem_sizeText v (heq ▸ List.mem_cons_self)
  rw [signedText, signedText]
  cases hasSign u <;> cases hasSign v <;> simp [hhead, hhead.symm]

theorem magnitude_ne_infinity (m : Nat) (e : Int) : magnitude m e ≠ infinityText := by
  intro heq
  have hmem : 'I' ∈ magnitude m e := heq ▸ by decide
  exact absurd (mem_numeralChars_of_magnitude m e _ hmem) (by decide)

theorem compare_finite_eq_iff {s s' : Sign} {m m' : Nat} {e e' : Int} {h : 0 < m} {h' : 0 < m'} :
    (UnpackedFloat.finite s m e h).compare (.finite s' m' e' h') = some .eq ↔
      s = s' ∧ m = m' ∧ e = e' := by
  have hmagnitude : (compare e e').then (compare m m') = .eq ↔ m = m' ∧ e = e' := by
    rw [Ordering.then_eq_eq, Std.LawfulEqOrd.compare_eq_iff_eq, Std.LawfulEqOrd.compare_eq_iff_eq]
    exact and_comm
  cases s with
  | negative =>
    cases s' with
    | negative =>
      show some ((compare e e').then (compare m m')).swap = some .eq ↔ _
      rw [Option.some_inj, Ordering.swap_eq_eq, hmagnitude]
      exact (and_iff_right rfl).symm
    | positive => exact iff_of_false nofun nofun
  | positive =>
    cases s' with
    | negative => exact iff_of_false nofun nofun
    | positive =>
      show some ((compare e e').then (compare m m')) = some .eq ↔ _
      rw [Option.some_inj, hmagnitude]
      exact (and_iff_right rfl).symm

/-- Two numbers have the same sign and size just if they are equal. -/
theorem sign_and_size_eq_iff {u v : UnpackedFloat} (hu : Unpacked u) (hv : Unpacked v)
    (hnan : u.isNaN = false) (hnan' : v.isNaN = false) :
    hasSign u = hasSign v ∧ sizeText u = sizeText v ↔ u.compare v = some .eq := by
  cases u with
  | notANumber => cases hnan
  | infinity s =>
    cases v with
    | notANumber => cases hnan'
    | infinity s' => cases s <;> cases s' <;> decide
    | zero s' => cases s <;> cases s' <;> decide
    | finite s' m' e' h' =>
      refine iff_of_false (fun heq => magnitude_ne_infinity m' e' heq.2.symm) ?_
      cases s <;> cases s' <;> exact nofun
  | zero s =>
    cases v with
    | notANumber => cases hnan'
    | infinity s' => cases s <;> cases s' <;> decide
    | zero s' => exact iff_of_true ⟨rfl, rfl⟩ rfl
    | finite s' m' e' h' =>
      refine iff_of_false (fun heq => magnitude_ne_zero (hv s' m' e' h' rfl) heq.2.symm) ?_
      cases s' <;> exact nofun
  | finite s m e h =>
    have hcanonical := hu s m e h rfl
    cases v with
    | notANumber => cases hnan'
    | infinity s' =>
      refine iff_of_false (fun heq => magnitude_ne_infinity m e heq.2) ?_
      cases s <;> cases s' <;> exact nofun
    | zero s' =>
      refine iff_of_false (fun heq => magnitude_ne_zero hcanonical heq.2) ?_
      cases s <;> exact nofun
    | finite s' m' e' h' =>
      have hsign : hasSign (.finite s m e h) = hasSign (.finite s' m' e' h') ↔ s = s' := by
        cases s <;> cases s'
        · exact iff_of_true rfl rfl
        · exact iff_of_false nofun nofun
        · exact iff_of_false nofun nofun
        · exact iff_of_true rfl rfl
      have hsize : sizeText (.finite s m e h) = sizeText (.finite s' m' e' h') ↔ m = m' ∧ e = e' := by
        refine ⟨magnitude_injective hcanonical (hv s' m' e' h' rfl), fun heq => ?_⟩
        show magnitude m e = magnitude m' e'
        rw [heq.1, heq.2]
      rw [compare_finite_eq_iff, hsign, hsize]

/-- Two numbers that are no NaN are written alike just if they are equal. -/
theorem written_eq_iff {x y : Float} (hx : x.isNaN = false) (hy : y.isNaN = false) :
    written x = written y ↔ (x == y) = true := by
  rw [← String.toList_inj, toList_written, toList_written, signedText_eq_iff,
    sign_and_size_eq_iff (unpacked x) (unpacked y) hx hy, Query.beq_iff_numberOrder?]
  rfl

/-- Both zeros are written as the digit zero. -/
theorem written_zero {x : Float} (h : (x == 0.0) = true) : written x = "0" := by
  have hzero : written 0.0 = "0" := by decide +kernel
  have horder : Query.numberOrder? x 0.0 ≠ none := by
    rw [Query.beq_iff_numberOrder?.mp h]
    exact Option.some_ne_none _
  have hx : x.isNaN = false :=
    Bool.eq_false_iff.mpr fun hnan => horder (Query.numberOrder?_eq_none.mpr (.inl hnan))
  rw [← hzero]
  exact (written_eq_iff hx (by decide +kernel)).mpr h

/-! ### Folding case -/

/-- The characters of numbers that have no name. -/
def signedChars : List Char :=
  '-' :: numeralChars

theorem lowerFrom_eq_self {text : List Char} (h : ∀ c ∈ text, c ∈ signedChars) (before : Bool) :
    Text.lowerFrom before text = text := by
  have hfixed : ∀ c ∈ signedChars,
      c ≠ 'Σ' ∧ c ≠ 'İ' ∧ Char.ofNat (Text.lowerIn Text.caseRuns c.toNat) = c := by decide +kernel
  induction text generalizing before with
  | nil => rfl
  | cons c text ih =>
    obtain ⟨hc, htext⟩ := List.forall_mem_cons.mp h
    obtain ⟨hsigma, hdotted, hlower⟩ := hfixed c hc
    rw [Text.lowerFrom, ih htext, Text.lowerChar, if_neg hsigma, if_neg hdotted, hlower,
      List.singleton_append]

/-- The text of a number has no letters, or it is the name of an infinity. -/
theorem written_cases {x : Float} (hx : x.isNaN = false) :
    (∀ c ∈ (written x).toList, c ∈ signedChars) ∨
      (written x).toList = infinityText ∨ (written x).toList = '-' :: infinityText := by
  have hmagnitude (m : Nat) (e : Int) : ∀ c ∈ magnitude m e, c ∈ signedChars :=
    fun c hc => List.mem_cons_of_mem _ (mem_numeralChars_of_magnitude m e c hc)
  have hnan : x.toModel.unpack.isNaN = false := hx
  rw [toList_written]
  cases hunpack : x.toModel.unpack with
  | notANumber =>
    rw [hunpack] at hnan
    cases hnan
  | infinity s =>
    cases s
    · exact .inr (.inr rfl)
    · exact .inr (.inl rfl)
  | zero s =>
    left
    show ∀ c ∈ ['0'], c ∈ signedChars
    decide
  | finite s m e h =>
    left
    cases s
    · exact List.forall_mem_cons.mpr ⟨List.mem_cons_self, hmagnitude m e⟩
    · exact hmagnitude m e

/-- The text of a number can be told from its lower-case form, in which at most one letter has changed. -/
theorem replace_lowercase_written {x : Float} (hx : x.isNaN = false) :
    (Text.lowercase (written x).toList).replace 'i' 'I' = (written x).toList := by
  rcases written_cases hx with hplain | hplus | hminus
  · have hletter : 'i' ∉ (written x).toList := fun hmem => absurd (hplain _ hmem) (by decide)
    rw [Text.lowercase, lowerFrom_eq_self hplain]
    exact List.replace_of_not_mem hletter
  · rw [hplus]
    decide +kernel
  · rw [hminus]
    decide +kernel

/-- Folding case keeps the texts of numbers apart. -/
theorem fold_written_eq_iff {x y : Float} (hx : x.isNaN = false) (hy : y.isNaN = false)
    (config : Config) :
    config.fold (written x).toList = config.fold (written y).toList ↔ written x = written y := by
  rw [← String.toList_inj]
  refine ⟨fun heq => ?_, fun heq => congrArg config.fold heq⟩
  rw [Config.fold, Config.fold] at heq
  split at heq
  · exact heq
  · rw [← replace_lowercase_written hx, heq, replace_lowercase_written hy]

end RowSearch.Number

namespace RowSearch.Query

/-! ### Comparisons of numbers -/

open Wildcard (Engine PatternCache)

variable {x y : Float}

/-- Two numbers are equal as patterns if their texts are equal but for case. -/
theorem holds_eq_number (engine : Engine) (config : Config) :
    Holds (plainMatcher engine) config .eq (.number x) (.number y) ↔
      config.fold (Number.written x).toList = config.fold (Number.written y).toList := by
  have hplain : Wildcard.hasWildcards (config.fold (Value.number y).display.toList) = false :=
    hasWildcards_display fun _ => nofun
  show Wildcard.matchesPattern _ .anchored _ engine = true ↔ _
  rw [Wildcard.matchesPattern, hplain]
  exact decide_eq_true_iff

/-- A cache is neither asked nor changed when numbers are compared. -/
theorem compareBy_cached_number (engine : Engine) (config : Config) (op : CompareOp)
    (cache : PatternCache) :
    compareBy (cachedMatcher engine) config op (.number x) (.number y) cache =
      (compareBy (plainMatcher engine) config op (.number x) (.number y), cache) := by
  have hplain : Wildcard.hasWildcards (config.fold (Value.number y).display.toList) = false :=
    hasWildcards_display fun _ => nofun
  have hcached : cachedMatcher engine (config.fold (Value.number y).display.toList) .anchored
      (config.fold (Value.number x).display.toList) = pure (plainMatcher engine
        (config.fold (Value.number y).display.toList) .anchored
        (config.fold (Value.number x).display.toList)) := by
    rw [cachedMatcher, PatternCache.isMatch, plainMatcher, Wildcard.matchesPattern, hplain]
    rfl
  cases op with
  | eq =>
    show equals (cachedMatcher engine) config _ _ cache = _
    rw [equals, hcached]
    rfl
  | ne =>
    show (equals (cachedMatcher engine) config _ _ >>= fun same => pure !same) cache = _
    rw [equals, hcached]
    rfl
  | lt | gt | le | ge => rfl

theorem order?_number (config : Config) (x y : Float) :
    order? config (.number x) (.number y) = numberOrder? x y :=
  order?_numeric ⟨.inl rfl, rfl, rfl⟩

/-- Equality by text and order by number agree. Two numbers that are no NaN are equal in a search just if
neither is smaller, and their texts are equal just if the numbers are; both zeros have the same text. It
makes no difference by which engine patterns are matched, at once or through a cache. -/
theorem equality_agrees_with_order (hx : x.isNaN = false) (hy : y.isNaN = false) (engine : Engine)
    (config : Config) :
    (Holds (plainMatcher engine) config .eq (.number x) (.number y) ↔ ¬x < y ∧ ¬x > y) ∧
    (Holds (plainMatcher engine) config .ne (.number x) (.number y) ↔ x < y ∨ x > y) ∧
    (Holds (plainMatcher engine) config .lt (.number x) (.number y) ↔ x < y) ∧
    (Holds (plainMatcher engine) config .gt (.number x) (.number y) ↔ x > y) ∧
    ((Value.number x).display = (Value.number y).display ↔ (x == y) = true) ∧
    ((x == 0.0) = true → (Value.number x).display = "0") ∧
    ∀ op cache, compareBy (cachedMatcher engine) config op (.number x) (.number y) cache =
      (compareBy (plainMatcher engine) config op (.number x) (.number y), cache) := by
  have hgt : x > y ↔ numberOrder? x y = some .gt := by
    show y < x ↔ _
    rw [lt_iff_numberOrder?, numberOrder?_swap x y]
    rcases numberOrder? x y with _ | _ | _ | _ <;> simp
  have heq : Holds (plainMatcher engine) config .eq (.number x) (.number y) ↔ numberOrder? x y = some .eq := by
    rw [holds_eq_number, Number.fold_written_eq_iff hx hy, Number.written_eq_iff hx hy,
      beq_iff_numberOrder?]
  have hordered : numberOrder? x y ≠ none := by
    rw [Ne, numberOrder?_eq_none, hx, hy]
    simp
  obtain ⟨order, horder⟩ := Option.ne_none_iff_exists'.mp hordered
  refine ⟨?_, ?_, ?_, ?_, Number.written_eq_iff hx hy, Number.written_zero,
    compareBy_cached_number engine config⟩
  · rw [heq, hgt, lt_iff_numberOrder?, horder]
    cases order <;> simp
  · rw [holds_ne, heq, hgt, lt_iff_numberOrder?, horder]
    cases order <;> simp
  · rw [holds_lt, order?_number, lt_iff_numberOrder?]
  · rw [holds_gt, order?_number, hgt]

/-- The sum of a tenth and two tenths is not three tenths, in the order as in the texts; the two zeros are
equal in both. -/
theorem equality_agrees_with_order_of_tenths :
    Holds plainMatcher .standard .ne (.number (0.1 + 0.2)) (.number 0.3) ∧
      ((Value.number (0.1 + 0.2)).display = "0.30000000000000004" ∧
        (Value.number 0.3).display = "0.3") ∧
      Holds plainMatcher .standard .eq (.number (-0.0)) (.number 0.0) ∧
      (Value.number (-0.0)).display = "0" := by
  have hsum := equality_agrees_with_order (x := 0.1 + 0.2) (y := 0.3) (by decide +kernel)
    (by decide +kernel) Engine.tables .standard
  have hzero := equality_agrees_with_order (x := -0.0) (y := 0.0) (by decide +kernel)
    (by decide +kernel) Engine.tables .standard
  refine ⟨hsum.2.1.mpr (.inr ?_), by decide +kernel, hzero.1.mpr (by decide +kernel), ?_⟩
  · decide +kernel
  · exact hzero.2.2.2.2.2.1 (by decide +kernel)

end RowSearch.Query
