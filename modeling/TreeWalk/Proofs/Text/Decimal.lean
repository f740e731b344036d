import Mathlib
import TreeWalk.Proofs.Scan.Longest

/-!
# Texts of numbers

The text of a finite number is a decimal that lies nearer to it than to any other number, so no two of them have the
same text (`Number.text_injOn`).
-/

namespace TreeWalk

/-! ## Values -/

def Decimal.value (d : Decimal) : ℚ := d.digits * 10 ^ d.exponent

namespace Dyadic

/-- So many quarters of the unit in which the mantissa counts. -/
def quartersValue (x : Dyadic) (n : Nat) : ℚ := n * 2 ^ (x.exponent - 2)

/-- The decimals that read back as the number. The ends belong to them if the mantissa is even. -/
structure Attracts (x : Dyadic) (r : ℚ) : Prop where
  lower : x.quartersValue x.quarters.1 ≤ r
  upper : r ≤ x.quartersValue x.quarters.2.2
  inside : x.mantissa % 2 ≠ 0 → x.quartersValue x.quarters.1 < r ∧ r < x.quartersValue x.quarters.2.2

/-- The numbers that there are: all 53 bits of the mantissa are used, unless the exponent is the least. -/
structure Canonical (x : Dyadic) : Prop where
  positive : 0 < x.mantissa
  mantissa : x.mantissa < 2 ^ 53
  least : -1074 ≤ x.exponent
  most : x.exponent ≤ 971
  normal : x.exponent ≠ -1074 → 2 ^ 52 ≤ x.mantissa
  narrow : x.narrowBelow = true ↔ x.exponent ≠ -1074 ∧ x.mantissa = 2 ^ 52

/-! ## No decimal reads back as two numbers -/

variable {x y : Dyadic} {r : ℚ}

theorem Attracts.false_of_le (hx : x.Attracts r) (hy : y.Attracts r)
    (hle : x.quartersValue x.quarters.2.2 ≤ y.quartersValue y.quarters.1)
    (heq : x.quartersValue x.quarters.2.2 = y.quartersValue y.quarters.1 → x.mantissa % 2 ≠ 0 ∨ y.mantissa % 2 ≠ 0) :
    False := by
  have hends : x.quartersValue x.quarters.2.2 = y.quartersValue y.quarters.1 :=
    le_antisymm hle (hy.lower.trans hx.upper)
  rcases heq hends with hodd | hodd
  · exact absurd (hx.inside hodd).2 (not_lt.2 (hle.trans hy.lower))
  · exact absurd (hy.inside hodd).1 (not_lt.2 (hx.upper.trans hle))

/-- The larger of two numbers attracts no decimal that the smaller one does. -/
theorem Attracts.disjoint (hx : x.Attracts r) (hy : y.Attracts r) (hcx : x.Canonical) (hcy : y.Canonical)
    (hlt : x.exponent < y.exponent ∨ x.exponent = y.exponent ∧ x.mantissa < y.mantissa) : False := by
  have hunit : (0 : ℚ) < 2 ^ (x.exponent - 2) := by positivity
  rcases hlt with hlt | ⟨hsame, hlt⟩
  · -- The smaller number is at most the last one below a power of two, and the larger one at least that power.
    have hleast : y.exponent ≠ -1074 := by have := hcx.least; omega
    have hlower : 2 ^ 54 - 1 ≤ y.quarters.1 := by
      have hnormal := hcy.normal hleast
      simp only [quarters]
      split
      case isTrue => omega
      case isFalse hwide =>
        have hne : y.mantissa ≠ 2 ^ 52 := fun heq => hwide (hcy.narrow.2 ⟨hleast, heq⟩)
        omega
    have hupper : x.quarters.2.2 = 4 * x.mantissa + 2 := rfl
    have hmantissa := hcx.mantissa
    have hdouble : (2 * y.quarters.1 : Nat) * (2 : ℚ) ^ (x.exponent - 2) ≤ y.quartersValue y.quarters.1 := by
      have hpower : (2 : ℚ) ^ (x.exponent - 2 + 1) ≤ 2 ^ (y.exponent - 2) :=
        zpow_le_zpow_right₀ (by norm_num) (by omega)
      rw [zpow_add_one₀ (by norm_num)] at hpower
      unfold quartersValue
      push_cast
      nlinarith [hpower, Nat.cast_nonneg (α := ℚ) y.quarters.1]
    refine hx.false_of_le hy (le_trans ?_ hdouble) fun heq => .inl ?_
    · unfold quartersValue
      gcongr
      omega
    · rw [← heq] at hdouble
      have hnat : 2 * y.quarters.1 ≤ x.quarters.2.2 := by exact_mod_cast le_of_mul_le_mul_right hdouble hunit
      omega
  · have hquarters : x.quarters.2.2 ≤ y.quarters.1 := by
      simp only [quarters]
      split <;> omega
    refine hx.false_of_le hy ?_ fun heq => ?_
    · unfold quartersValue
      rw [hsame]
      gcongr
    · unfold quartersValue at heq
      rw [hsame] at heq hunit
      have hnat : x.quarters.2.2 = y.quarters.1 := by exact_mod_cast mul_right_cancel₀ hunit.ne' heq
      simp only [quarters] at hnat
      split at hnat <;> omega

/-- A decimal reads back as one number only. -/
theorem Attracts.unique (hx : x.Attracts r) (hy : y.Attracts r) (hcx : x.Canonical) (hcy : y.Canonical) : x = y := by
  have hle {x y : Dyadic} (hx : x.Attracts r) (hy : y.Attracts r) (hcx : x.Canonical) (hcy : y.Canonical) :
      y.exponent < x.exponent ∨ y.exponent = x.exponent ∧ y.mantissa ≤ x.mantissa := by
    by_contra hlt
    exact hx.disjoint hy hcx hcy (by omega)
  have hxy := hle hx hy hcx hcy
  have hyx := hle hy hx hcy hcx
  obtain ⟨mantissa, exponent, narrowBelow⟩ := x
  obtain ⟨mantissa', exponent', narrowBelow'⟩ := y
  obtain rfl : exponent = exponent' := by simp only at hxy hyx; omega
  obtain rfl : mantissa = mantissa' := by simp only at hxy hyx; omega
  have hnarrow : narrowBelow = narrowBelow' := by rw [Bool.eq_iff_iff, hcx.narrow, hcy.narrow]
  rw [hnarrow]

/-! ## Decimals on a grid -/

/-- Two powers of two with a common factor. -/
theorem zpow_toNat {b : ℚ} (hb : b ≠ 0) (z : Int) : b ^ z.toNat = b ^ z * b ^ (-z).toNat := by
  rcases Int.le_total 0 z with hz | hz
  · obtain ⟨n, rfl⟩ := Int.eq_ofNat_of_zero_le hz
    simp
  · obtain ⟨n, hn⟩ := Int.eq_ofNat_of_zero_le (Int.neg_nonneg_of_nonpos hz)
    obtain rfl : z = -n := by omega
    simp [hb]

/-- What is compared are natural numbers, with the same factor on both sides. -/
def scale (x : Dyadic) (k : Int) : Nat := Nat.pow 2 (x.exponent - 2).toNat * Nat.pow 10 (-k).toNat

def unit (x : Dyadic) (k : Int) : Nat := Nat.pow 2 (2 - x.exponent).toNat * Nat.pow 10 k.toNat

theorem unit_pos (x : Dyadic) (k : Int) : 0 < x.unit k :=
  Nat.mul_pos (Nat.pow_pos (by decide)) (Nat.pow_pos (by decide))

/-- The factor on both sides. -/
def factor (x : Dyadic) (k : Int) : ℚ := x.unit k / 10 ^ k

theorem factor_pos (x : Dyadic) (k : Int) : 0 < x.factor k :=
  div_pos (by exact_mod_cast x.unit_pos k) (by positivity)

theorem cast_scale (x : Dyadic) (k : Int) (n : Nat) :
    ((n * x.scale k : Nat) : ℚ) = x.quartersValue n * x.factor k := by
  have htwo : (2 : ℚ) ^ (x.exponent - 2).toNat = 2 ^ (x.exponent - 2) * 2 ^ (2 - x.exponent).toNat := by
    rw [zpow_toNat (by norm_num), neg_sub]
  have hten : (10 : ℚ) ^ k.toNat = 10 ^ k * 10 ^ (-k).toNat := zpow_toNat (by norm_num) k
  rw [factor, mul_div_assoc', eq_div_iff (by positivity)]
  unfold scale unit quartersValue
  push_cast [Nat.pow_eq]
  rw [htwo, hten]
  ring

theorem cast_unit (x : Dyadic) (k : Int) (digits : Nat) :
    ((digits * x.unit k : Nat) : ℚ) = (Decimal.mk digits k).value * x.factor k := by
  rw [Decimal.value, factor, Nat.cast_mul]
  field_simp

theorem scale_le_iff (x : Dyadic) (k : Int) (n digits : Nat) :
    n * x.scale k ≤ digits * x.unit k ↔ x.quartersValue n ≤ (Decimal.mk digits k).value := by
  rw [← Nat.cast_le (α := ℚ), cast_scale, cast_unit, mul_le_mul_iff_left₀ (x.factor_pos k)]

theorem le_scale_iff (x : Dyadic) (k : Int) (n digits : Nat) :
    digits * x.unit k ≤ n * x.scale k ↔ (Decimal.mk digits k).value ≤ x.quartersValue n := by
  rw [← Nat.cast_le (α := ℚ), cast_scale, cast_unit, mul_le_mul_iff_left₀ (x.factor_pos k)]

/-- The comparison of natural numbers decides whether a decimal reads back as the number. -/
theorem holds_iff (x : Dyadic) (k : Int) (digits : Nat) :
    x.holds (x.quarters.1 * x.scale k) (digits * x.unit k) (x.quarters.2.2 * x.scale k) = true ↔
      x.Attracts (Decimal.mk digits k).value := by
  unfold holds
  split
  case isTrue heven =>
    have heven : x.mantissa % 2 = 0 := by simpa using heven
    simp only [Bool.and_eq_true, decide_eq_true_eq, scale_le_iff, le_scale_iff]
    exact ⟨fun h => ⟨h.1, h.2, fun hodd => absurd heven hodd⟩, fun h => ⟨h.lower, h.upper⟩⟩
  case isFalse hodd =>
    have hodd : x.mantissa % 2 ≠ 0 := by simpa using hodd
    simp only [Bool.and_eq_true, decide_eq_true_eq, ← not_le, scale_le_iff, le_scale_iff]
    simp only [not_le]
    exact ⟨fun h => ⟨h.1.le, h.2.le, fun _ => h⟩, fun h => h.inside hodd⟩

theorem onGrid?_eq (x : Dyadic) (k : Int) : x.onGrid? k =
    let below := x.quarters.2.1 * x.scale k / x.unit k
    let fits := fun digits => x.holds (x.quarters.1 * x.scale k) (digits * x.unit k) (x.quarters.2.2 * x.scale k)
    let aboveNearer :=
      (below + 1) * x.unit k - x.quarters.2.1 * x.scale k ≤ x.quarters.2.1 * x.scale k - below * x.unit k
    if fits (below + 1) && (aboveNearer || !fits below) then some ⟨below + 1, k⟩
    else if fits below then some ⟨below, k⟩
    else none := rfl

/-- What is found on a grid reads back as the number. -/
theorem attracts_of_onGrid? {x : Dyadic} {k : Int} {d : Decimal} (h : x.onGrid? k = some d) : x.Attracts d.value := by
  rw [onGrid?_eq] at h
  dsimp only at h
  split at h
  case isTrue hfits =>
    obtain rfl := Option.some.inj h
    exact (x.holds_iff k _).1 (Bool.and_eq_true_iff.1 hfits).1
  case isFalse =>
    split at h
    case isTrue hfits =>
      obtain rfl := Option.some.inj h
      exact (x.holds_iff k _).1 hfits
    case isFalse => cases h

/-- A grid finer than half the unit of the mantissa has a decimal that reads back. -/
theorem onGrid?_isSome {x : Dyadic} {k : Int} (hfine : x.unit k < 2 * x.scale k) : (x.onGrid? k).isSome := by
  have hunit := x.unit_pos k
  set middle := x.quarters.2.1 * x.scale k with hmiddle
  have hbelow : middle / x.unit k * x.unit k ≤ middle := Nat.div_mul_le_self _ _
  have habove : middle < (middle / x.unit k + 1) * x.unit k := by
    rw [Nat.mul_comm]
    exact Nat.lt_mul_div_succ _ hunit
  have hlower : x.quarters.1 * x.scale k ≤ middle := Nat.mul_le_mul_right _ (by simp only [quarters]; omega)
  have hupper : x.quarters.2.2 * x.scale k = middle + 2 * x.scale k := by
    rw [hmiddle, ← Nat.add_mul]
    rfl
  have hfits : x.holds (x.quarters.1 * x.scale k) ((middle / x.unit k + 1) * x.unit k)
      (x.quarters.2.2 * x.scale k) = true := by
    have hnext : (middle / x.unit k + 1) * x.unit k ≤ middle + x.unit k := by
      rw [Nat.add_mul, Nat.one_mul]
      exact Nat.add_le_add_right hbelow _
    unfold holds
    split <;> simp only [Bool.and_eq_true, decide_eq_true_eq] <;> omega
  simp only [onGrid?_eq, ← hmiddle, hfits, Bool.true_and]
  cases x.holds (x.quarters.1 * x.scale k) (middle / x.unit k * x.unit k) (x.quarters.2.2 * x.scale k) with
  | false => simp
  | true => split <;> simp

/-- The search comes to an end where a grid is fine enough. -/
theorem attracts_firstOnGrid {x : Dyadic} {steps : Nat} {k : Int}
    (h : ∃ i : Nat, i < steps ∧ (x.onGrid? (k - i)).isSome) : x.Attracts (x.firstOnGrid steps k).value := by
  induction steps generalizing k with
  | zero =>
    obtain ⟨i, hi, -⟩ := h
    exact absurd hi (Nat.not_lt_zero i)
  | succ steps ih =>
    rw [firstOnGrid]
    cases hgrid : x.onGrid? k with
    | some d => exact attracts_of_onGrid? hgrid
    | none =>
      apply ih
      obtain ⟨i, hi, hsome⟩ := h
      cases i with
      | zero => simp [hgrid] at hsome
      | succ i => exact ⟨i, Nat.lt_of_succ_lt_succ hi, by rwa [Int.sub_sub, Int.add_comm]⟩

/-! ## The search succeeds -/

/-- A bound for the grid that is tried last. -/
def finest (exponent : Int) : Int := (exponent + 53) * 30103 / 100000 - 19

theorem coarsest_le {x : Dyadic} (h : x.Canonical) : x.coarsest - 20 ≤ finest x.exponent := by
  have hlog : x.mantissa.log2 < 53 := (Nat.log2_lt h.positive.ne').2 h.mantissa
  unfold coarsest finest
  omega

/-- The last grid is finer than half the unit of the mantissa, for each of the exponents that there are. -/
theorem finest_fine {exponent : Int} (hleast : -1074 ≤ exponent) (hmost : exponent ≤ 971) :
    (10 : ℚ) ^ finest exponent < 2 ^ (exponent - 1) := by
  have hall : (List.range 2046).all (fun n => Nat.blt
      (Nat.pow 10 (finest (n - 1074)).toNat * Nat.pow 2 (-(n - 1074 - 1 : Int)).toNat)
      (Nat.pow 2 (n - 1074 - 1 : Int).toNat * Nat.pow 10 (-finest (n - 1074)).toNat)) = true := by
    decide +kernel
  obtain ⟨n, rfl⟩ : ∃ n : Nat, exponent = n - 1074 := ⟨(exponent + 1074).toNat, by omega⟩
  have hn := List.all_eq_true.1 hall n (List.mem_range.2 (by omega))
  have hnat : (10 : ℚ) ^ (finest (n - 1074)).toNat * 2 ^ (-(n - 1074 - 1 : Int)).toNat <
      2 ^ (n - 1074 - 1 : Int).toNat * 10 ^ (-finest (n - 1074)).toNat := by
    exact_mod_cast Nat.blt_eq.mp hn
  rw [zpow_toNat (by norm_num) (finest _), zpow_toNat (by norm_num) (n - 1074 - 1 : Int), mul_assoc, mul_assoc,
    mul_comm (10 ^ (-finest _).toNat)] at hnat
  exact lt_of_mul_lt_mul_right hnat (by positivity)

/-- The text of a number reads back as the number. -/
theorem attracts_shortest {x : Dyadic} (h : x.Canonical) : x.Attracts x.shortest.value := by
  refine attracts_firstOnGrid ⟨20, by decide, onGrid?_isSome ?_⟩
  have hcoarse : (10 : ℚ) ^ (x.coarsest - 20) ≤ 10 ^ finest x.exponent :=
    zpow_le_zpow_right₀ (by norm_num) (coarsest_le h)
  have hhalf : x.quartersValue 2 = 2 ^ (x.exponent - 1) := by
    rw [quartersValue, Nat.cast_ofNat, mul_comm, ← zpow_add_one₀ two_ne_zero]
    congr 1
    ring
  rw [← Nat.not_le, ← Nat.one_mul (x.unit _), scale_le_iff, not_le, hhalf]
  unfold Decimal.value
  rw [Nat.cast_one, one_mul]
  exact hcoarse.trans_lt (finest_fine h.least h.most)

end Dyadic

/-! ## Reading positional decimals -/

/-- Digits with at most one point among them. -/
def readDecimal (text : List Char) : ℚ :=
  let whole := text.takeWhile (· != '.')
  let fraction := (text.dropWhile (· != '.')).drop 1
  Nat.ofDigitChars 10 (whole ++ fraction) 0 / 10 ^ fraction.length

theorem readDecimal_whole {digits : List Char} (h : ∀ c ∈ digits, c ≠ '.') :
    readDecimal digits = Nat.ofDigitChars 10 digits 0 := by
  have hall : ∀ c ∈ digits, (c != '.') = true := by simpa using h
  simp [readDecimal, List.takeWhile_eq_self_iff.2 hall, List.dropWhile_eq_nil_iff.2 hall]

theorem readDecimal_point {whole : List Char} (h : ∀ c ∈ whole, c ≠ '.') (fraction : List Char) :
    readDecimal (whole ++ '.' :: fraction) = Nat.ofDigitChars 10 (whole ++ fraction) 0 / 10 ^ fraction.length := by
  have hall : ∀ c ∈ whole, (c != '.') = true := by simpa using h
  simp [readDecimal, List.takeWhile_append_of_pos hall, List.dropWhile_append_of_pos hall]

theorem digit_of_mem_toDigits {n : Nat} {c : Char} (h : c ∈ Nat.toDigits 10 n) : Digit c :=
  Segment.isDigit_iff.1 (Nat.isDigit_of_mem_toDigits (by decide) (by decide) h)

theorem ne_point_of_digit {c : Char} (h : Digit c) : c ≠ '.' := by
  rintro rfl
  exact absurd (Segment.isDigit_iff.2 h) (by decide)

namespace Decimal

/-- The digits with zeros in front of them, so that there is one before the point. -/
def padded (d : Decimal) : List Char :=
  List.replicate ((-d.exponent).toNat + 1 - (Nat.toDigits 10 d.digits).length) '0' ++ Nat.toDigits 10 d.digits

theorem digit_of_mem_zeros {n : Nat} {c : Char} (h : c ∈ List.replicate n '0') : Digit c :=
  List.eq_of_mem_replicate h ▸ Segment.isDigit_iff.1 (by decide)

theorem digit_of_mem_padded {d : Decimal} {c : Char} (h : c ∈ d.padded) : Digit c :=
  (List.mem_append.1 h).elim digit_of_mem_zeros digit_of_mem_toDigits

theorem digit_of_mem_whole {d : Decimal} {c : Char}
    (h : c ∈ Nat.toDigits 10 d.digits ++ List.replicate d.exponent.toNat '0') : Digit c :=
  (List.mem_append.1 h).elim digit_of_mem_toDigits digit_of_mem_zeros

theorem positional_of_neg {d : Decimal} (h : ¬ 0 ≤ d.exponent) : d.positional.toList =
    d.padded.take (d.padded.length - (-d.exponent).toNat) ++
      '.' :: d.padded.drop (d.padded.length - (-d.exponent).toNat) := by
  rw [positional, if_neg h]
  exact String.toList_ofList

theorem positional_of_nonneg {d : Decimal} (h : 0 ≤ d.exponent) :
    d.positional.toList = Nat.toDigits 10 d.digits ++ List.replicate d.exponent.toNat '0' := by
  rw [positional, if_pos h]
  exact String.toList_ofList

theorem positional_ne_nil (d : Decimal) : d.positional.toList ≠ [] := by
  by_cases h : 0 ≤ d.exponent
  · rw [positional_of_nonneg h]
    exact List.append_ne_nil_of_left_ne_nil Nat.toDigits_ne_nil _
  · simp [positional_of_neg h]

theorem of_mem_positional (d : Decimal) {c : Char} (hc : c ∈ d.positional.toList) : Digit c ∨ c = '.' := by
  by_cases h : 0 ≤ d.exponent
  · rw [positional_of_nonneg h] at hc
    exact .inl (digit_of_mem_whole hc)
  · rw [positional_of_neg h, List.mem_append, List.mem_cons] at hc
    rcases hc with hc | rfl | hc
    · exact .inl (digit_of_mem_padded (List.mem_of_mem_take hc))
    · exact .inr rfl
    · exact .inl (digit_of_mem_padded (List.mem_of_mem_drop hc))

/-- The text of a decimal is read as its value. -/
theorem readDecimal_positional (d : Decimal) : readDecimal d.positional.toList = d.value := by
  by_cases hpos : 0 ≤ d.exponent
  · obtain ⟨n, hn⟩ := Int.eq_ofNat_of_zero_le hpos
    rw [positional_of_nonneg hpos, readDecimal_whole fun c hc => ne_point_of_digit (digit_of_mem_whole hc),
      Nat.ofDigitChars_append, Nat.ofDigitChars_ten_toDigits, Nat.ofDigitChars_replicate_zero, value, hn]
    simp [mul_comm]
  · have hlength : (-d.exponent).toNat < d.padded.length := by
      simp only [padded, List.length_append, List.length_replicate]
      omega
    have hvalue : Nat.ofDigitChars 10 d.padded 0 = d.digits := by
      rw [padded, Nat.ofDigitChars_append, Nat.ofDigitChars_replicate_zero, Nat.mul_zero, Nat.ofDigitChars_ten_toDigits]
    rw [positional_of_neg hpos,
      readDecimal_point fun c hc => ne_point_of_digit (digit_of_mem_padded (List.mem_of_mem_take hc)),
      List.take_append_drop, hvalue, List.length_drop, value, div_eq_mul_inv, ← zpow_natCast, ← zpow_neg]
    congr 2
    omega

end Decimal

/-! ## Numbers -/

namespace Dyadic

/-- The bits of the number without the sign. -/
def bits (x : Dyadic) : Nat :=
  if x.mantissa < 2 ^ 52 then x.mantissa else (x.exponent + 1075).toNat * 2 ^ 52 + (x.mantissa - 2 ^ 52)

theorem canonical_least {mantissa : Nat} (hpos : 0 < mantissa) (hlt : mantissa < 2 ^ 52) :
    Canonical ⟨mantissa, -1074, false⟩ where
  positive := hpos
  mantissa := by simp only; omega
  least := le_rfl
  most := by simp
  normal h := absurd rfl h
  narrow := by simp

theorem canonical_normal {fraction exponent : Nat} (hfraction : fraction < 2 ^ 52) (hpos : exponent ≠ 0)
    (hlt : exponent < 2047) :
    Canonical ⟨2 ^ 52 + fraction, (exponent : Int) - 1075, fraction == 0 && 1 < exponent⟩ where
  positive := by simp only; omega
  mantissa := by simp only; omega
  least := by simp only; omega
  most := by simp only; omega
  normal _ := Nat.le_add_right _ _
  narrow := by
    simp only [Bool.and_eq_true, beq_iff_eq, decide_eq_true_eq]
    omega

theorem Attracts.pos {x : Dyadic} {r : ℚ} (h : x.Attracts r) (hx : x.Canonical) : 0 < r := by
  have hquarters : 0 < x.quarters.1 := by
    have := hx.positive
    simp only [quarters]
    split <;> omega
  have hlower : 0 < x.quartersValue x.quarters.1 := by
    unfold quartersValue
    positivity
  exact hlower.trans_le h.lower

end Dyadic

namespace Number

variable {x y : Float}

/-- The decimal stands for the number, apart from its sign. -/
inductive Denotes (x : Float) : ℚ → Prop where
  | zero (hbits : x.toBits.toNat % 2 ^ 63 = 0) : Denotes x 0
  | finite {d : Dyadic} {r : ℚ} (hd : d.Canonical) (hbits : x.toBits.toNat % 2 ^ 63 = d.bits) (hr : d.Attracts r) :
    Denotes x r

theorem exponent_of_finite (h : x.isFinite) : x.toBits.toNat / 2 ^ 52 % 2 ^ 11 ≠ 2047 := by
  intro hexponent
  have hones : (Float.Model.UnpackedFloat.unpackExponent x.toBits.toBitVec :
      BitVec Float.Model.Format.binary64.exponentBits) = -1#11 := by
    apply BitVec.eq_of_toNat_eq
    rw [Float.Model.UnpackedFloat.unpackExponent, BitVec.toNat_cast, BitVec.extractLsb_toNat, Nat.shiftRight_eq_div_pow]
    exact hexponent
  have hfinite : (Float.Model.UnpackedFloat.unpack Float.Model.Format.binary64 x.toBits.toBitVec).isFinite = true := h
  unfold Float.Model.UnpackedFloat.unpack at hfinite
  simp only [hones, if_true] at hfinite
  split at hfinite <;> cases hfinite

theorem magnitude_of_finite (h : x.isFinite) : magnitude x = .zero ∧ x.toBits.toNat % 2 ^ 63 = 0 ∨
    ∃ d : Dyadic, magnitude x = .finite d ∧ d.Canonical ∧ x.toBits.toNat % 2 ^ 63 = d.bits := by
  have hexponent := exponent_of_finite h
  unfold magnitude
  simp only [Nat.pow_eq]
  generalize x.toBits.toNat = bits at *
  rw [if_neg (by simpa using hexponent)]
  split
  case isTrue hleast =>
    have hleast : bits / 2 ^ 52 % 2 ^ 11 = 0 := by simpa using hleast
    split
    case isTrue hzero =>
      have hzero : bits % 2 ^ 52 = 0 := by simpa using hzero
      exact .inl ⟨rfl, by omega⟩
    case isFalse hnonzero =>
      have hnonzero : bits % 2 ^ 52 ≠ 0 := by simpa using hnonzero
      refine .inr ⟨_, rfl, Dyadic.canonical_least (by omega) (by omega), ?_⟩
      rw [Dyadic.bits, if_pos (by simp only; omega)]
      simp only
      omega
  case isFalse hleast =>
    have hleast : bits / 2 ^ 52 % 2 ^ 11 ≠ 0 := by simpa using hleast
    refine .inr ⟨_, rfl, Dyadic.canonical_normal (by omega) hleast (by omega), ?_⟩
    rw [Dyadic.bits, if_neg (by simp only; omega)]
    simp only
    omega

/-- The text of a finite number without its sign. -/
structure Unsigned (x : Float) (digits : List Char) : Prop where
  nonempty : digits ≠ []
  numeral : ∀ c ∈ digits, Digit c ∨ c = '.'
  denotes : Denotes x (readDecimal digits)

theorem Unsigned.ne_minus {digits rest : List Char} (h : Unsigned x digits) : digits ≠ '-' :: rest := by
  rintro rfl
  rcases h.numeral '-' List.mem_cons_self with hdigit | hpoint
  · exact absurd (Segment.isDigit_iff.2 hdigit) (by decide)
  · exact absurd hpoint (by decide)

theorem text_of_finite (h : x.isFinite) : ∃ digits, Unsigned x digits ∧
    (text x).toList = (if isNegative x then ['-'] else []) ++ digits := by
  have hsign : (if isNegative x then "-" else "").toList = if isNegative x then ['-'] else [] := by split <;> rfl
  rcases magnitude_of_finite h with ⟨hzero, hbits⟩ | ⟨d, hfinite, hd, hbits⟩
  · refine ⟨['0'], ⟨by simp, ?_, ?_⟩, ?_⟩
    · simp only [List.mem_singleton, forall_eq]
      exact .inl (Segment.isDigit_iff.1 (by decide))
    · have hread : readDecimal ['0'] = 0 := by simp [readDecimal, Nat.ofDigitChars]
      exact hread ▸ .zero hbits
    · simp only [text, hzero, String.toList_append, hsign]
      rfl
  · refine ⟨d.shortest.positional.toList, ⟨d.shortest.positional_ne_nil, fun c => d.shortest.of_mem_positional, ?_⟩, ?_⟩
    · rw [Decimal.readDecimal_positional]
      exact .finite hd hbits (Dyadic.attracts_shortest hd)
    · simp only [text, hfinite, String.toList_append, hsign]

/-- Digits, a point and a minus sign are all that texts of finite numbers are made of. -/
theorem numeral_of_finite (h : x.isFinite) :
    (text x).toList ≠ [] ∧ ∀ c ∈ (text x).toList, Digit c ∨ c = '.' ∨ c = '-' := by
  obtain ⟨digits, hdigits, htext⟩ := text_of_finite h
  rw [htext]
  refine ⟨List.append_ne_nil_of_right_ne_nil _ hdigits.nonempty, fun c hc => ?_⟩
  rcases List.mem_append.1 hc with hc | hc
  · split at hc
    · exact .inr (.inr (List.mem_singleton.1 hc))
    · cases hc
  · exact (hdigits.numeral c hc).imp_right .inl

theorem Denotes.bits {r : ℚ} (hx : Denotes x r) (hy : Denotes y r) :
    x.toBits.toNat % 2 ^ 63 = y.toBits.toNat % 2 ^ 63 := by
  cases hx with
  | zero hbits =>
    cases hy with
    | zero hbits' => rw [hbits, hbits']
    | finite hd _ hr => exact absurd (hr.pos hd) (lt_irrefl 0)
  | finite hd hbits hr =>
    cases hy with
    | zero _ => exact absurd (hr.pos hd) (lt_irrefl 0)
    | finite hd' hbits' hr' => rw [hbits, hbits', hr.unique hr' hd hd']

/-- Finite numbers can be told from their texts. -/
theorem text_injOn : Set.InjOn text { x | x.isFinite } := by
  intro x hx y hy htext
  obtain ⟨digits, hdigits, hx⟩ := text_of_finite hx
  obtain ⟨digits', hdigits', hy⟩ := text_of_finite hy
  rw [htext, hy] at hx
  have hsign : isNegative x = isNegative y ∧ digits = digits' := by
    cases hnegx : isNegative x <;> cases hnegy : isNegative y <;> rw [hnegx, hnegy] at hx
    · exact ⟨rfl, hx.symm⟩
    · exact absurd hx.symm hdigits.ne_minus
    · exact absurd hx hdigits'.ne_minus
    · exact ⟨rfl, (List.cons.inj hx).2.symm⟩
  obtain ⟨hsign, rfl⟩ := hsign
  have hbits := hdigits.denotes.bits hdigits'.denotes
  have hnegative : (2 ^ 63 ≤ x.toBits.toNat) = (2 ^ 63 ≤ y.toBits.toNat) := by simpa [isNegative] using hsign
  apply Float.toBits_inj.1
  apply UInt64.toNat_inj.1
  have := x.toBits.toNat_lt
  have := y.toBits.toNat_lt
  have hiff := iff_of_eq hnegative
  omega

end Number

end TreeWalk
