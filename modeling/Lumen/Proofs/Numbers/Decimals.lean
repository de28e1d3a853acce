/-
  Lumen.Proofs.Numbers.Decimals — which decimals a double is written as.

  The shortest decimal is searched on finer and finer grids.  What a grid gives lies
  in the interval of what is read as the number, and seventeen digits always do.  A
  number that is not of middling size is rounded to a count of places: to one place
  if it is at least one, and then it is a whole number; to seventeen places beyond
  its order of magnitude if it is smaller.

  Main statements:
    * `Decimal.leadingExponent_spec` — the order of magnitude of a decimal;
    * `shortest_resembles` — the shortest decimal is near the number;
    * `smallOrder_spec` — the order of magnitude that a small number is given;
    * `rounded_near` — a normal number that is not of middling size is rounded to
      something near it;
    * `rounded_between` — a subnormal one is rounded to what is not read.
-/
import Lumen.Proofs.Numbers.Nearest
import Lumen.Binary64.Notation

namespace Lumen

/-! ## §1. Decimals -/

namespace Decimal

/-- The value of a decimal. -/
def value (d : Decimal) : ℚ := d.coefficient * 10 ^ d.exponent

/-- A zero at the end is one power of ten. -/
theorem value_reduce (d : Decimal) : d.reduce.value = d.value := by
  induction d using reduce.induct with
  | case1 d h ih =>
    rw [reduce, dif_pos h, ih]
    have hten : (d.coefficient : ℚ) = 10 * (d.coefficient / 10 : Nat) := by
      exact_mod_cast (Nat.mul_div_cancel' (Nat.dvd_of_mod_eq_zero h.2)).symm
    unfold value
    dsimp only
    rw [hten, zpow_add₀ (by norm_num), zpow_one]
    ring
  | case2 d h => rw [reduce, dif_neg h]

theorem leadingExponent_spec {d : Decimal} (h : 0 < d.value) :
    10 ^ d.leadingExponent ≤ d.value ∧ d.value < 10 ^ (d.leadingExponent + 1) := by
  have hne : d.coefficient ≠ 0 := by
    intro hzero
    have hvalue : d.value = 0 := by simp [value, hzero]
    linarith
  have hpos : (0 : ℚ) < 10 ^ d.exponent := by positivity
  -- the digits place the coefficient between two powers of ten
  obtain ⟨k, hk, hle, hlt⟩ := digitCount_spec hne
  have hleQ : (10 : ℚ) ^ k ≤ d.coefficient := by
    rw [← cast_tenTo]
    exact_mod_cast hle
  have hltQ : (d.coefficient : ℚ) < 10 ^ (k + 1) := by
    rw [← cast_tenTo]
    exact_mod_cast hlt
  have hlead : d.leadingExponent = k + d.exponent := by
    unfold leadingExponent
    omega
  have hnext : d.leadingExponent + 1 = ((k + 1 : Nat) : Int) + d.exponent := by omega
  constructor
  · rw [hlead, zpow_add₀ (by norm_num), zpow_natCast]
    unfold value
    gcongr
  · rw [hnext, zpow_add₀ (by norm_num), zpow_natCast]
    unfold value
    gcongr

end Decimal

namespace Binary64

/-! ## §2. The interval -/

section
variable {n den : Nat} (hden : 0 < den) (grid : Int) (c : Nat)
include hden

theorem le_point_iff : n * tenTo (-grid).toNat ≤ c * tenTo grid.toNat * den
    ↔ (n / den : ℚ) ≤ c * 10 ^ grid := by
  have hdenQ : (0 : ℚ) < den := by exact_mod_cast hden
  have hpos : (0 : ℚ) < 10 ^ (-grid).toNat := by positivity
  rw [← pow_toNat_div, mul_div_assoc', div_le_div_iff₀ hdenQ hpos, ← cast_tenTo, ← cast_tenTo]
  exact_mod_cast Iff.rfl

theorem point_le_iff : c * tenTo grid.toNat * den ≤ n * tenTo (-grid).toNat
    ↔ (c * 10 ^ grid : ℚ) ≤ n / den := by
  have hdenQ : (0 : ℚ) < den := by exact_mod_cast hden
  have hpos : (0 : ℚ) < 10 ^ (-grid).toNat := by positivity
  rw [← pow_toNat_div, mul_div_assoc', div_le_div_iff₀ hpos hdenQ, ← cast_tenTo, ← cast_tenTo]
  exact_mod_cast Iff.rfl

end

/-- What the interval holds, and without its ends if they do not belong to it. -/
theorem Interval.contains_spec {i : Interval} (hden : 0 < i.den) {grid : Int} {c : Nat}
    (h : i.contains grid c = true) :
    ((i.low / i.den : ℚ) ≤ c * 10 ^ grid ∧ (c * 10 ^ grid : ℚ) ≤ i.high / i.den)
      ∧ (i.closed = false →
        (i.low / i.den : ℚ) < c * 10 ^ grid ∧ (c * 10 ^ grid : ℚ) < i.high / i.den) := by
  unfold contains at h
  dsimp only at h
  split at h
  · next hclosed =>
    rw [Bool.and_eq_true, decide_eq_true_eq, decide_eq_true_eq, le_point_iff hden,
      point_le_iff hden] at h
    exact ⟨h, fun hopen => absurd (hclosed.symm.trans hopen) (by decide)⟩
  · rw [Bool.and_eq_true, decide_eq_true_eq, decide_eq_true_eq, ← Nat.not_le, ← Nat.not_le,
      le_point_iff hden, point_le_iff hden, not_le, not_le] at h
    exact ⟨⟨h.1.le, h.2.le⟩, fun _ => h⟩

/-- How many quarters of a spacing the interval goes down. -/
def quartersBelow (x : Binary64) : Nat := if x.fraction = 0 ∧ 1 < x.biased then 1 else 2

section
variable (x : Binary64)

theorem quartersBelow_le : x.quartersBelow ≤ 2 := by
  unfold quartersBelow
  split
  · omega
  · omega

theorem den_interval_pos : 0 < x.interval.den := Ratio.den_scaleTwo_pos (by decide) _

/-- A count of quarters over the denominator of the interval. -/
theorem quarters_div (n : Nat) :
    ((n * (Ratio.scaleTwo ⟨1, 4⟩ x.exponent).num : Nat) : ℚ) / x.interval.den
      = n / 4 * 2 ^ x.exponent := by
  have hunit : (Ratio.scaleTwo ⟨1, 4⟩ x.exponent).value = 1 / 4 * 2 ^ x.exponent := by
    rw [Ratio.value_scaleTwo]
    simp [Ratio.value]
  have hden : x.interval.den = (Ratio.scaleTwo ⟨1, 4⟩ x.exponent).den := rfl
  rw [hden]
  push_cast
  rw [mul_div_assoc]
  show (n : ℚ) * (Ratio.scaleTwo ⟨1, 4⟩ x.exponent).value = _
  rw [hunit]
  ring

theorem high_interval : (x.interval.high : ℚ) / x.interval.den = x.value + x.gapAbove := by
  have hhigh : (x.interval.high : ℚ) / x.interval.den
      = (4 * x.mantissa + 2 : Nat) / 4 * 2 ^ x.exponent := x.quarters_div _
  rw [hhigh]
  unfold value gapAbove
  push_cast
  ring

theorem low_interval (h : x.mantissa ≠ 0) : (x.interval.low : ℚ) / x.interval.den
    = x.value - x.quartersBelow / 4 * 2 ^ x.exponent := by
  have hlow : (x.interval.low : ℚ) / x.interval.den
      = (4 * x.mantissa - x.quartersBelow : Nat) / 4 * 2 ^ x.exponent := x.quarters_div _
  have hle : x.quartersBelow ≤ 4 * x.mantissa := by
    have htwo := x.quartersBelow_le
    omega
  rw [hlow, Nat.cast_sub hle]
  unfold value
  push_cast
  ring

/-- Above the least normal number the interval is that of what is read as the number. -/
theorem gapBelow_eq (h : 1 < x.biased) : x.gapBelow = x.quartersBelow / 4 * 2 ^ x.exponent := by
  unfold gapBelow quartersBelow
  by_cases hzero : x.fraction = 0
  · rw [if_pos hzero, if_pos ⟨hzero, h⟩]
    push_cast
    ring
  · rw [if_neg hzero, if_neg fun hboth => hzero hboth.1]
    push_cast
    ring

end

/-! ## §3. The shortest decimal -/

/-- A value is about as great as a number, and if the number is above the least normal
    one, the value is near enough to be read as it. -/
structure Resembles (x : Binary64) (v : ℚ) : Prop where
  low : x.value / 2 ≤ v
  high : v ≤ 2 * x.value
  attracts : 1 < x.biased → x.Attracts v

theorem one_le_mantissa {x : Binary64} (h : x.mantissa ≠ 0) : (1 : ℚ) ≤ x.mantissa := by
  exact_mod_cast Nat.one_le_iff_ne_zero.mpr h

theorem value_pos {x : Binary64} (h : x.mantissa ≠ 0) : 0 < x.value := by
  have hone := one_le_mantissa h
  unfold value
  positivity

/-- What a grid gives. -/
theorem resembles_of_contains {x : Binary64} (hne : x.mantissa ≠ 0) {grid : Int} {c : Nat}
    (h : x.interval.contains grid c = true) : x.Resembles (c * 10 ^ grid) := by
  have hpos : (0 : ℚ) < 2 ^ x.exponent := by positivity
  have hhalf : (2 : ℚ) ^ x.exponent ≤ x.value := by
    have hone := one_le_mantissa hne
    unfold value
    nlinarith
  have hquarters : (x.quartersBelow : ℚ) ≤ 2 := by exact_mod_cast x.quartersBelow_le
  obtain ⟨⟨hlow, hhigh⟩, hopen⟩ := Interval.contains_spec x.den_interval_pos h
  rw [x.low_interval hne] at hlow hopen
  rw [x.high_interval] at hhigh hopen
  have habove : x.gapAbove = 2 ^ x.exponent / 2 := rfl
  refine ⟨by nlinarith, by linarith, ?_⟩
  intro hbiased
  -- the ends of the interval are those of the gaps, if the number is normal
  rw [← x.gapBelow_eq hbiased] at hlow hopen
  refine ⟨hlow, hhigh, ?_⟩
  intro hodd
  apply hopen
  show (x.mantissa % 2 == 0) = false
  rw [hodd]
  rfl

/-- Seventeen digits. -/
theorem resembles_of_round {x : Binary64} {grid : Int}
    (h : (10 : ℚ) ^ (grid + 16) ≤ x.value) :
    x.Resembles ((x.magnitude.scaleTen (-grid)).round * 10 ^ grid) := by
  have hpos : (0 : ℚ) < 10 ^ grid := by positivity
  have hround := Ratio.abs_value_sub_round_le
    (Ratio.den_scaleTen_pos x.den_magnitude_pos (-grid))
  rw [Ratio.value_scaleTen, value_magnitude, zpow_neg, ← div_eq_mul_inv] at hround
  set c : ℚ := ((x.magnitude.scaleTen (-grid)).round : ℚ) with hc
  rw [zpow_add₀ (by norm_num), zpow_ofNat] at h
  -- rounding is off by half a unit of the grid at most
  have herror : |c * 10 ^ grid - x.value| ≤ 10 ^ grid / 2 := by
    have hscaled : c * 10 ^ grid - x.value = (c - x.value / 10 ^ grid) * 10 ^ grid := by
      field_simp
    rw [hscaled, abs_mul, abs_of_pos hpos, abs_sub_comm]
    linarith [mul_le_mul_of_nonneg_right hround hpos.le]
  have hbounds := abs_le.mp herror
  refine ⟨by linarith, by linarith, ?_⟩
  intro hbiased
  apply attracts_of_abs_lt (by omega)
  refine lt_of_le_of_lt herror ?_
  rw [lt_div_iff₀ (by positivity)]
  linarith

theorem shortestFrom_resembles {x : Binary64} (hne : x.mantissa ≠ 0) {grid : Int} {finer : Nat}
    (h : (10 : ℚ) ^ (grid - finer + 16) ≤ x.value) :
    x.Resembles (x.shortestFrom grid finer).value := by
  induction finer generalizing grid with
  | zero =>
    rw [Nat.cast_zero, sub_zero] at h
    exact resembles_of_round h
  | succ finer ih =>
    unfold shortestFrom
    split
    · next c hc => exact resembles_of_contains hne (onGrid?_mem hc)
    -- the grid has no point in the interval, and the next one is finer
    · apply ih
      have hgrid : grid - 1 - (finer : Int) = grid - ((finer + 1 : Nat) : Int) := by omega
      rwa [hgrid]

theorem isZero_iff (x : Binary64) : x.isZero = true ↔ x.mantissa = 0 := by
  unfold isZero mantissa
  rw [Bool.and_eq_true, beq_iff_eq, beq_iff_eq, twoTo_eq]
  split
  · next h => simp [h]
  · next h => simp [h]

/-- The shortest decimal is near the number. -/
theorem shortest_resembles {x : Binary64} (hne : x.mantissa ≠ 0) :
    x.Resembles x.shortest.value := by
  have hzero : x.isZero = false := by
    rw [← Bool.not_eq_true, isZero_iff]
    exact hne
  have hnum : x.magnitude.num ≠ 0 :=
    Nat.mul_ne_zero hne (twoTo_pos _).ne'
  have hlog := (Ratio.floorLogTen_spec x.den_magnitude_pos hnum).1
  rw [value_magnitude] at hlog
  unfold shortest
  rw [hzero, if_neg (by decide), Decimal.value_reduce]
  apply shortestFrom_resembles hne
  have hgrid : x.magnitude.floorLogTen - ((16 : Nat) : Int) + 16 = x.magnitude.floorLogTen := by
    omega
  rwa [hgrid]

end Binary64

/-! ## §4. Rounding to places -/

namespace Ratio

/-- The quotient that fixed notation writes out. -/
def toPlaces (r : Ratio) (places : Nat) : Ratio := ⟨(r.scaleTen places).round, tenTo places⟩

theorem value_toPlaces (r : Ratio) (places : Nat) :
    (r.toPlaces places).value = (r.scaleTen places).round / 10 ^ places := by
  unfold value toPlaces
  rw [cast_tenTo]

/-- Half a unit of the last place. -/
theorem abs_value_toPlaces_sub_le {r : Ratio} (h : 0 < r.den) (places : Nat) :
    |(r.toPlaces places).value - r.value| ≤ 1 / (2 * 10 ^ places) := by
  have hpos : (0 : ℚ) < 10 ^ places := by positivity
  have hround := abs_value_sub_round_le (den_scaleTen_pos h places)
  rw [value_scaleTen, zpow_natCast] at hround
  have hdiff : (r.toPlaces places).value - r.value
      = -((r.value * 10 ^ places - (r.scaleTen places).round) / 10 ^ places) := by
    rw [value_toPlaces]
    field_simp
    ring
  rw [hdiff, abs_neg, abs_div, abs_of_pos hpos, div_le_div_iff₀ hpos (by positivity)]
  nlinarith

/-- A power of ten that is not above a small number has few places. -/
theorem log2_lt_of_lt {r : Ratio} {k : Nat} (hleast : (2 : ℚ) ^ Binary64.leastExponent ≤ r.value)
    (h : r.value < 10 ^ (-(k : Int))) : k.log2 < 11 := by
  -- already the power of two with that exponent is above the least spacing
  have hpowers : (2 : ℚ) ^ Binary64.leastExponent < 2 ^ (-(k : Int)) := by
    have htwo : (10 : ℚ) ^ (-(k : Int)) ≤ 2 ^ (-(k : Int)) := by
      rw [zpow_neg, zpow_neg, zpow_natCast, zpow_natCast]
      gcongr
      norm_num
    linarith
  have hk := lt_of_zpow_lt (by norm_num) hpowers
  unfold Binary64.leastExponent at hk
  by_cases hzero : k = 0
  · subst hzero
    decide
  · rw [Nat.log2_lt hzero]
    omega

/-- Where the logarithm of a small number rounds up to a whole one, the number is
    not far below the power of ten. -/
theorem half_le_of_logRoundsTo {r : Ratio} {k : Nat} (hden : 0 < r.den) (hlog : k.log2 < 11)
    (h : Binary64.logRoundsTo r k = true) : 1 / 2 ≤ r.value * 10 ^ k := by
  have hscaled : (r.scaleTen k).value = r.value * 10 ^ k := by
    rw [value_scaleTen, zpow_natCast]
  have hpos : (0 : ℚ) < (r.scaleTen k).den := by exact_mod_cast den_scaleTen_pos hden k
  -- the factor on the left is eight at least, the one on the right less than three
  have hhalf : (r.scaleTen k).den ≤ 2 * (r.scaleTen k).num := by
    unfold Binary64.logRoundsTo at h
    rw [decide_eq_true_eq] at h
    by_contra hlt
    set a := (r.scaleTen k).den
    set b := (r.scaleTen k).num
    have hpow : 2 ^ 3 ≤ twoTo (53 - k.log2) := by
      rw [twoTo_eq]
      exact Nat.pow_le_pow_right (by omega) (by omega)
    have hmul : (a - b) * 2 ^ 3 * tenTo 15 ≤ (a - b) * twoTo (53 - k.log2) * tenTo 15 := by
      gcongr
    rw [tenTo_eq] at h hmul
    omega
  have hcast : ((r.scaleTen k).den : ℚ) ≤ 2 * (r.scaleTen k).num := by exact_mod_cast hhalf
  rw [← hscaled]
  unfold value
  rw [div_le_div_iff₀ (by norm_num) hpos]
  linarith

/-- The order of magnitude that a small number is given is its own, or the next one
    if the number lies just below it. -/
theorem smallOrder_spec {r : Ratio} (hnum : r.num ≠ 0) (hden : 0 < r.den)
    (hleast : (2 : ℚ) ^ Binary64.leastExponent ≤ r.value) (hone : r.value < 1) :
    1 / 2 ≤ r.value * 10 ^ Binary64.smallOrder r ∧ r.value * 10 ^ Binary64.smallOrder r < 10 := by
  obtain ⟨hlow, hhigh⟩ := floorLogTen_spec hden hnum
  -- below one the logarithm is negative
  obtain ⟨k, hk⟩ : ∃ k : Nat, r.floorLogTen = -((k + 1 : Nat) : Int) := by
    have hneg : r.floorLogTen < 0 := by
      apply lt_of_zpow_lt (b := 10) (by norm_num)
      rw [zpow_zero]
      linarith
    exact ⟨(-r.floorLogTen - 1).toNat, by omega⟩
  have hnext : r.floorLogTen + 1 = -(k : Int) := by omega
  rw [hnext] at hhigh
  -- the estimate is the order, or one less where the logarithm rounds up
  have horder : Binary64.smallOrder r = if Binary64.logRoundsTo r k then k else k + 1 := by
    unfold Binary64.smallOrder
    rw [hk]
    rfl
  have hbelow : r.value * 10 ^ k < 1 := by
    rwa [zpow_neg, zpow_natCast, ← one_div, lt_div_iff₀ (by positivity)] at hhigh
  rw [horder]
  split
  · next hround =>
    exact ⟨half_le_of_logRoundsTo hden (log2_lt_of_lt hleast hhigh) hround, by linarith⟩
  · rw [hk, zpow_neg, zpow_natCast, inv_le_iff_one_le_mul₀ (by positivity)] at hlow
    refine ⟨by linarith, ?_⟩
    rw [pow_succ]
    linarith

end Ratio

namespace Binary64

/-- The least spacing is beyond all places that matter. -/
theorem least_le : (2 : ℚ) ^ leastExponent ≤ 1 / 2 ^ 200 := by
  rw [one_div, ← zpow_natCast, ← zpow_neg]
  exact zpow_le_zpow_right₀ (by norm_num) (by decide)

section
variable {x : Binary64} (hne : x.mantissa ≠ 0)
include hne

theorem num_magnitude_ne_zero : x.magnitude.num ≠ 0 := Nat.mul_ne_zero hne (twoTo_pos _).ne'

theorem least_le_value : (2 : ℚ) ^ leastExponent ≤ x.value := by
  have hone := one_le_mantissa hne
  have hpow : (2 : ℚ) ^ leastExponent ≤ 2 ^ x.exponent :=
    zpow_le_zpow_right₀ (by norm_num) x.leastExponent_le
  have hpos : (0 : ℚ) < 2 ^ x.exponent := by positivity
  unfold value
  nlinarith

/-- A number of middling size is above the least normal one. -/
theorem one_lt_biased (h : isMiddling x.shortest.leadingExponent = true) : 1 < x.biased := by
  obtain ⟨hlow, hhigh, -⟩ := shortest_resembles hne
  have hpos := value_pos hne
  obtain ⟨hlead, -⟩ := Decimal.leadingExponent_spec (d := x.shortest) (by linarith)
  unfold isMiddling at h
  rw [Bool.and_eq_true, decide_eq_true_eq, decide_eq_true_eq] at h
  have hten : (10 : ℚ) ^ (-4 : Int) ≤ 10 ^ x.shortest.leadingExponent :=
    zpow_le_zpow_right₀ (by norm_num) h.1
  -- with the least exponent it would be less than a ten-thousandth
  by_contra hbiased
  have hexp : x.exponent = leastExponent := by
    unfold exponent leastExponent
    omega
  have hmantissa : (x.mantissa : ℚ) < 2 ^ 53 := by exact_mod_cast x.mantissa_lt
  have hvalue : x.value < 2 ^ 53 * 2 ^ leastExponent := by
    unfold value
    rw [hexp]
    gcongr
  have hleast := least_le
  norm_num at hvalue hten hleast
  linarith

/-- The count of places for a small number goes seventeen places beyond its order of
    magnitude. -/
theorem scaled_spec (hone : x.value < 1) :
    10 ^ 17 / 2 ≤ x.value * 10 ^ x.places ∧ x.value * 10 ^ x.places < 10 ^ 18 := by
  have hsmall : ¬ x.magnitude.den ≤ x.magnitude.num := by
    have hiff := Ratio.le_value_iff x.den_magnitude_pos 1
    rw [Nat.one_mul, value_magnitude, Nat.cast_one] at hiff
    rw [← hiff]
    exact not_le.mpr hone
  have horder := Ratio.smallOrder_spec (num_magnitude_ne_zero hne) x.den_magnitude_pos
    (x.value_magnitude ▸ least_le_value hne) (x.value_magnitude ▸ hone)
  rw [value_magnitude] at horder
  have hplaces : x.value * 10 ^ x.places = 10 ^ 17 * (x.value * 10 ^ smallOrder x.magnitude) := by
    unfold places
    rw [if_neg hsmall, pow_add]
    ring
  rw [hplaces]
  constructor
  · linarith
  · linarith

theorem abs_rounded_sub_le (hone : x.value < 1) :
    |(x.magnitude.toPlaces x.places).value - x.value| ≤ x.value / 10 ^ 17 := by
  have herror := Ratio.abs_value_toPlaces_sub_le x.den_magnitude_pos x.places
  rw [value_magnitude] at herror
  refine le_trans herror ?_
  rw [div_le_div_iff₀ (by positivity) (by norm_num)]
  linarith [(scaled_spec hne hone).1]

end

/-- From `2 ^ 52` on there are only whole numbers. -/
theorem exponent_nonneg {x : Binary64} (h : 2 ^ 52 ≤ x.value) : 0 ≤ x.exponent := by
  by_contra hneg
  have hmantissa : (x.mantissa : ℚ) < 2 ^ 53 := by exact_mod_cast x.mantissa_lt
  have hpow : (2 : ℚ) ^ x.exponent ≤ 2 ^ (-1 : Int) :=
    zpow_le_zpow_right₀ (by norm_num) (by omega)
  have hvalue : x.value < 2 ^ 53 * 2 ^ (-1 : Int) := by
    calc x.mantissa * (2 : ℚ) ^ x.exponent < 2 ^ 53 * 2 ^ x.exponent := by gcongr
      _ ≤ 2 ^ 53 * 2 ^ (-1 : Int) := mul_le_mul_of_nonneg_left hpow (by norm_num)
  norm_num at hvalue h
  linarith

/-- A whole number is rounded to itself. -/
theorem rounded_of_exponent_nonneg {x : Binary64} (h : 0 ≤ x.exponent) (places : Nat) :
    (x.magnitude.toPlaces places).value = x.value := by
  obtain ⟨e, he⟩ := Int.eq_ofNat_of_zero_le h
  have hwhole : x.value = (x.mantissa * 2 ^ e : Nat) := by
    unfold value
    rw [he]
    push_cast
    rw [zpow_natCast]
  have hround : (x.magnitude.scaleTen places).round = x.mantissa * 2 ^ e * 10 ^ places := by
    apply Ratio.round_eq_of_abs_lt (Ratio.den_scaleTen_pos x.den_magnitude_pos _)
    rw [Ratio.value_scaleTen, value_magnitude, hwhole, zpow_natCast]
    push_cast
    rw [sub_self, abs_zero]
    norm_num
  rw [Ratio.value_toPlaces, hround, hwhole]
  push_cast
  field_simp

section
variable {x : Binary64} (hne : x.mantissa ≠ 0)
  (h : isMiddling x.shortest.leadingExponent = false)
include hne h

/-- A number from one on that is not of middling size is a large one. -/
theorem large_of_one_le (hone : 1 ≤ x.value) : 2 ^ 52 ≤ x.value := by
  obtain ⟨hlow, hhigh, -⟩ := shortest_resembles hne
  obtain ⟨hlead, hlead'⟩ := Decimal.leadingExponent_spec (d := x.shortest) (by linarith)
  unfold isMiddling at h
  rw [Bool.and_eq_false_iff, decide_eq_false_iff_not, decide_eq_false_iff_not] at h
  rcases h with hsmall | hlarge
  · have hten : (10 : ℚ) ^ (x.shortest.leadingExponent + 1) ≤ 10 ^ (-4 : Int) :=
      zpow_le_zpow_right₀ (by norm_num) (by omega)
    norm_num at hten
    linarith
  · have hten : (10 : ℚ) ^ (16 : Int) ≤ 10 ^ x.shortest.leadingExponent :=
      zpow_le_zpow_right₀ (by norm_num) (by omega)
    norm_num at hten ⊢
    linarith

/-- A number that is not of middling size is rounded to something near it. -/
theorem rounded_near :
    |(x.magnitude.toPlaces x.places).value - x.value| < x.value / 2 ^ 54 := by
  have hpos := value_pos hne
  by_cases hone : 1 ≤ x.value
  -- a number from one on is whole, and nothing is lost
  · have hexp := exponent_nonneg (large_of_one_le hne h hone)
    rw [rounded_of_exponent_nonneg hexp, sub_self, abs_zero]
    positivity
  · refine lt_of_le_of_lt (abs_rounded_sub_le hne (not_le.mp hone)) ?_
    apply div_lt_div_of_pos_left hpos (by norm_num) (by norm_num)

end

/-! ## §5. Subnormal numbers -/

/-- A decimal that is a multiple of a power of two has a factor five for each place. -/
theorem five_pow_dvd {n m places e : Nat}
    (h : (n / 10 ^ places : ℚ) = m * 2 ^ (-(e : Int))) : 5 ^ places ∣ n := by
  have hnat : n * 2 ^ e = m * 10 ^ places := by
    rw [zpow_neg, zpow_natCast, ← div_eq_mul_inv,
      div_eq_div_iff (by positivity) (by positivity)] at h
    exact_mod_cast h
  have hten : (10 : Nat) ^ places = 2 ^ places * 5 ^ places := by
    rw [← Nat.mul_pow]
  have hdvd : 5 ^ places ∣ n * 2 ^ e := by
    rw [hnat, hten, ← Nat.mul_assoc]
    exact Nat.dvd_mul_left _ _
  exact Nat.Coprime.dvd_of_dvd_mul_right (Nat.Coprime.pow _ _ (by decide)) hdvd

section
variable {x : Binary64} (hsub : x.biased = 0)
include hsub

theorem value_le_of_subnormal : x.value ≤ (2 ^ 52 - 1) * 2 ^ leastExponent := by
  have hexp : x.exponent = leastExponent := by
    unfold exponent leastExponent
    omega
  have hmantissa : x.mantissa + 1 ≤ 2 ^ 52 := by
    unfold mantissa
    rw [if_pos hsub]
    exact x.fraction_lt
  have hcast : (x.mantissa : ℚ) + 1 ≤ 2 ^ 52 := by exact_mod_cast hmantissa
  have hle : (x.mantissa : ℚ) ≤ 2 ^ 52 - 1 := by linarith
  unfold value
  rw [hexp]
  gcongr

theorem value_lt_of_subnormal : x.value < 1 / 10 ^ 17 := by
  have hvalue := value_le_of_subnormal hsub
  have hleast := least_le
  norm_num at hvalue hleast ⊢
  linarith

variable (hne : x.mantissa ≠ 0)
include hne

/-- It has a place for more factors five than eighteen digits can have. -/
theorem places_of_subnormal : 26 ≤ x.places := by
  have hpos := value_pos hne
  have hsmall := value_lt_of_subnormal hsub
  have hvalue := value_le_of_subnormal hsub
  have hleast := least_le
  obtain ⟨hlow, -⟩ := scaled_spec hne (by linarith)
  -- with fewer places not one digit would stand in front of the point
  by_contra hfew
  have hpow : (10 : ℚ) ^ x.places ≤ 10 ^ 25 := pow_le_pow_right₀ (by norm_num) (by omega)
  have hprod : x.value * 10 ^ x.places ≤ x.value * 10 ^ 25 := by gcongr
  norm_num at hvalue hleast hprod hlow
  linarith

/-- Its digits are eighteen at most, and not all zero. -/
theorem round_of_subnormal : (x.magnitude.scaleTen x.places).round ≠ 0
    ∧ (x.magnitude.scaleTen x.places).round ≤ 10 ^ 18 := by
  have hsmall := value_lt_of_subnormal hsub
  obtain ⟨hlow, hhigh⟩ := scaled_spec hne (by linarith)
  have hround := Ratio.abs_value_sub_round_le
    (Ratio.den_scaleTen_pos x.den_magnitude_pos x.places)
  rw [Ratio.value_scaleTen, value_magnitude, zpow_natCast, abs_le] at hround
  constructor
  · intro hzero
    rw [hzero] at hround
    norm_num at hround hlow
    linarith
  · have hcast : ((x.magnitude.scaleTen x.places).round : ℚ) < (10 ^ 18 + 1 : Nat) := by
      push_cast
      linarith
    exact Nat.le_of_lt_succ (by exact_mod_cast hcast)

/-- What a subnormal number is rounded to lies between two subnormal numbers: it has
    too many places to be a multiple of their spacing. -/
theorem rounded_between : ofRatio? (x.magnitude.toPlaces x.places) = none := by
  have hsmall := value_lt_of_subnormal hsub
  have hplaces := places_of_subnormal hsub hne
  obtain ⟨hpos, hround⟩ := round_of_subnormal hsub hne
  have hnear : (x.magnitude.toPlaces x.places).value < (2 ^ 52 - 1 / 4) * 2 ^ leastExponent := by
    have hunit : (0 : ℚ) < 2 ^ leastExponent := by positivity
    have hvalue := value_le_of_subnormal hsub
    have herror := abs_le.mp (abs_rounded_sub_le hne (by linarith))
    norm_num at herror hvalue ⊢
    linarith
  -- were it a multiple of the spacing, a large power of five would divide it
  apply ofRatio?_eq_none (tenTo_pos _) hnear hpos
  intro m hm
  rw [Ratio.value_toPlaces] at hm
  have hdvd : 5 ^ x.places ∣ (x.magnitude.scaleTen x.places).round :=
    five_pow_dvd (e := 1074) hm
  have hle := Nat.le_of_dvd (Nat.pos_of_ne_zero hpos) hdvd
  have hbig : 5 ^ 26 ≤ 5 ^ x.places := Nat.pow_le_pow_right (by omega) hplaces
  omega

end

end Binary64
end Lumen
