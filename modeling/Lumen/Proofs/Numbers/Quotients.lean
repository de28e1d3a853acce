/-
  Lumen.Proofs.Numbers.Quotients — quotients of naturals as rational numbers.

  What is computed with quotients depends on their values alone.  Scaling
  multiplies by a power, rounding gives the nearest natural, with ties to the even
  one, and the two orders of magnitude are those of the value.

  Main statements:
    * `value_scaleTwo`, `value_scaleTen` — scaling;
    * `abs_value_sub_round_le`, `round_eq_of_abs_lt`, `round_eq_of_even` — rounding;
    * `floorLogTwo_spec`, `floorLogTen_spec` — the value lies between two powers.
-/
import Mathlib.Algebra.Order.Field.Power
import Mathlib.Data.Nat.Log
import Mathlib.Tactic.FieldSimp
import Mathlib.Tactic.Linarith
import Mathlib.Tactic.LinearCombination
import Mathlib.Tactic.NormNum
import Mathlib.Tactic.Positivity
import Mathlib.Tactic.Ring
import Lumen.Ratio

namespace Lumen

/-! ## §1. Powers -/

theorem twoTo_eq (e : Nat) : twoTo e = 2 ^ e := rfl

theorem tenTo_eq (e : Nat) : tenTo e = 10 ^ e := rfl

@[simp] theorem cast_twoTo (e : Nat) : ((twoTo e : Nat) : ℚ) = 2 ^ e := by
  rw [twoTo_eq]
  push_cast
  rfl

@[simp] theorem cast_tenTo (e : Nat) : ((tenTo e : Nat) : ℚ) = 10 ^ e := by
  rw [tenTo_eq]
  push_cast
  rfl

/-- A number lies between the power of ten with as many digits and the next one. -/
theorem digitCount_spec {n : Nat} (h : n ≠ 0) :
    ∃ k, digitCount n = k + 1 ∧ tenTo k ≤ n ∧ n < tenTo (k + 1) := by
  obtain ⟨k, hk⟩ : ∃ k, digitCount n = k + 1 := by
    rw [digitCount, dif_neg h]
    exact ⟨_, rfl⟩
  refine ⟨k, hk, ?_, (digitCount_le_iff n (k + 1)).mp (by omega)⟩
  by_contra hlt
  have hle := (digitCount_le_iff n k).mpr (Nat.not_le.mp hlt)
  omega

/-- One of the two parts of an exponent is zero. -/
theorem pow_toNat_div (b : ℚ) (e : Int) : b ^ e.toNat / b ^ (-e).toNat = b ^ e := by
  rcases Int.eq_nat_or_neg e with ⟨n, rfl | rfl⟩
  · simp
  · simp

/-- The exponent of a power is bounded by what the power is bounded by. -/
theorem lt_of_zpow_lt {b : ℚ} (hb : 1 < b) {d e : Int} (h : b ^ d < b ^ e) : d < e :=
  (zpow_lt_zpow_iff_right₀ hb).mp h

namespace Ratio

/-- The value of a quotient. -/
def value (r : Ratio) : ℚ := r.num / r.den

/-! ## §2. Scaling -/

theorem value_scaleTwo (r : Ratio) (e : Int) : (r.scaleTwo e).value = r.value * 2 ^ e := by
  unfold value scaleTwo
  push_cast
  rw [cast_twoTo, cast_twoTo, mul_div_mul_comm, pow_toNat_div]

theorem value_scaleTen (r : Ratio) (e : Int) : (r.scaleTen e).value = r.value * 10 ^ e := by
  unfold value scaleTen
  push_cast
  rw [cast_tenTo, cast_tenTo, mul_div_mul_comm, pow_toNat_div]

theorem den_scaleTwo_pos {r : Ratio} (h : 0 < r.den) (e : Int) : 0 < (r.scaleTwo e).den :=
  Nat.mul_pos h (twoTo_pos _)

theorem den_scaleTen_pos {r : Ratio} (h : 0 < r.den) (e : Int) : 0 < (r.scaleTen e).den :=
  Nat.mul_pos h (tenTo_pos _)

/-! ## §3. Rounding -/

section
variable {r : Ratio} (h : 0 < r.den)
include h

/-- A comparison with a natural is one of the naturals that make up the quotient. -/
theorem le_value_iff (n : Nat) : (n : ℚ) ≤ r.value ↔ n * r.den ≤ r.num := by
  have hden : (0 : ℚ) < r.den := by exact_mod_cast h
  unfold value
  rw [le_div_iff₀ hden]
  exact_mod_cast Iff.rfl

theorem value_lt_iff (n : Nat) : r.value < n ↔ r.num < n * r.den := by
  rw [← not_le, le_value_iff h, Nat.not_le]

theorem abs_value_sub_round_le : |r.value - r.round| ≤ 1 / 2 := by
  have hden : (0 : ℚ) < r.den := by exact_mod_cast h
  have hnum : r.value * r.den = r.num := by
    unfold value
    field_simp
  have hle : (2 * (r.round * r.den) : ℚ) ≤ 2 * r.num + r.den := by
    exact_mod_cast r.two_mul_round_le h
  have hge : (2 * r.num : ℚ) ≤ 2 * (r.round * r.den) + r.den := by
    exact_mod_cast r.le_two_mul_round h
  rw [abs_le]
  constructor
  · nlinarith
  · nlinarith

/-- What is less than half a unit away is what is rounded to. -/
theorem round_eq_of_abs_lt {n : Nat} (hn : |r.value - n| < 1 / 2) : r.round = n := by
  have hround := abs_value_sub_round_le h
  rw [abs_lt] at hn
  rw [abs_le] at hround
  have hlt : (r.round : ℚ) < n + 1 := by linarith
  have hgt : (n : ℚ) < r.round + 1 := by linarith
  have hlt' : r.round < n + 1 := by exact_mod_cast hlt
  have hgt' : n < r.round + 1 := by exact_mod_cast hgt
  omega

/-- Half a unit above a natural it is that one or the next one, whichever is even. -/
theorem round_of_half {q : Nat} (hq : 2 * r.num = (2 * q + 1) * r.den) :
    r.round = q + q % 2 := by
  have hquotient : r.num / r.den = q := Nat.div_eq_of_lt_le (by nlinarith) (by nlinarith)
  have hdivmod := Nat.div_add_mod r.num r.den
  rw [hquotient] at hdivmod
  have htie : 2 * (r.num % r.den) = r.den := by nlinarith
  unfold round
  simp only [htie, hquotient, lt_irrefl, if_false]

/-- At half a unit it is the even one. -/
theorem round_eq_of_even {n : Nat} (heven : n % 2 = 0) (hn : |r.value - n| ≤ 1 / 2) :
    r.round = n := by
  have hden : (0 : ℚ) < r.den := by exact_mod_cast h
  have hnum : r.value * r.den = r.num := by
    unfold value
    field_simp
  rcases lt_or_eq_of_le hn with hlt | heq
  · exact round_eq_of_abs_lt h hlt
  -- the value lies half a unit above the even number, or below it
  · rcases (abs_eq (by norm_num)).mp heq with habove | hbelow
    · have hval : (2 * r.num : ℚ) = (2 * n + 1) * r.den := by
        rw [← hnum]
        linear_combination (2 * (r.den : ℚ)) * habove
      rw [round_of_half h (by exact_mod_cast hval)]
      omega
    · obtain ⟨q, rfl⟩ : ∃ q, n = q + 1 := by
        apply Nat.exists_eq_add_one_of_ne_zero
        rintro rfl
        have hnonneg : 0 ≤ r.value := by
          unfold value
          positivity
        norm_num at hbelow
        linarith
      have hval : (2 * r.num : ℚ) = (2 * q + 1) * r.den := by
        push_cast at hbelow
        rw [← hnum]
        linear_combination (2 * (r.den : ℚ)) * hbelow
      rw [round_of_half h (by exact_mod_cast hval)]
      omega

/-- What a value is rounded to, where ties only happen at even numbers. -/
theorem round_eq {n : Nat} (hn : |r.value - n| ≤ 1 / 2)
    (hodd : n % 2 = 1 → |r.value - n| < 1 / 2) : r.round = n := by
  rcases Nat.mod_two_eq_zero_or_one n with heven | hone
  · exact round_eq_of_even h heven hn
  · exact round_eq_of_abs_lt h (hodd hone)

end

/-! ## §4. Orders of magnitude -/

/-- The bit lengths of the two sides leave two candidates. -/
theorem log2_estimate {r : Ratio} (hnum : r.num ≠ 0) (h : 0 < r.den) {e : Int}
    (he : e = (r.num.log2 : Int) - r.den.log2) :
    (2 : ℚ) ^ (e - 1) ≤ r.value ∧ r.value < 2 ^ (e + 1) := by
  have hden : (0 : ℚ) < r.den := by exact_mod_cast h
  set a := r.num.log2 with ha
  set b := r.den.log2 with hb
  -- both sides are between two powers of two
  have hnumLow : (2 : ℚ) ^ a ≤ r.num := by exact_mod_cast Nat.log2_self_le hnum
  have hnumHigh : (r.num : ℚ) < 2 ^ (a + 1) := by exact_mod_cast Nat.lt_log2_self
  have hdenLow : (2 : ℚ) ^ b ≤ r.den := by exact_mod_cast Nat.log2_self_le (by omega)
  have hdenHigh : (r.den : ℚ) < 2 ^ (b + 1) := by exact_mod_cast Nat.lt_log2_self
  have hpow : (2 : ℚ) ^ e * 2 ^ b = 2 ^ a := by
    rw [← zpow_natCast, ← zpow_natCast, ← zpow_add₀ (by norm_num)]
    congr 1
    omega
  unfold value
  constructor
  · rw [le_div_iff₀ hden, zpow_sub₀ (by norm_num), zpow_one]
    calc (2 : ℚ) ^ e / 2 * r.den ≤ 2 ^ e / 2 * 2 ^ (b + 1) := by gcongr
      _ = 2 ^ a := by rw [pow_succ, ← hpow]; ring
      _ ≤ r.num := hnumLow
  · rw [div_lt_iff₀ hden, zpow_add₀ (by norm_num), zpow_one]
    calc (r.num : ℚ) < 2 ^ (a + 1) := hnumHigh
      _ = 2 ^ e * 2 * 2 ^ b := by rw [pow_succ, ← hpow]; ring
      _ ≤ 2 ^ e * 2 * r.den := by gcongr

/-- The upper one is told by a comparison. -/
theorem den_le_num_scaleTwo_iff {r : Ratio} (h : 0 < r.den) (e : Int) :
    (r.scaleTwo (-e)).den ≤ (r.scaleTwo (-e)).num ↔ (2 : ℚ) ^ e ≤ r.value := by
  have hpos : (0 : ℚ) < 2 ^ e := by positivity
  have hone := le_value_iff (den_scaleTwo_pos h (-e)) 1
  rw [Nat.one_mul, value_scaleTwo, zpow_neg, ← div_eq_mul_inv, le_div_iff₀ hpos, Nat.cast_one,
    one_mul] at hone
  exact hone.symm

/-- The value lies between the power of two that was found and the next one. -/
theorem floorLogTwo_spec {r : Ratio} (hnum : r.num ≠ 0) (h : 0 < r.den) :
    (2 : ℚ) ^ r.floorLogTwo ≤ r.value ∧ r.value < 2 ^ (r.floorLogTwo + 1) := by
  obtain ⟨hlow, hhigh⟩ := log2_estimate hnum h rfl
  unfold floorLogTwo
  dsimp only
  split
  · next hle => exact ⟨(den_le_num_scaleTwo_iff h _).mp hle, hhigh⟩
  · next hlt =>
    rw [den_le_num_scaleTwo_iff h, not_le] at hlt
    rw [sub_add_cancel]
    exact ⟨hlow, hlt⟩

/-- The power of two below a value is known by its bounds. -/
theorem floorLogTwo_eq {r : Ratio} (hnum : r.num ≠ 0) (h : 0 < r.den) {k : Int}
    (hlow : (2 : ℚ) ^ k ≤ r.value) (hhigh : r.value < 2 ^ (k + 1)) : r.floorLogTwo = k := by
  obtain ⟨hlow', hhigh'⟩ := floorLogTwo_spec hnum h
  have h₁ := lt_of_zpow_lt (by norm_num) (lt_of_le_of_lt hlow hhigh')
  have h₂ := lt_of_zpow_lt (by norm_num) (lt_of_le_of_lt hlow' hhigh)
  omega

section
variable {r : Ratio} (h : 0 < r.den)
include h

/-- From one on, the digits of the integer part tell. -/
theorem floorLogTen_of_le (hone : r.den ≤ r.num) :
    (10 : ℚ) ^ r.floorLogTen ≤ r.value ∧ r.value < 10 ^ (r.floorLogTen + 1) := by
  have hfloor : r.floor ≠ 0 := (Nat.div_pos hone h).ne'
  obtain ⟨k, hk, hle, hlt⟩ := digitCount_spec hfloor
  have hlog : r.floorLogTen = k := by
    unfold floorLogTen
    rw [if_pos hone, hk]
    omega
  rw [hlog]
  constructor
  · have hbase := (le_value_iff h (tenTo k)).mpr ((Nat.le_div_iff_mul_le h).mp hle)
    rwa [cast_tenTo, ← zpow_natCast] at hbase
  · have hbase := (value_lt_iff h (tenTo (k + 1))).mpr ((Nat.div_lt_iff_lt_mul h).mp hlt)
    rwa [cast_tenTo, ← zpow_natCast] at hbase

/-- Below one, the digits of what the reciprocal exceeds. -/
theorem floorLogTen_of_lt (hnum : r.num ≠ 0) (hone : r.num < r.den) :
    (10 : ℚ) ^ r.floorLogTen ≤ r.value ∧ r.value < 10 ^ (r.floorLogTen + 1) := by
  have hden : (0 : ℚ) < r.den := by exact_mod_cast h
  have hpos : 0 < r.num := Nat.pos_of_ne_zero hnum
  have hquotient : (r.den - 1) / r.num ≠ 0 := (Nat.div_pos (by omega) hpos).ne'
  -- the reciprocal is at least ten to the `k`, and below the next power
  obtain ⟨k, hk, hle, hlt⟩ := digitCount_spec hquotient
  have hlog : r.floorLogTen = -((k + 1 : Nat) : Int) := by
    unfold floorLogTen
    rw [if_neg (by omega), hk]
  have hnext : r.floorLogTen + 1 = -(k : Int) := by omega
  rw [hnext, hlog, zpow_neg, zpow_neg, zpow_natCast, zpow_natCast]
  unfold value
  constructor
  · have hbase : r.den ≤ tenTo (k + 1) * r.num := by
      have hdiv := (Nat.div_lt_iff_lt_mul hpos).mp hlt
      omega
    rw [le_div_iff₀ hden, inv_mul_le_iff₀ (by positivity), ← cast_tenTo]
    exact_mod_cast hbase
  · have hbase : tenTo k * r.num < r.den := by
      have hdiv := (Nat.le_div_iff_mul_le hpos).mp hle
      omega
    rw [div_lt_iff₀ hden, lt_inv_mul_iff₀ (by positivity), ← cast_tenTo]
    exact_mod_cast hbase

/-- The value lies between the power of ten that was found and the next one. -/
theorem floorLogTen_spec (hnum : r.num ≠ 0) :
    (10 : ℚ) ^ r.floorLogTen ≤ r.value ∧ r.value < 10 ^ (r.floorLogTen + 1) := by
  by_cases hone : r.den ≤ r.num
  · exact floorLogTen_of_le h hone
  · exact floorLogTen_of_lt h hnum (by omega)

end

end Ratio
end Lumen
