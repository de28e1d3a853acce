/-
  Lumen.Proofs.Numbers.Nearest — which decimals are read as which double.

  A double is read from what lies near enough to it: up to half a spacing away, or
  a quarter below a power of two, where the numbers lie twice as close.  At the ends
  of this interval it is read if its mantissa is even.  For the least normal number
  reading asks for the quarter as well, since further below digits are lost.

  Below the least normal number nothing is read but what is a multiple of the least
  spacing.

  Main statements:
    * `isMagnitude_of_ofRatio?` — what is read is finite and has no sign;
    * `Attracts` — near enough to a normal number;
    * `ofRatio?_of_attracts` — what is near enough is read as that number;
    * `ofRatio?_eq_none` — what lies between two subnormal numbers is not read.
-/
import Lumen.Proofs.Numbers.Quotients
import Lumen.Binary64.Reading

namespace Lumen.Binary64

/-! ## §1. Numbers without a sign -/

/-- A finite number without a sign. -/
def IsMagnitude (x : Binary64) : Prop := x.bits.toNat < topExponent * twoTo 52

/-- A number that is too small for a leading bit in front of its fraction. -/
def isSubnormal (x : Binary64) : Bool := x.biased == 0 && x.fraction != 0

/-- The value of a finite number without its sign. -/
def value (x : Binary64) : ℚ := x.mantissa * 2 ^ x.exponent

theorem value_magnitude (x : Binary64) : x.magnitude.value = x.value := by
  unfold magnitude
  rw [Ratio.value_scaleTwo]
  simp [Ratio.value, value]

theorem den_magnitude_pos (x : Binary64) : 0 < x.magnitude.den :=
  Ratio.den_scaleTwo_pos Nat.one_pos _

theorem fraction_lt (x : Binary64) : x.fraction < 2 ^ 52 := Nat.mod_lt _ (by decide)

theorem leastExponent_le (x : Binary64) : leastExponent ≤ x.exponent := by
  unfold exponent leastExponent
  omega

theorem mantissa_lt (x : Binary64) : x.mantissa < 2 ^ 53 := by
  have hfraction := x.fraction_lt
  unfold mantissa
  rw [twoTo_eq]
  split
  · omega
  · omega

theorem le_mantissa {x : Binary64} (hnormal : x.biased ≠ 0) : 2 ^ 52 ≤ x.mantissa := by
  unfold mantissa
  rw [if_neg hnormal, twoTo_eq]
  omega

section
variable {x : Binary64} (hx : x.IsMagnitude)
include hx

/-- The bits are the exponent field and the fraction. -/
theorem bits_eq : x.bits.toNat = x.biased * 2 ^ 52 + x.fraction := by
  unfold IsMagnitude topExponent at hx
  unfold biased fraction
  simp only [twoTo_eq] at hx ⊢
  omega

theorem isNegative_eq_false : x.isNegative = false := by
  unfold IsMagnitude topExponent at hx
  unfold isNegative
  rw [decide_eq_false_iff_not]
  simp only [twoTo_eq] at hx ⊢
  omega

theorem biased_lt : x.biased < topExponent := by
  have hbits := bits_eq hx
  unfold IsMagnitude topExponent at hx
  unfold topExponent
  simp only [twoTo_eq] at hx
  omega

/-- The mantissa fills up the exponent field where it has a leading bit. -/
theorem word_eq : (x.exponent - leastExponent).toNat * twoTo 52 + x.mantissa = x.bits.toNat := by
  rw [bits_eq hx]
  unfold exponent leastExponent mantissa
  simp only [twoTo_eq]
  split
  · omega
  · omega

theorem pack?_eq_some {m : Nat} {e : Int}
    (h : (e - leastExponent).toNat * twoTo 52 + m = x.bits.toNat) : pack? m e = some x := by
  have hlt : x.bits.toNat < topExponent * twoTo 52 := hx
  have hbits : x.bits.toNat.toUInt64 = x.bits := UInt64.ofNat_toNat
  unfold pack?
  simp only [h]
  rw [if_pos hlt, hbits]

end

theorem isMagnitude_of_pack? {x : Binary64} {m : Nat} {e : Int} (h : pack? m e = some x) :
    x.IsMagnitude := by
  unfold pack? at h
  simp only at h
  split at h
  · next hlt =>
    obtain rfl := Option.some.inj h
    have hsmall : (e - leastExponent).toNat * twoTo 52 + m < 2 ^ 64 := by
      refine lt_trans hlt ?_
      decide
    unfold IsMagnitude
    rwa [Nat.toUInt64_eq, UInt64.toNat_ofNat_of_lt' hsmall]
  · cases h

/-- What is read is finite and has no sign. -/
theorem isMagnitude_of_ofRatio? {x : Binary64} {r : Ratio} (h : ofRatio? r = some x) :
    x.IsMagnitude := by
  unfold ofRatio? at h
  split at h
  · obtain rfl := Option.some.inj h
    show 0 < topExponent * twoTo 52
    decide
  · dsimp only at h
    split at h
    · exact isMagnitude_of_pack? h
    · split at h
      · exact isMagnitude_of_pack? h
      · cases h

/-! ## §2. Near enough -/

/-- How far below a normal number what is read as it may lie. -/
def gapBelow (x : Binary64) : ℚ := if x.fraction = 0 then 2 ^ x.exponent / 4 else 2 ^ x.exponent / 2

/-- How far above a number what is read as it may lie. -/
def gapAbove (x : Binary64) : ℚ := 2 ^ x.exponent / 2

/-- A value lies near enough to a normal number to be read as it: not further away
    than the gaps, and nearer if the mantissa is odd. -/
structure Attracts (x : Binary64) (v : ℚ) : Prop where
  low : x.value - x.gapBelow ≤ v
  high : v ≤ x.value + x.gapAbove
  odd : x.mantissa % 2 = 1 → x.value - x.gapBelow < v ∧ v < x.value + x.gapAbove

theorem gapBelow_le (x : Binary64) : x.gapBelow ≤ 2 ^ x.exponent / 2 := by
  have hpos : (0 : ℚ) < 2 ^ x.exponent := by positivity
  unfold gapBelow
  split
  · linarith
  · exact le_refl _

/-- Fifty-four bits are enough to be near. -/
theorem attracts_of_abs_lt {x : Binary64} (hnormal : x.biased ≠ 0) {v : ℚ}
    (h : |v - x.value| < x.value / 2 ^ 54) : x.Attracts v := by
  have hpos : (0 : ℚ) < 2 ^ x.exponent := by positivity
  have hlt : (x.mantissa : ℚ) < 2 ^ 53 := by exact_mod_cast x.mantissa_lt
  have hbelow : x.value / 2 ^ 54 ≤ x.gapBelow := by
    unfold gapBelow value
    split
    · next hzero =>
      -- the gap is half as wide, but so is the number
      have hm : x.mantissa = 2 ^ 52 := by
        unfold mantissa
        rw [if_neg hnormal, hzero]
        rfl
      rw [hm]
      push_cast
      nlinarith
    · nlinarith
  have habove : x.value / 2 ^ 54 ≤ x.gapAbove := by
    unfold gapAbove value
    nlinarith
  rw [abs_lt] at h
  exact ⟨by linarith, by linarith, fun _ => ⟨by linarith, by linarith⟩⟩

/-! ## §3. What is read -/

section
variable {x : Binary64} (hx : x.IsMagnitude) (hnormal : x.biased ≠ 0) {r : Ratio}
  (hden : 0 < r.den) (h : x.Attracts r.value)
include hx hnormal hden h

omit hx hden in
/-- What is near a normal number is not zero, and below the next power of two. -/
theorem Attracts.bounds : 2 ^ (x.exponent + 51) ≤ r.value ∧ r.value < 2 ^ (x.exponent + 53)
    ∧ r.num ≠ 0 := by
  have hpos : (0 : ℚ) < 2 ^ x.exponent := by positivity
  have hm : (2 ^ 52 : ℚ) ≤ x.mantissa := by exact_mod_cast le_mantissa hnormal
  -- a normal mantissa is between two powers of two, and below the upper one
  have hlt : (x.mantissa : ℚ) ≤ 2 ^ 53 - 1 := by
    have hnat : x.mantissa + 1 ≤ 2 ^ 53 := x.mantissa_lt
    have hcast : (x.mantissa : ℚ) + 1 ≤ 2 ^ 53 := by exact_mod_cast hnat
    linarith
  have hbelow := x.gapBelow_le
  have hlow := h.low
  have hhigh := h.high
  unfold gapAbove at hhigh
  unfold value at hlow hhigh
  have hsmall : 2 ^ (x.exponent + 51) ≤ r.value := by
    have hmul : 2 ^ 52 * 2 ^ x.exponent ≤ x.mantissa * (2 : ℚ) ^ x.exponent := by gcongr
    rw [zpow_add₀ (by norm_num), zpow_ofNat]
    linarith
  refine ⟨hsmall, ?_, ?_⟩
  · have hmul : x.mantissa * (2 : ℚ) ^ x.exponent ≤ (2 ^ 53 - 1) * 2 ^ x.exponent := by gcongr
    rw [zpow_add₀ (by norm_num), zpow_ofNat]
    linarith
  · intro hzero
    have hvalue : r.value = 0 := by simp [Ratio.value, hzero]
    have hpower : (0 : ℚ) < 2 ^ (x.exponent + 51) := by positivity
    linarith

/-- What is near enough, and not below the power of two of the number. -/
theorem ofRatio?_of_le (hbig : (2 : ℚ) ^ (x.exponent + 52) ≤ r.value) :
    ofRatio? r = some x := by
  obtain ⟨-, hlt, hnum⟩ := h.bounds hnormal
  have hpos : (0 : ℚ) < 2 ^ x.exponent := by positivity
  have hlog : r.floorLogTwo - 52 = x.exponent := by
    have heq := Ratio.floorLogTwo_eq hnum hden hbig (by rwa [add_assoc])
    omega
  -- in units of the last place the quotient is within a half of the mantissa
  have hround : (r.scaleTwo (-x.exponent)).round = x.mantissa := by
    have hbelow := x.gapBelow_le
    have hlow := h.low
    have hhigh := h.high
    have hodd := h.odd
    unfold gapAbove at hhigh hodd
    unfold value at hlow hhigh hodd
    have hdiff : (r.scaleTwo (-x.exponent)).value - x.mantissa
        = (r.value - x.mantissa * 2 ^ x.exponent) / 2 ^ x.exponent := by
      rw [Ratio.value_scaleTwo, zpow_neg]
      field_simp
    apply Ratio.round_eq (Ratio.den_scaleTwo_pos hden _)
    · rw [hdiff, abs_le, le_div_iff₀ hpos, div_le_iff₀ hpos]
      constructor
      · linarith
      · linarith
    · intro hone
      obtain ⟨hlow', hhigh'⟩ := hodd hone
      rw [hdiff, abs_lt, lt_div_iff₀ hpos, div_lt_iff₀ hpos]
      constructor
      · linarith
      · linarith
  unfold ofRatio?
  rw [if_neg hnum]
  simp only [hlog]
  rw [if_pos x.leastExponent_le, hround]
  exact pack?_eq_some hx (word_eq hx)

section
variable (hsmall : r.value < 2 ^ (x.exponent + 52))
include hsmall

omit hx hden in
/-- Only a power of two has something near it that is below its own power. -/
theorem mantissa_of_lt : x.mantissa = 2 ^ 52 ∧ x.fraction = 0 := by
  have hpos : (0 : ℚ) < 2 ^ x.exponent := by positivity
  have hlow := h.low
  have hbelow := x.gapBelow_le
  unfold value at hlow
  rw [zpow_add₀ (by norm_num), zpow_ofNat] at hsmall
  have hmul : x.mantissa * (2 : ℚ) ^ x.exponent < (2 ^ 52 + 1) * 2 ^ x.exponent := by linarith
  have hcast : (x.mantissa : ℚ) < 2 ^ 52 + 1 := lt_of_mul_lt_mul_right hmul hpos.le
  have hnat : x.mantissa < 2 ^ 52 + 1 := by exact_mod_cast hcast
  have hle := le_mantissa hnormal
  have hmantissa : x.mantissa = twoTo 52 + x.fraction := by
    unfold mantissa
    rw [if_neg hnormal]
  rw [twoTo_eq] at hmantissa
  omega

omit hx hden in
/-- A quarter of a spacing is allowed there. -/
theorem units_of_lt : (2 ^ 52 : ℚ) - 1 / 4 ≤ r.value / 2 ^ x.exponent
    ∧ r.value / 2 ^ x.exponent < 2 ^ 52 := by
  have hpos : (0 : ℚ) < 2 ^ x.exponent := by positivity
  obtain ⟨hmantissa, hfraction⟩ := mantissa_of_lt hnormal h hsmall
  have hlow := h.low
  unfold value gapBelow at hlow
  rw [if_pos hfraction, hmantissa] at hlow
  rw [zpow_add₀ (by norm_num), zpow_ofNat] at hsmall
  rw [le_div_iff₀ hpos, div_lt_iff₀ hpos]
  norm_num at hlow hsmall ⊢
  constructor
  · linarith
  · linarith

omit hx in
/-- The next binade below gives it one more bit, and it rounds up to the power. -/
theorem round_of_lt : r.floorLogTwo - 52 = x.exponent - 1
    ∧ (r.scaleTwo (-(x.exponent - 1))).round = 2 ^ 53 := by
  obtain ⟨hbig, -, hnum⟩ := h.bounds hnormal
  obtain ⟨hlow, hhigh⟩ := units_of_lt hnormal h hsmall
  have hnext : x.exponent + 51 + 1 = x.exponent + 52 := by omega
  have hlog := Ratio.floorLogTwo_eq hnum hden hbig (by rwa [hnext])
  refine ⟨by omega, ?_⟩
  have hvalue : (r.scaleTwo (-(x.exponent - 1))).value = 2 * (r.value / 2 ^ x.exponent) := by
    rw [Ratio.value_scaleTwo, neg_sub, zpow_sub₀ (by norm_num)]
    field_simp
  apply Ratio.round_eq_of_even (Ratio.den_scaleTwo_pos hden _) (by norm_num)
  rw [hvalue, abs_le]
  push_cast
  constructor
  · linarith
  · linarith

/-- What is near enough, but below the power of two that the number is. -/
theorem ofRatio?_of_lt : ofRatio? r = some x := by
  obtain ⟨-, -, hnum⟩ := h.bounds hnormal
  obtain ⟨hmantissa, -⟩ := mantissa_of_lt hnormal h hsmall
  obtain ⟨hlog, hround⟩ := round_of_lt hnormal hden h hsmall
  have hword := word_eq hx
  rw [hmantissa] at hword
  unfold ofRatio?
  rw [if_neg hnum]
  simp only [hlog]
  split
  · next hle =>
    -- the mantissa carries into the exponent field
    rw [hround]
    apply pack?_eq_some hx
    rw [← hword]
    simp only [twoTo_eq]
    omega
  · next hle =>
    -- the least normal number, which is reached at full precision
    have hleast : x.exponent = leastExponent := by
      have hle' := x.leastExponent_le
      omega
    have hreaches : (x.exponent - 1 == leastExponent - 1
        && (r.scaleTwo (-(x.exponent - 1))).round == twoTo 53) = true := by
      rw [hround, hleast, twoTo_eq]
      simp
    have hround' : (r.scaleTwo (-leastExponent)).round = 2 ^ 52 := by
      obtain ⟨hlow, hhigh⟩ := units_of_lt hnormal h hsmall
      apply Ratio.round_eq_of_abs_lt (Ratio.den_scaleTwo_pos hden _)
      rw [Ratio.value_scaleTwo, zpow_neg, ← div_eq_mul_inv, ← hleast, abs_lt]
      push_cast
      constructor
      · linarith
      · linarith
    rw [hreaches, Bool.or_true, if_pos rfl, hround']
    apply pack?_eq_some hx
    rw [← hword, hleast]

end

/-- What is near enough to a normal number is read as that number. -/
theorem ofRatio?_of_attracts : ofRatio? r = some x := by
  by_cases hbig : (2 : ℚ) ^ (x.exponent + 52) ≤ r.value
  · exact ofRatio?_of_le hx hnormal hden h hbig
  · exact ofRatio?_of_lt hx hnormal hden h (not_le.mp hbig)

end

section
variable {r : Ratio} (hden : 0 < r.den)
include hden

/-- What is a multiple of the least spacing when rounded to one is one. -/
theorem value_eq_of_exact (h : (r.scaleTwo (-leastExponent)).round
      * (r.scaleTwo (-leastExponent)).den = (r.scaleTwo (-leastExponent)).num) :
    r.value = (r.scaleTwo (-leastExponent)).round * 2 ^ leastExponent := by
  have hpos : (0 : ℚ) < 2 ^ leastExponent := by positivity
  have hden' : ((r.scaleTwo (-leastExponent)).den : ℚ) ≠ 0 := by
    exact_mod_cast (Ratio.den_scaleTwo_pos hden _).ne'
  have hvalue : (r.scaleTwo (-leastExponent)).value = (r.scaleTwo (-leastExponent)).round := by
    unfold Ratio.value
    rw [div_eq_iff hden']
    exact_mod_cast h.symm
  rw [← hvalue, Ratio.value_scaleTwo, zpow_neg, inv_mul_cancel_right₀ hpos.ne']

variable (hsmall : r.value < (2 ^ 52 - 1 / 4) * 2 ^ leastExponent)
include hsmall

/-- A quarter of a spacing below the least normal number, fifty-three bits do not
    reach it. -/
theorem round_ne_of_lt (hfull : r.floorLogTwo - 52 = leastExponent - 1) :
    (r.scaleTwo (-(r.floorLogTwo - 52))).round ≠ twoTo 53 := by
  intro hround
  have hpos : (0 : ℚ) < 2 ^ leastExponent := by positivity
  have hnear := Ratio.abs_value_sub_round_le (Ratio.den_scaleTwo_pos hden
    (-(r.floorLogTwo - 52)))
  rw [hround, hfull, Ratio.value_scaleTwo, neg_sub, zpow_sub₀ (by norm_num), abs_le,
    cast_twoTo] at hnear
  have hunits : r.value / 2 ^ leastExponent < 2 ^ 52 - 1 / 4 := by
    rw [div_lt_iff₀ hpos]
    exact hsmall
  have htwice : r.value * (2 ^ (1 : Int) / 2 ^ leastExponent)
      = 2 * (r.value / 2 ^ leastExponent) := by
    rw [zpow_one]
    ring
  rw [htwice] at hnear
  linarith [hnear.1]

/-- Below the least normal number, what lies between two subnormal numbers is not
    read. -/
theorem ofRatio?_eq_none (hnum : r.num ≠ 0)
    (hbetween : ∀ n : Nat, r.value ≠ n * 2 ^ leastExponent) : ofRatio? r = none := by
  have hlog : r.floorLogTwo < leastExponent + 52 := by
    obtain ⟨hlow, -⟩ := Ratio.floorLogTwo_spec hnum hden
    have hpos : (0 : ℚ) < 2 ^ leastExponent := by positivity
    apply lt_of_zpow_lt (b := 2) (by norm_num)
    rw [zpow_add₀ (by norm_num)]
    norm_num at hsmall ⊢
    linarith
  have hexact : ((r.scaleTwo (-leastExponent)).round * (r.scaleTwo (-leastExponent)).den
      == (r.scaleTwo (-leastExponent)).num) = false := by
    rw [beq_eq_false_iff_ne]
    exact fun heq => hbetween _ (value_eq_of_exact hden heq)
  -- nor does it round up to the least normal number
  have hreaches : ((r.floorLogTwo - 52 == leastExponent - 1)
      && (r.scaleTwo (-(r.floorLogTwo - 52))).round == twoTo 53) = false := by
    rw [Bool.and_eq_false_iff, beq_eq_false_iff_ne, beq_eq_false_iff_ne, or_iff_not_imp_left,
      not_not]
    exact round_ne_of_lt hden hsmall
  unfold ofRatio?
  rw [if_neg hnum]
  simp only
  rw [if_neg (by omega), hexact, hreaches]
  rfl

end

end Lumen.Binary64
