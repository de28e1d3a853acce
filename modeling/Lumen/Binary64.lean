/-
  Lumen.Binary64 — IEEE-754 double-precision numbers, given by their bits.

  A number is its 64 bits, so that two numbers are equal as data just when
  no operation can tell them apart; comparison in the sense of the standard
  is `ieeeEq`.  A finite magnitude is `mantissa · 2 ^ exponent`, exactly.

  Main statements:
    * `neg_neg` — the sign flips back;
    * `ieeeEq_self_iff` — a number equals itself unless it is not a number.
-/
import Lumen.Ratio

namespace Lumen

/-- A double-precision number. -/
structure Binary64 where
  bits : UInt64
deriving DecidableEq, Repr, Inhabited

namespace Binary64

/-! ## §1. Fields -/

/-- The bit that holds the sign. -/
def signBit : UInt64 := 0x8000000000000000

/-- Whether the sign bit is set; it may be on a zero and on a NaN too. -/
def isNegative (b : Binary64) : Bool := decide (twoTo 63 ≤ b.bits.toNat)

/-- The eleven exponent bits. -/
def biased (b : Binary64) : Nat := b.bits.toNat / twoTo 52 % twoTo 11

/-- The fifty-two bits below the exponent. -/
def fraction (b : Binary64) : Nat := b.bits.toNat % twoTo 52

/-- The exponent field of infinities and NaNs. -/
def topExponent : Nat := 2047

def isNaN (b : Binary64) : Bool := b.biased == topExponent && b.fraction != 0

def isInfinite (b : Binary64) : Bool := b.biased == topExponent && b.fraction == 0

def isZero (b : Binary64) : Bool := b.biased == 0 && b.fraction == 0

/-! ## §2. The magnitude of a finite number -/

/-- The mantissa: a leading bit stands in front of the fraction unless the
    number is subnormal. -/
def mantissa (b : Binary64) : Nat :=
  if b.biased = 0 then b.fraction else twoTo 52 + b.fraction

/-- The power of two that the mantissa counts. -/
def exponent (b : Binary64) : Int := (max b.biased 1 : Int) - 1075

/-- The exact magnitude of a finite number. -/
def magnitude (b : Binary64) : Ratio := Ratio.scaleTwo ⟨b.mantissa, 1⟩ b.exponent

/-! ## §3. Sign and equality -/

/-- The number with the other sign. -/
def neg (b : Binary64) : Binary64 := ⟨b.bits ^^^ signBit⟩

/-- Equality as the standard has it: a NaN equals nothing, and the two zeros
    equal each other. -/
def ieeeEq (a b : Binary64) : Bool :=
  !a.isNaN && !b.isNaN && (a == b || (a.isZero && b.isZero))

@[simp] theorem neg_neg (b : Binary64) : b.neg.neg = b := by
  unfold neg
  rw [UInt64.xor_assoc, UInt64.xor_self, UInt64.xor_zero]

theorem ieeeEq_self_iff (b : Binary64) : b.ieeeEq b = true ↔ b.isNaN = false := by
  simp [ieeeEq]

end Binary64
end Lumen
