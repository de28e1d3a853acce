/-
  Lumen.Binary64.Reading — decimal literals as numbers.

  A decimal literal denotes the double nearest to it; of two equally near
  ones, the one with the even mantissa.  A literal is out of range if it
  rounds beyond the greatest finite number, or if it is so small that digits
  are lost: not representable exactly, and below `2 ^ -1022` even when
  rounded to the full fifty-three bits.

  Main statements:
    * `ofRatio?_zero` — zero is read as positive zero.
-/
import Lumen.Binary64

namespace Lumen.Binary64

/-- The exponent of the spacing of the subnormal numbers. -/
def leastExponent : Int := -1074

/-- The bits of `mantissa · 2 ^ e`, for a mantissa up to `2 ^ 53`, one of
    fewer than 53 bits only with the least exponent; `none` beyond the greatest
    finite number.  A mantissa of `2 ^ 53` (or `2 ^ 52` at the least exponent)
    carries into the exponent field. -/
def pack? (mantissa : Nat) (e : Int) : Option Binary64 :=
  let word := (e - leastExponent).toNat * twoTo 52 + mantissa
  if word < topExponent * twoTo 52 then some ⟨word.toUInt64⟩ else none

/-- The double nearest to a quotient; `none` if it is out of range. -/
def ofRatio? (r : Ratio) : Option Binary64 :=
  if r.num = 0 then some ⟨0⟩
  else
    let full := r.floorLogTwo - 52
    if leastExponent ≤ full then pack? (r.scaleTwo (-full)).round full
    else
      let scaled := r.scaleTwo (-leastExponent)
      let exact := scaled.round * scaled.den == scaled.num
      let reachesNormal :=
        full == leastExponent - 1 && (r.scaleTwo (-full)).round == twoTo 53
      if exact || reachesNormal then pack? scaled.round leastExponent else none

/-- The double nearest to `digits / 10 ^ places`; `none` if it is out of range. -/
def ofDigits? (digits places : Nat) : Option Binary64 :=
  ofRatio? ⟨digits, tenTo places⟩

theorem ofRatio?_zero (den : Nat) : ofRatio? ⟨0, den⟩ = some ⟨0⟩ := rfl

end Lumen.Binary64
