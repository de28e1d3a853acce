/-
  Lumen.Binary64.Shortest — the fewest decimal digits that read back.

  The reals that round to a finite number form an interval around it, half a
  spacing wide on each side (a quarter below a power of two); its ends belong
  to it just when the mantissa is even.  Among the decimals with the fewest
  digits in that interval, `shortest` takes the one nearest to the number and,
  of two equally near ones, the one with the even last digit.

  A grid is the set of multiples of a power of ten.  If any point of a grid
  lies in the interval, then so does one of the two neighbours of the number
  on that grid, so the search looks at these two on ever finer grids.

  Main statements:
    * `reduce_eq_self` — a coefficient without a trailing zero is kept;
    * `onGrid?_mem` — what a grid gives lies in the interval.
-/
import Lumen.Binary64

namespace Lumen

/-! ## §1. Decimals -/

/-- The number `coefficient · 10 ^ exponent`. -/
structure Decimal where
  coefficient : Nat
  exponent : Int
deriving DecidableEq, Repr

namespace Decimal

/-- The same number with a coefficient that does not end in zero. -/
def reduce (d : Decimal) : Decimal :=
  if h : d.coefficient ≠ 0 ∧ d.coefficient % 10 = 0 then
    reduce ⟨d.coefficient / 10, d.exponent + 1⟩
  else d
termination_by d.coefficient
decreasing_by omega

/-- The power of ten that the first digit counts. -/
def leadingExponent (d : Decimal) : Int :=
  d.exponent + digitCount d.coefficient - 1

theorem reduce_eq_self {d : Decimal} (h : d.coefficient % 10 ≠ 0) : d.reduce = d := by
  rw [reduce.eq_def, dif_neg (by omega)]

end Decimal

/-! ## §2. The interval of reals that round to a number -/

namespace Binary64

/-- The ends of a rounding interval, over one denominator. -/
structure Interval where
  low : Nat
  high : Nat
  den : Nat
  closed : Bool

/-- The reals that round to a finite number's magnitude.  In quarters of a
    spacing the number lies at `4 · mantissa` and its neighbours at distance
    four, except that below a power of two the distance is two. -/
def interval (b : Binary64) : Interval :=
  let unit := Ratio.scaleTwo ⟨1, 4⟩ b.exponent
  let below := if b.fraction = 0 ∧ 1 < b.biased then 1 else 2
  { low := (4 * b.mantissa - below) * unit.num
    high := (4 * b.mantissa + 2) * unit.num
    den := unit.den
    closed := b.mantissa % 2 == 0 }

/-- Whether `c · 10 ^ grid` lies in the interval. -/
def Interval.contains (i : Interval) (grid : Int) (c : Nat) : Bool :=
  let point := c * tenTo grid.toNat * i.den
  let low := i.low * tenTo (-grid).toNat
  let high := i.high * tenTo (-grid).toNat
  if i.closed then low ≤ point && point ≤ high else low < point && point < high

/-! ## §3. The search -/

/-- The multiple of `10 ^ grid` in the interval that is nearest to the number. -/
def onGrid? (b : Binary64) (grid : Int) : Option Nat :=
  let scaled := b.magnitude.scaleTen (-grid)
  let c := scaled.floor
  match b.interval.contains grid c, b.interval.contains grid (c + 1) with
  | true, false => some c
  | false, true => some (c + 1)
  | true, true => some scaled.round
  | false, false => none

/-- Seventeen digits always suffice, so the finest grid needs no test. -/
def shortestFrom (b : Binary64) (grid : Int) : Nat → Decimal
  | 0 => ⟨(b.magnitude.scaleTen (-grid)).round, grid⟩
  | finer + 1 =>
    match b.onGrid? grid with
    | some c => ⟨c, grid⟩
    | none => shortestFrom b (grid - 1) finer

/-- The shortest decimal that reads back as a finite number's magnitude. -/
def shortest (b : Binary64) : Decimal :=
  if b.isZero then ⟨0, 0⟩
  else (b.shortestFrom b.magnitude.floorLogTen 16).reduce

theorem onGrid?_mem {b : Binary64} {grid : Int} {c : Nat}
    (h : b.onGrid? grid = some c) : b.interval.contains grid c = true := by
  unfold onGrid? at h
  simp only at h
  split at h
  · next h1 _ => cases h; exact h1
  · next _ h2 => cases h; exact h2
  · next h1 h2 =>
    cases h
    unfold Ratio.round
    simp only
    split
    · exact h1
    · split
      · exact h2
      · rcases Nat.mod_two_eq_zero_or_one
            ((b.magnitude.scaleTen (-grid)).num / (b.magnitude.scaleTen (-grid)).den) with he | ho
        · rw [he]; exact h1
        · rw [ho]; exact h2
  · cases h

end Binary64
end Lumen
