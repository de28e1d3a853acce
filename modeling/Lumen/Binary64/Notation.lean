/-
  Lumen.Binary64.Notation — numbers as source text.

  Source text has no exponent notation.  A number whose shortest digits start
  between `10 ^ -4` and `10 ^ 15` is written with just these digits, and `.0`
  if it is whole.  Any other is written out in fixed notation, correctly
  rounded: a large one to one place, a small one to seventeen places beyond
  the order of magnitude that its logarithm shows.

  That order is the floor of the double nearest to the logarithm.  For a
  number just below `10 ^ -k` the logarithm lies so close to `-k` that the
  nearest double is `-k` itself, and such a number counts as reaching `10 ^ -k`.

  Main statements:
    * `text_eq_plain` — the digits of a number of middling size;
    * `padded_eq` — the places after the point are filled up with zeros.
-/
import Lumen.Bytes
import Lumen.Binary64.Shortest

namespace Lumen

/-! ## §1. Plain notation -/

/-- A decimal written out with all its places and at least one after the point. -/
def Decimal.plain (d : Decimal) : Bytes :=
  let digits := decimal d.coefficient
  if 0 ≤ d.exponent then
    digits ++ List.replicate d.exponent.toNat (digitByte 0) ++ ascii ".0"
  else
    let places := (-d.exponent).toNat
    if places < digits.length then
      digits.take (digits.length - places) ++ ascii "." ++ digits.drop (digits.length - places)
    else
      ascii "0." ++ List.replicate (places - digits.length) (digitByte 0) ++ digits

/-! ## §2. Fixed notation -/

/-- A number in decimal notation, filled up with zeros in front to a width. -/
def padded (width n : Nat) : Bytes :=
  List.replicate (width - (decimal n).length) (digitByte 0) ++ decimal n

theorem padded_eq {width n : Nat} (h : width ≤ (decimal n).length) :
    padded width n = decimal n := by
  simp [padded, Nat.sub_eq_zero_of_le h]

/-- A quotient rounded to a number of places after the point. -/
def Ratio.fixed (r : Ratio) (places : Nat) : Bytes :=
  let units := (r.scaleTen places).round
  decimal (units / tenTo places) ++ ascii "." ++ padded places (units % tenTo places)

namespace Binary64

/-! ## §3. How many places a small number gets -/

/-- Whether a number below `10 ^ -k` has a logarithm whose nearest double is
    `-k`.  Half the spacing of the doubles beyond `-k` is `2 ^ (log2 k - 53)`,
    and `1 - r · 10 ^ k` over the natural logarithm of ten is the distance. -/
def logRoundsTo (r : Ratio) (k : Nat) : Bool :=
  let scaled := r.scaleTen k
  (scaled.den - scaled.num) * twoTo (53 - k.log2) * tenTo 15 < scaled.den * 2302585092994046

/-- The floor of the rounded decimal logarithm of a magnitude below one,
    without its sign. -/
def smallOrder (r : Ratio) : Nat :=
  let k := (-r.floorLogTen).toNat
  if logRoundsTo r (k - 1) then k - 1 else k

/-- How many places fixed notation gives to a finite number. -/
def places (b : Binary64) : Nat :=
  if b.magnitude.den ≤ b.magnitude.num then 1 else 17 + smallOrder b.magnitude

/-! ## §4. The text of a number -/

/-- The exponents of a first digit that leave a number in plain notation. -/
def isMiddling (e : Int) : Bool := -4 ≤ e && e < 16

/-- A number without its sign, as source text. -/
def unsignedText (b : Binary64) : Bytes :=
  if b.isNaN then ascii "nan.0"
  else if b.isInfinite then ascii "inf.0"
  else if isMiddling b.shortest.leadingExponent || b.isZero then b.shortest.plain
  else b.magnitude.fixed b.places

/-- A number as source text. -/
def text (b : Binary64) : Bytes :=
  if b.isNegative then 45 :: b.unsignedText else b.unsignedText

theorem text_eq_plain {b : Binary64} (hn : b.isNegative = false) (hf : b.biased ≠ topExponent)
    (hm : isMiddling b.shortest.leadingExponent = true) : b.text = b.shortest.plain := by
  simp [text, unsignedText, isNaN, isInfinite, hn, hf, hm]

end Binary64
end Lumen
