/-
  Lumen.Ratio — quotients of naturals, rounded and measured exactly.

  A finite floating-point magnitude and a decimal literal are both quotients
  of naturals.  Turning one into the other takes three things: a quotient
  rounded to the nearest natural, and its order of magnitude in base two and
  in base ten.  All of it is exact arithmetic on naturals.

  Main statements:
    * `two_mul_round_le` / `le_two_mul_round` — the rounded quotient is within
      half a unit of the quotient;
    * `digitCount_le_iff` — a number below `10 ^ k` has at most `k` digits.
-/

namespace Lumen

/-- The quotient `num / den`, where `den` is not zero. -/
structure Ratio where
  num : Nat
  den : Nat
deriving DecidableEq, Repr

/-! ## §1. Powers and digits -/

/-- The power `2 ^ e`. -/
def twoTo (e : Nat) : Nat := Nat.pow 2 e

/-- The power `10 ^ e`. -/
def tenTo (e : Nat) : Nat := Nat.pow 10 e

theorem twoTo_pos (e : Nat) : 0 < twoTo e := Nat.pow_pos (by decide)

theorem tenTo_pos (e : Nat) : 0 < tenTo e := Nat.pow_pos (by decide)

theorem tenTo_succ (e : Nat) : tenTo (e + 1) = tenTo e * 10 := rfl

/-- How many decimal digits a number has; zero has none. -/
def digitCount (n : Nat) : Nat :=
  if h : n = 0 then 0 else digitCount (n / 10) + 1
termination_by n
decreasing_by omega

theorem digitCount_le_iff (n k : Nat) : digitCount n ≤ k ↔ n < tenTo k := by
  induction k generalizing n with
  | zero =>
    rw [digitCount]
    have h1 : tenTo 0 = 1 := rfl
    split <;> omega
  | succ k ih =>
    rw [digitCount]
    split
    · next h =>
      subst h
      exact ⟨fun _ => tenTo_pos _, fun _ => Nat.zero_le _⟩
    · rw [Nat.add_le_add_iff_right, ih, tenTo_succ]
      omega

namespace Ratio

/-! ## §2. Scaling and rounding -/

/-- The quotient times `2 ^ e`. -/
def scaleTwo (r : Ratio) (e : Int) : Ratio := ⟨r.num * twoTo e.toNat, r.den * twoTo (-e).toNat⟩

/-- The quotient times `10 ^ e`. -/
def scaleTen (r : Ratio) (e : Int) : Ratio := ⟨r.num * tenTo e.toNat, r.den * tenTo (-e).toNat⟩

/-- The greatest natural not above the quotient. -/
def floor (r : Ratio) : Nat := r.num / r.den

/-- The nearest natural; of two equally near ones the even one. -/
def round (r : Ratio) : Nat :=
  let q := r.num / r.den
  let twice := 2 * (r.num % r.den)
  if twice < r.den then q
  else if r.den < twice then q + 1
  else q + q % 2

/-- The rounded quotient is at most half a unit above the quotient. -/
theorem two_mul_round_le (r : Ratio) (h : 0 < r.den) :
    2 * (r.round * r.den) ≤ 2 * r.num + r.den := by
  have hdiv := Nat.div_add_mod r.num r.den
  have hlt := Nat.mod_lt r.num h
  have hodd : r.num / r.den % 2 = 0 ∨ r.num / r.den % 2 = 1 := by omega
  have hcomm : r.num / r.den * r.den = r.den * (r.num / r.den) := Nat.mul_comm _ _
  unfold round
  simp only
  split
  · omega
  · split
    · rw [Nat.add_mul]; omega
    · rcases hodd with he | ho
      · rw [he]; simp; omega
      · rw [ho, Nat.add_mul]; omega

/-- The rounded quotient is at most half a unit below the quotient. -/
theorem le_two_mul_round (r : Ratio) (h : 0 < r.den) :
    2 * r.num ≤ 2 * (r.round * r.den) + r.den := by
  have hdiv := Nat.div_add_mod r.num r.den
  have hlt := Nat.mod_lt r.num h
  have hodd : r.num / r.den % 2 = 0 ∨ r.num / r.den % 2 = 1 := by omega
  have hcomm : r.num / r.den * r.den = r.den * (r.num / r.den) := Nat.mul_comm _ _
  unfold round
  simp only
  split
  · omega
  · split
    · rw [Nat.add_mul]; omega
    · rcases hodd with he | ho
      · rw [he]; simp; omega
      · rw [ho, Nat.add_mul]; omega

/-! ## §3. Orders of magnitude -/

/-- The greatest `e` with `2 ^ e` not above the quotient, for a quotient that
    is not zero.  The bit lengths of the two sides leave two candidates. -/
def floorLogTwo (r : Ratio) : Int :=
  let e : Int := (r.num.log2 : Int) - (r.den.log2 : Int)
  let scaled := r.scaleTwo (-e)
  if scaled.den ≤ scaled.num then e else e - 1

/-- The greatest `e` with `10 ^ e` not above the quotient, for a quotient that
    is not zero: below one, the quotient `n / d` is at least `10 ^ -k` just
    when `10 ^ k` exceeds every natural below `d / n`. -/
def floorLogTen (r : Ratio) : Int :=
  if r.den ≤ r.num then (digitCount r.floor : Int) - 1
  else -(digitCount ((r.den - 1) / r.num) : Int)

end Ratio
end Lumen
