/-
  Lumen.Bytes — byte strings.

  Source text, names and string values are sequences of bytes, not of
  characters: every offset and column counts bytes, and a string may hold
  NUL or ill-formed UTF-8.  Fixed wordings are ASCII and enter through
  `ascii`; numbers enter through `decimal`.

  Main statements:
    * `decimal_of_lt` / `decimal_of_le` — a number is written as its digits,
      the last one after those of its tenth;
    * `ofDigits_append_single` — one more digit makes a number ten times as
      large, plus the digit;
    * `joinWith_cons` — a separator stands between each two texts.
-/

namespace Lumen

/-- A byte string. -/
abbrev Bytes := List UInt8

/-- The bytes of an ASCII wording, one for each character. -/
def ascii (s : String) : Bytes :=
  s.toList.map fun c => c.toNat.toUInt8

/-! ## §1. Decimal numbers -/

/-- The byte of a decimal digit. -/
def digitByte (d : Nat) : UInt8 := (48 + d).toUInt8

/-- The digits of `n`, most significant first, put in front of `tail`. -/
def decimalOnto (n : Nat) (tail : Bytes) : Bytes :=
  if h : n < 10 then digitByte n :: tail
  else decimalOnto (n / 10) (digitByte (n % 10) :: tail)
termination_by n
decreasing_by omega

/-- A natural number in decimal notation, without leading zeros. -/
def decimal (n : Nat) : Bytes := decimalOnto n []

/-- The number that some decimal digits denote. -/
def ofDigits (digits : Bytes) : Nat := digits.foldl (fun n b => 10 * n + (b.toNat - 48)) 0

/-- An integer in decimal notation, with `-` in front of a negative one. -/
def decimalInt (n : Int) : Bytes :=
  if n < 0 then 45 :: decimal n.natAbs else decimal n.natAbs

theorem decimalOnto_eq_append (n : Nat) (tail : Bytes) :
    decimalOnto n tail = decimalOnto n [] ++ tail := by
  induction n using Nat.strongRecOn generalizing tail with
  | ind n ih =>
    rw [decimalOnto, decimalOnto.eq_def n []]
    split
    · rfl
    · rw [ih (n / 10) (by omega), ih (n / 10) (by omega) [digitByte (n % 10)]]
      simp

theorem ofDigits_append_single (digits : Bytes) (b : UInt8) :
    ofDigits (digits ++ [b]) = 10 * ofDigits digits + (b.toNat - 48) := by
  simp [ofDigits]

theorem decimal_of_lt {n : Nat} (h : n < 10) : decimal n = [digitByte n] := by
  simp [decimal, decimalOnto, h]

theorem decimal_of_le {n : Nat} (h : 10 ≤ n) :
    decimal n = decimal (n / 10) ++ [digitByte (n % 10)] := by
  rw [decimal, decimalOnto, dif_neg (by omega), decimalOnto_eq_append]
  rfl

/-! ## §2. Classes of bytes -/

namespace Byte

def tab : UInt8 := 9
def lineFeed : UInt8 := 10
def carriageReturn : UInt8 := 13
def space : UInt8 := 32
def quote : UInt8 := 34
def dot : UInt8 := 46
def slash : UInt8 := 47
def backslash : UInt8 := 92
def underscore : UInt8 := 95

/-- `0` to `9`. -/
def isDigit (b : UInt8) : Bool := 48 ≤ b && b ≤ 57

/-- `A` to `Z` and `a` to `z`; no byte outside ASCII is a letter. -/
def isLetter (b : UInt8) : Bool := (65 ≤ b && b ≤ 90) || (97 ≤ b && b ≤ 122)

/-- The bytes a word may start with. -/
def startsWord (b : UInt8) : Bool := isLetter b || b == underscore

/-- The bytes a word may go on with. -/
def inWord (b : UInt8) : Bool := isLetter b || isDigit b || b == underscore

/-- Space, tab, carriage return and line feed separate tokens. -/
def isBlank (b : UInt8) : Bool :=
  b == space || b == tab || b == carriageReturn || b == lineFeed

end Byte

/-! ## §3. Pieces of text -/

/-- Texts with a separator between each two of them. -/
def joinWith (separator : Bytes) : List Bytes → Bytes
  | [] => []
  | [s] => s
  | s :: rest => s ++ separator ++ joinWith separator rest

theorem joinWith_cons (separator s t : Bytes) (rest : List Bytes) :
    joinWith separator (s :: t :: rest) = s ++ separator ++ joinWith separator (t :: rest) :=
  rfl

end Lumen
