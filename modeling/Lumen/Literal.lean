/-
  Lumen.Literal — the constants of the language.

  A literal is a 64-bit integer, a double, a byte string or a truth value.
  The same type serves tokens, expression leaves and the scalar values of
  bindings, so that none of them has to be converted into another.

  Main statements:
    * `same_self_iff` — a literal is the same as itself unless it is a NaN;
    * `quotedBody_append` — the body of a quoted string is written piece by piece.
-/
import Lumen.Bytes
import Lumen.Binary64.Notation

namespace Lumen

/-- A constant. -/
inductive Literal where
  | int (value : Int64)
  | float (value : Binary64)
  | str (value : Bytes)
  | bool (value : Bool)
deriving DecidableEq, Repr

/-! ## §1. Quoted strings -/

/-- One byte inside quotes: the quote, the backslash, line feed and tab are
    escaped, and every other byte stands for itself. -/
def escaped (b : UInt8) : Bytes :=
  if b == Byte.quote || b == Byte.backslash then [Byte.backslash, b]
  else if b == Byte.lineFeed then ascii "\\n"
  else if b == Byte.tab then ascii "\\t"
  else [b]

/-- The body of a quoted string. -/
def quotedBody (s : Bytes) : Bytes := s.flatMap escaped

/-- A string between quotes. -/
def quoted (s : Bytes) : Bytes := Byte.quote :: (quotedBody s ++ [Byte.quote])

theorem quotedBody_append (s t : Bytes) : quotedBody (s ++ t) = quotedBody s ++ quotedBody t := by
  simp [quotedBody]

namespace Literal

/-! ## §2. Text -/

/-- A literal as source text.  Source has no negative literals, but values
    may be negative and are written with their sign. -/
def text : Literal → Bytes
  | int n => decimalInt n.toInt
  | float x => x.text
  | str s => quoted s
  | bool true => ascii "true"
  | bool false => ascii "false"

/-- The name of a literal's scalar type. -/
def typeName : Literal → String
  | int _ => "int"
  | float _ => "float"
  | str _ => "string"
  | bool _ => "bool"

/-- The same literal with the other sign; only numbers have one. -/
def neg? : Literal → Option Literal
  | int n => some (int (-n))
  | float x => some (float x.neg)
  | _ => none

/-! ## §3. Sameness -/

/-- Sameness of literals; doubles compare as numbers, not as bits. -/
def same : Literal → Literal → Bool
  | float x, float y => x.ieeeEq y
  | a, b => a == b

theorem same_self_iff (a : Literal) :
    a.same a = true ↔ ∀ x, a = float x → x.isNaN = false := by
  cases a <;> simp [same, Binary64.ieeeEq_self_iff]

end Literal
end Lumen
