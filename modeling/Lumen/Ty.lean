/-
  Lumen.Ty — types and their agreement.

  A type is scalar, a list of some element type, or `any`.  Declared types
  are free of `any`; it is the element type of an empty list literal, which
  may turn out to be anything.  Two types agree if they differ only where one
  of them has `any`; `merge?` then keeps the more specific side everywhere.

  Main statements:
    * `accepts_comm` — agreement does not depend on the direction;
    * `isSome_merge?` — types can be merged just when they agree;
    * `merge?_self` — merging a type with itself changes nothing.
-/
import Lumen.Token

namespace Lumen

/-- A type. -/
inductive Ty where
  | int | float | string | bool
  | any
  | list (elem : Ty)
deriving DecidableEq, Repr, Inhabited

namespace Ty

/-! ## §1. Text and classes -/

/-- A type as source text; `any`, which source cannot name, is `?`. -/
def text : Ty → String
  | int => "int"
  | float => "float"
  | string => "string"
  | bool => "bool"
  | any => "?"
  | list elem => "list<" ++ elem.text ++ ">"

def isList : Ty → Bool
  | list _ => true
  | _ => false

def isNumeric : Ty → Bool
  | int | float => true
  | _ => false

/-- The types whose values are ordered. -/
def isOrdered (t : Ty) : Bool := t.isNumeric || t == string

/-- Whether a type can be declared: `any` occurs nowhere in it. -/
def isDeclarable : Ty → Bool
  | any => false
  | list elem => elem.isDeclarable
  | _ => true

/-- The scalar type that a reserved word names. -/
def ofWord? : Word → Option Ty
  | .int => some int
  | .float => some float
  | .string => some string
  | .bool => some bool
  | _ => none

/-- The scalar type that a lexeme names. -/
def ofLexeme? : Lexeme → Option Ty
  | .word w => ofWord? w
  | _ => none

/-- The type of a constant. -/
def ofLiteral : Literal → Ty
  | .int _ => int
  | .float _ => float
  | .str _ => string
  | .bool _ => bool

/-! ## §2. Agreement -/

/-- Whether a value of type `found` may stand where `declared` is wanted. -/
def accepts : (declared found : Ty) → Bool
  | any, _ => true
  | _, any => true
  | list a, list b => accepts a b
  | a, b => decide (a = b)

/-- The merger of two types that agree. -/
def merge? : Ty → Ty → Option Ty
  | any, b => some b
  | a, any => some a
  | list a, list b => (merge? a b).map list
  | a, b => if a = b then some a else none

theorem accepts_comm (a b : Ty) : accepts a b = accepts b a := by
  induction a generalizing b with
  | list a ih => cases b <;> simp [accepts, ih]
  | _ => cases b <;> simp [accepts]

theorem isSome_merge? (a b : Ty) : (merge? a b).isSome = accepts a b := by
  induction a generalizing b with
  | list a ih => cases b <;> simp [accepts, merge?, ih]
  | _ => cases b <;> simp [accepts, merge?]

theorem merge?_self (a : Ty) : merge? a a = some a := by
  induction a with
  | list a ih => simp [merge?, ih]
  | _ => simp [merge?]

end Ty
end Lumen
