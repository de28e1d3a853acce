/-
  Lumen.Value — what is known of a binding's value.

  A binding holds a value as far as the source shows one: a constant, a list
  of values, or nothing known.  A value fits a type if it could be stored
  under it; where it does not, `misfit?` names the first part to blame and the
  way to it.

  Main statements:
    * `misfit?_unknown` — an unknown value fits every type;
    * `misfit?_list_nil` — an empty list fits every list type;
    * `Misfit.isWhole_iff` — the part to blame is the whole value just when no
      step leads to it.
-/
import Lumen.Ty

namespace Lumen

/-- A value as far as it is known. -/
inductive Value where
  | unknown
  | scalar (v : Literal)
  | list (items : List Value)
deriving Repr, Inhabited

namespace Value

/-! ## §1. Text and classes -/

mutual
/-- A value as source text. -/
def text : Value → Bytes
  | unknown => ascii "<unknown>"
  | scalar v => v.text
  | list items => ascii "[" ++ textItems items ++ ascii "]"

/-- Values as source text, with a comma between each two. -/
def textItems : List Value → Bytes
  | [] => []
  | [v] => v.text
  | v :: vs => v.text ++ ascii ", " ++ textItems vs
end

/-- The name of a value's shape. -/
def shape : Value → String
  | unknown => "unknown"
  | scalar v => v.typeName
  | list _ => "list"

/-- A value as messages speak of it: its shape and its text. -/
def named (v : Value) : Bytes := ascii v.shape ++ ascii " " ++ v.text

def isKnown : Value → Bool
  | unknown => false
  | _ => true

def isList : Value → Bool
  | list _ => true
  | _ => false

/-- The value of a lexeme: that of a literal, and unknown for any other. -/
def ofLexeme (l : Lexeme) : Value :=
  match l.literal? with
  | some v => scalar v
  | none => unknown

mutual
/-- Sameness of values; doubles compare as numbers. -/
def same : Value → Value → Bool
  | unknown, unknown => true
  | scalar v, scalar w => v.same w
  | list s, list t => sameItems s t
  | _, _ => false

/-- Sameness of values item by item. -/
def sameItems : List Value → List Value → Bool
  | [], [] => true
  | v :: s, w :: t => v.same w && sameItems s t
  | _, _ => false
end

/-! ## §2. Fitting a type -/

/-- Whether a constant may be stored under a type that is no list. -/
def scalarFits (t : Ty) (v : Literal) : Bool := t == .any || t == Ty.ofLiteral v

/-- A part of a value that does not fit: the indices that lead to it, the
    outermost first, and the part itself. -/
structure Misfit where
  path : List Nat
  value : Value

/-- Whether the value as a whole is to blame. -/
def Misfit.isWhole (m : Misfit) : Bool := m.path.isEmpty

/-- A misfit of an item, seen from the list that holds it at `index`. -/
def Misfit.inside (index : Nat) (m : Misfit) : Misfit := ⟨index :: m.path, m.value⟩

mutual
/-- The first part of a value that does not fit a type. -/
def misfit? : Ty → Value → Option Misfit
  | _, unknown => none
  | .list elem, list items => misfitItem? elem 0 items
  | .any, list _ => none
  | _, list items => some ⟨[], list items⟩
  | t, scalar v => if scalarFits t v then none else some ⟨[], scalar v⟩

/-- The first part of some items, counted from `index`, that does not fit. -/
def misfitItem? (elem : Ty) (index : Nat) : List Value → Option Misfit
  | [] => none
  | v :: vs =>
    match misfit? elem v with
    | some m => some (m.inside index)
    | none => misfitItem? elem (index + 1) vs
end

@[simp] theorem misfit?_unknown (t : Ty) : misfit? t unknown = none := by
  cases t <;> simp [misfit?]

theorem misfit?_list_nil (elem : Ty) : misfit? (.list elem) (list []) = none := by
  simp [misfit?, misfitItem?]

theorem Misfit.isWhole_iff (m : Misfit) : m.isWhole = true ↔ m.path = [] := by
  simp [Misfit.isWhole]

end Value
end Lumen
