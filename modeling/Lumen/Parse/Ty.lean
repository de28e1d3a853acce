/-
  Lumen.Parse.Ty — reading types.

  A type is a scalar type's name or `list<` a type `>`.  Where the closing `>`
  and a following `=` were written together, they have become one token, which
  is split here.
-/
import Lumen.Cursor

namespace Lumen.Parse
open CursorM

/-- Reads a type, in at most `steps` steps. -/
def type : (steps : Nat) → CursorM Ty
  | 0 => throw .outOfSteps
  | steps + 1 => do
    match ← lexeme? with
    | some (.word .list) =>
      let _ ← advance
      mark .lt
      let elem ← type steps
      modify Cursor.splitGe
      mark .gt
      return .list elem
    | some l =>
      match Ty.ofLexeme? l with
      | some t =>
        let _ ← advance
        return t
      | none => unexpected .type
    | none => unexpected .type

end Lumen.Parse
