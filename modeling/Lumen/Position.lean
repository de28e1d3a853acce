/-
  Lumen.Position — places in a source text.

  A place is a byte offset together with the line and column it falls on.
  Lines and columns count from 1; a line feed ends its line, and every other
  byte, a carriage return too, takes one column.

  Main statements:
    * `offset_advance` — reading a text moves the offset by its length;
    * `advance_append` — reading a text in two parts is reading it at once.
-/
import Lumen.Bytes

namespace Lumen

/-- A place in a source text.  Without further notice it is the start. -/
structure Pos where
  offset : Nat := 0
  line : Nat := 1
  col : Nat := 1
deriving DecidableEq, Repr, Inhabited

namespace Pos

/-- The start of a text. -/
def start : Pos := {}

/-- The place after one byte. -/
def step (p : Pos) (b : UInt8) : Pos :=
  if b == Byte.lineFeed then ⟨p.offset + 1, p.line + 1, 1⟩
  else ⟨p.offset + 1, p.line, p.col + 1⟩

/-- The place after some text. -/
def advance (p : Pos) (s : Bytes) : Pos := s.foldl step p

/-- The next place on the same line. -/
def right (p : Pos) : Pos := ⟨p.offset + 1, p.line, p.col + 1⟩

@[simp] theorem advance_nil (p : Pos) : p.advance [] = p := rfl

@[simp] theorem advance_cons (p : Pos) (b : UInt8) (s : Bytes) :
    p.advance (b :: s) = (p.step b).advance s := rfl

theorem advance_append (p : Pos) (s t : Bytes) :
    p.advance (s ++ t) = (p.advance s).advance t := by
  simp [advance]

@[simp] theorem offset_step (p : Pos) (b : UInt8) : (p.step b).offset = p.offset + 1 := by
  unfold step
  split <;> rfl

theorem offset_advance (p : Pos) (s : Bytes) : (p.advance s).offset = p.offset + s.length := by
  induction s generalizing p with
  | nil => rfl
  | cons b s ih => rw [advance_cons, ih, offset_step, List.length_cons]; omega

end Pos
end Lumen
