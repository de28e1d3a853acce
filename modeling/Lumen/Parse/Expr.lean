/-
  Lumen.Parse.Expr — reading expressions.

  The binary operators have five levels.  From the weakest to the strongest:
  `or`, `and`, one comparison, `+` and `-`, `*` and `/`; then comes the sign,
  and then what stands by itself.  All but the comparison associate to the
  left; a second comparison does not belong to the expression any more.

  Each level is a reader that is given the reader of the next one, and the
  innermost is given a reader of whole expressions, for what stands in
  brackets.  `expr` closes the circle.  Each loop and each descent takes one
  step, and since each also reads a token, there are always enough steps.

  Main statements:
    * `expr_succ` — an expression is an `or` level whose brackets hold
      expressions.
-/
import Lumen.Cursor
import Lumen.Program

namespace Lumen.Parse
open CursorM

/-! ## §1. Operators -/

/-- How an operator puts its operands together. -/
abbrev Join := Expr → Expr → Expr

/-- `and` or `or`. -/
def logicalJoin? (op : LogicalOp) : Lexeme → Option Join
  | .word w => if w = op.word then some fun l r => .logical l.pos op l r else none
  | _ => none

/-- The binary operators of some class. -/
def binaryJoin? (ok : BinaryOp → Bool) : Lexeme → Option Join
  | .mark m => ((BinaryOp.ofMark? m).filter ok).map fun op l r => .binary l.pos op l r
  | _ => none

/-- Reads further operands of a left-associative operator. -/
def chain (join? : Lexeme → Option Join) (operand : CursorM Expr) :
    (steps : Nat) → Expr → CursorM Expr
  | 0, _ => throw .outOfSteps
  | steps + 1, lhs => do
    match ← select? join? with
    | none => return lhs
    | some join =>
      let rhs ← operand
      chain join? operand steps (join lhs rhs)

/-- Reads operands with a left-associative operator between each two. -/
def leftAssoc (join? : Lexeme → Option Join) (operand : CursorM Expr) (steps : Nat) :
    CursorM Expr := do
  let lhs ← operand
  chain join? operand steps lhs

/-- Reads one operand, or two with an operator between them. -/
def nonAssoc (join? : Lexeme → Option Join) (operand : CursorM Expr) : CursorM Expr := do
  let lhs ← operand
  match ← select? join? with
  | none => return lhs
  | some join =>
    let rhs ← operand
    return join lhs rhs

/-- Reads any number of signs and what they stand before. -/
def signed (operand : CursorM Expr) : (steps : Nat) → CursorM Expr
  | 0 => throw .outOfSteps
  | steps + 1 => do
    if ← isAt (.mark .minus) then
      let sign ← advance
      let e ← signed operand steps
      return .neg sign.pos e
    else operand

/-! ## §2. What stands by itself -/

/-- Reads expressions with commas between them, and the closing mark.  There is
    at least one, and after each comma another. -/
def listed (close : Mark) (expr : CursorM Expr) : (steps : Nat) → CursorM (List Expr)
  | 0 => throw .outOfSteps
  | steps + 1 => do
    let e ← expr
    if ← accept (.mark .comma) then
      if ← isAt (.mark close) then unexpected .expression
      else return e :: (← listed close expr steps)
    else
      mark close
      return [e]

/-- Reads what is between brackets, of which the first has been read. -/
def arguments (close : Mark) (expr : CursorM Expr) (steps : Nat) : CursorM (List Expr) := do
  if ← accept (.mark close) then return []
  else listed close expr steps

/-- Reads any number of indices. -/
def indices (expr : CursorM Expr) : (steps : Nat) → CursorM (List Expr)
  | 0 => throw .outOfSteps
  | steps + 1 => do
    if ← accept (.mark .lbracket) then
      let index ← expr
      mark .rbracket
      return index :: (← indices expr steps)
    else return []

/-- Reads what follows a name: the arguments of a call, or indices, perhaps
    with a method call after them. -/
def named (expr : CursorM Expr) (steps : Nat) (pos : Pos) (name : Bytes) : CursorM Expr := do
  if ← accept (.mark .lparen) then
    return .call pos name (← arguments .rparen expr steps)
  else
    let path ← indices expr steps
    if ← accept (.mark .dot) then
      let method ← identifier .methodName
      mark .lparen
      return .method pos name path method (← arguments .rparen expr steps)
    else return .access pos name path

/-- Reads a literal, a name and what follows it, or something in brackets. -/
def primary (expr : CursorM Expr) (steps : Nat) : CursorM Expr := do
  match ← lexeme? with
  | some (.literal v) =>
    let t ← advance
    return .literal t.pos v
  | some (.ident name) =>
    let t ← advance
    named expr steps t.pos name
  | some (.mark .lparen) =>
    let t ← advance
    let inner ← expr
    mark .rparen
    return .group t.pos inner
  | some (.mark .lbracket) =>
    let t ← advance
    return .list t.pos (← arguments .rbracket expr steps)
  | _ => unexpected .expression

/-! ## §3. The levels -/

def multiplicative (expr : CursorM Expr) (steps : Nat) : CursorM Expr :=
  leftAssoc (binaryJoin? BinaryOp.isMultiplicative) (signed (primary expr steps) steps) steps

def additive (expr : CursorM Expr) (steps : Nat) : CursorM Expr :=
  leftAssoc (binaryJoin? BinaryOp.isAdditive) (multiplicative expr steps) steps

def comparison (expr : CursorM Expr) (steps : Nat) : CursorM Expr :=
  nonAssoc (binaryJoin? BinaryOp.isComparison) (additive expr steps)

def conjunction (expr : CursorM Expr) (steps : Nat) : CursorM Expr :=
  leftAssoc (logicalJoin? .and) (comparison expr steps) steps

def disjunction (expr : CursorM Expr) (steps : Nat) : CursorM Expr :=
  leftAssoc (logicalJoin? .or) (conjunction expr steps) steps

/-- Reads an expression, in at most `steps` steps at every level. -/
def expr : (steps : Nat) → CursorM Expr
  | 0 => throw .outOfSteps
  | steps + 1 => disjunction (expr steps) (steps + 1)

theorem expr_succ (steps : Nat) : expr (steps + 1) = disjunction (expr steps) (steps + 1) := rfl

end Lumen.Parse
