/-
  Lumen.Parse.Stmt — reading statements, blocks and programs.

  The first token tells the kind of a statement; one semicolon may follow it.
  Each statement is checked as soon as the expressions it needs have been read,
  so that of two errors the one that comes first in the text is reported.  A
  block goes on to the next `end` or `else`, or to the end of the text, and
  leaves that token to the statement it belongs to.

  A single statement does not take effect by itself: in a block and at top
  level it does so when it is complete, and what it declares is visible from
  the next statement on.

  Main statements:
    * `enactTop_off` — without checking, no statement takes effect;
    * `stmt_succ` — a statement is one of the kinds, with statements in its
      blocks, and perhaps a semicolon.
-/
import Lumen.Parse.Ty
import Lumen.Parse.Expr
import Lumen.Parse.State

namespace Lumen.Parse
open CursorM

/-! ## §1. Blocks -/

/-- Whether a block ends at the cursor. -/
def blockEnds : CursorM Bool := do
  match ← lexeme? with
  | none => return true
  | some l => return l == .word .end_ || l == .word .else_

/-- Reads the statements of a block.  Each takes effect before the next. -/
def stmts (o : Options) (stmt : ParseM Stmt) : (steps : Nat) → ParseM (List Stmt)
  | 0 => throw .outOfSteps
  | steps + 1 => do
    if ← blockEnds then return []
    else
      let s ← stmt
      updating o (·.enact s)
      return s :: (← stmts o stmt steps)

/-- The place of the token at the cursor, or the start of a text if nothing is
    left to read. -/
def blockPos : CursorM Pos :=
  return ((← token?).map Token.pos).getD .start

/-- Reads a block in a scope that holds `locals`. -/
def block (o : Options) (stmt : ParseM Stmt) (steps : Nat) (locals : List Param) :
    ParseM Block := do
  let pos ← blockPos
  let body ← inScope o locals (stmts o stmt steps)
  return .mk pos body

/-! ## §2. The kinds of statements -/

/-- Reads `let`, a name, its type and its first value. -/
def letStmt (o : Options) (steps : Nat) : ParseM Stmt := do
  let t ← advance
  let name ← identifier .variableName
  mark .colon
  let ty ← type steps
  mark .equal
  let init ← expr steps
  checking o (checkType · ty init name)
  return .let_ t.pos name ty init

/-- Reads `print` and a value. -/
def printStmt (o : Options) (steps : Nat) : ParseM Stmt := do
  let t ← advance
  let value ← expr steps
  checking o (infer · value)
  return .print t.pos value

/-- Reads `else` and a block, if `else` is at the cursor. -/
def elseBlock (o : Options) (stmt : ParseM Stmt) (steps : Nat) : ParseM (Option Block) := do
  if ← accept (.word .else_) then return some (← block o stmt steps [])
  else return none

/-- Reads `if`, a condition, a block, perhaps `else` and another, and `end`. -/
def ifStmt (o : Options) (stmt : ParseM Stmt) (steps : Nat) : ParseM Stmt := do
  let t ← advance
  let cond ← expr steps
  checking o (·.checkTruth cond)
  let then_ ← block o stmt steps []
  let else_ ← elseBlock o stmt steps
  word .end_
  return .if_ t.pos cond then_ else_

/-- Reads `while`, a condition, a block and `end`. -/
def whileStmt (o : Options) (stmt : ParseM Stmt) (steps : Nat) : ParseM Stmt := do
  let t ← advance
  let cond ← expr steps
  checking o (·.checkTruth cond)
  let body ← block o stmt steps []
  word .end_
  return .while_ t.pos cond body

/-- Reads the type of a loop variable.  It has to be there, and it has to be
    `int`; any other type is an error at its place. -/
def loopType (steps : Nat) (var : Bytes) : CursorM Unit := do
  match ← token? with
  | some ⟨.word .int, _⟩ => let _ ← advance
  | some ⟨l, pos⟩ =>
    if l.isTypeMarker then
      let ty ← type steps
      throw (.error (.mismatch var (.type .int) (.type ty) pos))
    else unexpected (.word .int)
  | none => unexpected (.word .int)

/-- Reads `for`, a variable, its bounds, a block and `end`. -/
def forStmt (o : Options) (stmt : ParseM Stmt) (steps : Nat) : ParseM Stmt := do
  let t ← advance
  let var ← identifier .loopVariable
  mark .colon
  loopType steps var
  mark .equal
  let start ← expr steps
  mark .dotDot
  let stop ← expr steps
  -- the variable is not in scope yet
  checking o (·.checkBounds var start stop)
  let body ← block o stmt steps [⟨var, .int⟩]
  word .end_
  return .for_ t.pos var start stop body

/-- Reads parameters with commas between them.  There is at least one, and
    after each comma another. -/
def paramList (typeSteps : Nat) : (steps : Nat) → CursorM (List Param)
  | 0 => throw .outOfSteps
  | steps + 1 => do
    let name ← identifier .parameterName
    mark .colon
    let ty ← type typeSteps
    if ← accept (.mark .comma) then
      if ← isAt (.mark .rparen) then unexpected .parameterName
      else return ⟨name, ty⟩ :: (← paramList typeSteps steps)
    else return [⟨name, ty⟩]

/-- Reads parameters in parentheses. -/
def params (steps : Nat) : CursorM (List Param) := do
  mark .lparen
  if ← isAt (.mark .rparen) then
    mark .rparen
    return []
  else
    let ps ← paramList steps steps
    mark .rparen
    return ps

/-- Reads `fn`, a name, parameters, a block and `end`. -/
def fnStmt (o : Options) (stmt : ParseM Stmt) (steps : Nat) : ParseM Stmt := do
  let t ← advance
  let name ← identifier .functionName
  let ps ← params steps
  let body ← block o stmt steps ps
  word .end_
  return .fn t.pos name ps body

/-- Reads `return` and a value, unless the statement ends there. -/
def returnStmt (o : Options) (steps : Nat) : ParseM Stmt := do
  let t ← advance
  if (← blockEnds) || (← isAt (.mark .semicolon)) then
    return .return_ t.pos none
  else
    let value ← expr steps
    checking o (infer · value)
    return .return_ t.pos (some value)

/-- Reads an assignment, or an expression that starts with a name.  Calls
    cannot be assigned to. -/
def nameStmt (o : Options) (steps : Nat) (name : Bytes) : ParseM Stmt := do
  let t ← advance
  let target ← named (expr steps) steps t.pos name
  if ← isAt (.mark .equal) then
    match target with
    | .access pos name path =>
      mark .equal
      let value ← expr steps
      updating o (·.store pos name path value)
      return .assign pos name path value
    | _ => unexpected .endOfStatement
  else
    checking o (infer · target)
    return .expr t.pos target

/-! ## §3. Statements and programs -/

/-- Reads a statement of the kind that the token at the cursor tells. -/
def bareStmt (o : Options) (stmt : ParseM Stmt) (steps : Nat) : ParseM Stmt := do
  match ← token? with
  | none => unexpected .statement
  | some t =>
    match t.lexeme with
    | .word .let_ => letStmt o steps
    | .word .print => printStmt o steps
    | .word .if_ => ifStmt o stmt steps
    | .word .while_ => whileStmt o stmt steps
    | .word .for_ => forStmt o stmt steps
    | .word .fn => fnStmt o stmt steps
    | .word .return_ => returnStmt o steps
    | .ident name => nameStmt o steps name
    | .word .end_ | .word .else_ => throw (.error (.strayTerminator t))
    | _ => throw (.error (.unknownStatement t))

/-- Reads a statement and the semicolon that may follow it, in at most `steps`
    steps at every level. -/
def stmt (o : Options) : (steps : Nat) → ParseM Stmt
  | 0 => throw .outOfSteps
  | steps + 1 => do
    let s ← bareStmt o (stmt o steps) (steps + 1)
    let _ ← accept (.mark .semicolon)
    return s

/-- Lets a completed statement at top level take effect. -/
def enactTop (o : Options) (s : Stmt) : ParseM Unit := do
  if o.checked then
    match s with
    | .fn pos name ps body => register o ⟨name, ps, some body⟩ pos
    | s => updating o (·.enact s)

/-- Reads statements to the end of the text, and lets each take effect before
    the next. -/
def topStmts (o : Options) (stmtSteps : Nat) : (steps : Nat) → ParseM Program
  | 0 => throw .outOfSteps
  | steps + 1 => do
    match ← token? with
    | none => return []
    | some t =>
      note o (.statement t.pos.line t.lexeme)
      let s ← stmt o stmtSteps
      enactTop o s
      return s :: (← topStmts o stmtSteps steps)

/-! ## §4. Readers that need no count of steps

Every step reads a token or is the last of its kind, so one step more than there
is left to read is enough. -/

/-- Reads with enough steps for all that is left to read. -/
def withSteps {α : Type} (read : Nat → ParseM α) : ParseM α := do
  read ((← get).cursor.weight + 1)

/-- Reads one statement.  It does not take effect. -/
def statement (o : Options) : ParseM Stmt := withSteps (stmt o)

/-- Reads one expression.  It is not checked. -/
def expression : ParseM Expr := withSteps fun steps => onCursor (expr steps)

/-- Reads one type. -/
def typeName : ParseM Ty := withSteps fun steps => onCursor (type steps)

/-- Reads the statements of a block. -/
def statements (o : Options) : ParseM Block :=
  withSteps fun steps => block o (stmt o steps) steps []

/-- Reads a whole program. -/
def program (o : Options) : ParseM Program := do
  let p ← withSteps fun steps => topStmts o steps steps
  note o (.parsed p.length (← get).env.functions.length)
  return p

/-- What a fresh parser makes of a token list. -/
def whole (o : Options) (tokens : List Token) : EStateM.Result Failure State Program :=
  program o { cursor := .ofTokens tokens }

theorem enactTop_off {o : Options} (h : o.checked = false) (s : Stmt) :
    enactTop o s = pure () := by
  simp [enactTop, h]

theorem stmt_succ (o : Options) (steps : Nat) :
    stmt o (steps + 1) = (do
      let s ← bareStmt o (stmt o steps) (steps + 1)
      let _ ← accept (.mark .semicolon)
      return s) := rfl

end Lumen.Parse
