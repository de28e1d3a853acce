/-
  Lumen.Proofs.Access.Statements — statements and programs read off a tape.

  The readers of statements look at tags before they pass tokens, and ask for texts and
  values when they check, when a declaration takes effect, and when a statement at top
  level is noted: its first token is described even if no run is traced.

  Main statements:
    * `Env.enact_tagged` — declarations that take effect;
    * `Tape.stmt_mirrors`, `Tape.topStmts_mirrors` — statements and programs;
    * `Operation.onTape_mirrors` — everything that can be read.
-/
import Lumen.Proofs.Access.Runs
import Lumen.Proofs.Reading.Progress

namespace Lumen

/-! ## §1. Statements with their tokens -/

mutual
/-- A statement, with the tokens of the constants and operators in it. -/
inductive TaggedStmt where
  | expr (pos : Pos) (e : TaggedExpr)
  | assign (pos : Pos) (name : Bytes) (indices : List TaggedExpr) (value : TaggedExpr)
  | let_ (pos : Pos) (name : Bytes) (type : Ty) (init : TaggedExpr)
  | print (pos : Pos) (value : TaggedExpr)
  | if_ (pos : Pos) (cond : TaggedExpr) (then_ : TaggedBlock) (else_ : Option TaggedBlock)
  | while_ (pos : Pos) (cond : TaggedExpr) (body : TaggedBlock)
  | for_ (pos : Pos) (var : Bytes) (start stop : TaggedExpr) (body : TaggedBlock)
  | fn (pos : Pos) (name : Bytes) (params : List Param) (body : TaggedBlock)
  | return_ (pos : Pos) (value : Option TaggedExpr)

inductive TaggedBlock where
  | mk (pos : Pos) (stmts : List TaggedStmt)
end

mutual
/-- A statement with the tokens of the constants and operators in it. -/
def Stmt.tagged : Stmt → TaggedStmt
  | .expr p e => .expr p e.tagged
  | .assign p name indices value => .assign p name (Expr.taggedAll indices) value.tagged
  | .let_ p name type init => .let_ p name type init.tagged
  | .print p value => .print p value.tagged
  | .if_ p cond then_ else_ => .if_ p cond.tagged then_.tagged (taggedElse else_)
  | .while_ p cond body => .while_ p cond.tagged body.tagged
  | .for_ p var start stop body => .for_ p var start.tagged stop.tagged body.tagged
  | .fn p name params body => .fn p name params body.tagged
  | .return_ p value => .return_ p (value.map Expr.tagged)

def Block.tagged : Block → TaggedBlock
  | .mk p stmts => .mk p (taggedStmts stmts)

def taggedElse : Option Block → Option TaggedBlock
  | none => none
  | some b => some b.tagged

def taggedStmts : List Stmt → List TaggedStmt
  | [] => []
  | s :: rest => s.tagged :: taggedStmts rest
end

theorem length_taggedStmts (stmts : List Stmt) : (taggedStmts stmts).length = stmts.length := by
  induction stmts with
  | nil => rfl
  | cons s rest ih => exact congrArg (· + 1) ih

/-- Lets a completed statement of a block take effect. -/
def TaggedEnv.enact (env : TaggedEnv) : TaggedStmt → Except Stop TaggedEnv
  | .let_ _ name type init => do
    let value ← asked init.constant
    env.declare name type value
  | _ => .ok env

theorem Env.enact_tagged (env : Env) (s : Stmt) :
    env.tagged.enact s.tagged = reported tagged (env.enact s) := by
  cases s with
  | let_ p name type init =>
    show (asked init.tagged.constant >>= _) = _
    rw [init.constant_tagged]
    exact env.declare_tagged name type init.constant
  | _ => rfl

namespace Tape

/-! ## §2. Readers -/

/-- Whether a block ends here. -/
def blockEnds : TapeM Bool := do
  if ← atEnd then return true
  else if ← check (.word .end_) then return true
  else check (.word .else_)

/-- Reads the statements of a block. -/
def stmts (o : Options) (stmt : TaggedM TaggedStmt) : (steps : Nat) → TaggedM (List TaggedStmt)
  | 0 => throw .outOfSteps
  | steps + 1 => do
    if ← blockEnds then return []
    else
      let s ← stmt
      updating o (·.enact s)
      return s :: (← stmts o stmt steps)

/-- The place of the next token, or the start of a text if nothing is left to read. -/
def blockPos : TapeM Pos := do
  if ← atEnd then return .start
  else return (← here).pos

/-- Reads a block in a scope that holds `locals`. -/
def block (o : Options) (stmt : TaggedM TaggedStmt) (steps : Nat) (locals : List Param) :
    TaggedM TaggedBlock := do
  let pos ← blockPos
  let body ← inScope o locals (stmts o stmt steps)
  return .mk pos body

/-- Reads `let`, a name, its type and its first value. -/
def letStmt (o : Options) (steps : Nat) : TaggedM TaggedStmt := do
  let t ← advance
  let name ← identifier (ascii "variable name")
  eat (.mark .colon)
  let ty ← type steps
  eat (.mark .equal)
  let init ← expr steps
  checking o (·.checkType ty init name)
  return .let_ t.pos name ty init

/-- Reads `print` and a value. -/
def printStmt (o : Options) (steps : Nat) : TaggedM TaggedStmt := do
  let t ← advance
  let value ← expr steps
  checking o (·.infer value)
  return .print t.pos value

/-- Reads `else` and a block, if `else` is next. -/
def elseBlock (o : Options) (stmt : TaggedM TaggedStmt) (steps : Nat) :
    TaggedM (Option TaggedBlock) := do
  if ← accept (.word .else_) then return some (← block o stmt steps [])
  else return none

/-- Reads `if`, a condition, a block, perhaps `else` and another, and `end`. -/
def ifStmt (o : Options) (stmt : TaggedM TaggedStmt) (steps : Nat) : TaggedM TaggedStmt := do
  let t ← advance
  let cond ← expr steps
  checking o (·.checkTruth cond)
  let then_ ← block o stmt steps []
  let else_ ← elseBlock o stmt steps
  eat (.word .end_)
  return .if_ t.pos cond then_ else_

/-- Reads `while`, a condition, a block and `end`. -/
def whileStmt (o : Options) (stmt : TaggedM TaggedStmt) (steps : Nat) : TaggedM TaggedStmt := do
  let t ← advance
  let cond ← expr steps
  checking o (·.checkTruth cond)
  let body ← block o stmt steps []
  eat (.word .end_)
  return .while_ t.pos cond body

/-- Reads the type of a loop variable, which has to be `int`. -/
def loopType (steps : Nat) (var : Bytes) : TapeM Unit := do
  if ← check (.word .int) then let _ ← advance
  else if ← looksAt Tag.isTypeMarker then
    let pos := (← here).pos
    let ty ← type steps
    throw (.error (.mismatch var (ascii "int") (ascii ty.text) (some pos)))
  else unexpected (ascii (Tag.word .int).name)

/-- Reads `for`, a variable, its bounds, a block and `end`. -/
def forStmt (o : Options) (stmt : TaggedM TaggedStmt) (steps : Nat) : TaggedM TaggedStmt := do
  let t ← advance
  let var ← identifier (ascii "loop variable name")
  eat (.mark .colon)
  loopType steps var
  eat (.mark .equal)
  let start ← expr steps
  eat (.mark .dotDot)
  let stop ← expr steps
  checking o (·.checkBounds var start stop)
  let body ← block o stmt steps [⟨var, .int⟩]
  eat (.word .end_)
  return .for_ t.pos var start stop body

/-- Reads parameters with commas between them. -/
def paramList (typeSteps : Nat) : (steps : Nat) → TapeM (List Param)
  | 0 => throw .outOfSteps
  | steps + 1 => do
    let name ← identifier (ascii "parameter name")
    eat (.mark .colon)
    let ty ← type typeSteps
    if ← accept (.mark .comma) then
      if ← check (.mark .rparen) then unexpected (ascii "parameter name")
      else return ⟨name, ty⟩ :: (← paramList typeSteps steps)
    else return [⟨name, ty⟩]

/-- Reads parameters in parentheses. -/
def params (steps : Nat) : TapeM (List Param) := do
  eat (.mark .lparen)
  if ← check (.mark .rparen) then
    eat (.mark .rparen)
    return []
  else
    let ps ← paramList steps steps
    eat (.mark .rparen)
    return ps

/-- Reads `fn`, a name, parameters, a block and `end`. -/
def fnStmt (o : Options) (stmt : TaggedM TaggedStmt) (steps : Nat) : TaggedM TaggedStmt := do
  let t ← advance
  let name ← identifier (ascii "function name")
  let ps ← params steps
  let body ← block o stmt steps ps
  eat (.word .end_)
  return .fn t.pos name ps body

/-- Reads `return` and a value, unless the statement ends there. -/
def returnStmt (o : Options) (steps : Nat) : TaggedM TaggedStmt := do
  let t ← advance
  if (← blockEnds) || (← check (.mark .semicolon)) then
    return .return_ t.pos none
  else
    let value ← expr steps
    checking o (·.infer value)
    return .return_ t.pos (some value)

/-- Reads an assignment, or an expression that starts with a name. -/
def nameStmt (o : Options) (steps : Nat) : TaggedM TaggedStmt := do
  let id ← advance
  let target ← named (expr steps) steps id
  if ← check (.mark .equal) then
    match target with
    | .access pos name path =>
      let _ ← advance
      let value ← expr steps
      updating o (·.store pos name path value)
      return .assign pos name path value
    | _ => unexpected (ascii "end of statement")
  else
    checking o (·.infer target)
    return .expr id.pos target

/-- Reads a statement of the kind that the next token tells. -/
def bareStmt (o : Options) (stmt : TaggedM TaggedStmt) (steps : Nat) : TaggedM TaggedStmt := do
  if ← atEnd then unexpected (ascii "statement")
  else
    match (← here).content.tag with
    | .word .let_ => letStmt o steps
    | .word .print => printStmt o steps
    | .word .if_ => ifStmt o stmt steps
    | .word .while_ => whileStmt o stmt steps
    | .word .for_ => forStmt o stmt steps
    | .word .fn => fnStmt o stmt steps
    | .word .return_ => returnStmt o steps
    | .ident => nameStmt o steps
    | .word .end_ | .word .else_ => refused "malformed-block"
    | _ => refused "unknown-statement"
where
  /-- Reports that no statement starts with the next token. -/
  refused (kind : String) : TapeM TaggedStmt := do
    throw (.error (← access (Report.noStatement kind (← here))))

/-- Reads a statement and the semicolon that may follow it. -/
def stmt (o : Options) : (steps : Nat) → TaggedM TaggedStmt
  | 0 => throw .outOfSteps
  | steps + 1 => do
    let s ← bareStmt o (stmt o steps) (steps + 1)
    let _ ← accept (.mark .semicolon)
    return s

/-- Lets a completed statement at top level take effect. -/
def enactTop (o : Options) (s : TaggedStmt) : TaggedM Unit := do
  if o.checked then
    match s with
    | .fn pos name ps _ => register o ⟨name, ps⟩ pos
    | s => updating o (·.enact s)

/-- The line that is noted before a statement at top level. -/
def statementLine (pos : Pos) (first : Bytes) : Bytes :=
  ascii "[lumen:" ++ ascii "parse" ++ ascii "] "
    ++ (ascii "statement at line " ++ decimal pos.line ++ ascii " starting with " ++ first)
    ++ [Byte.lineFeed]

/-- Reads statements to the end of the text. -/
def topStmts (o : Options) (stmtSteps : Nat) : (steps : Nat) → TaggedM (List TaggedStmt)
  | 0 => throw .outOfSteps
  | steps + 1 => do
    if ← atEnd then return []
    else
      let t ← here
      -- the text is made whether it is noted or not
      let text ← access t.content.describe
      note o (statementLine t.pos text)
      let s ← stmt o stmtSteps
      enactTop o s
      return s :: (← topStmts o stmtSteps steps)

/-! ## §3. Statements -/

section
variable {noted : Array Bytes}

theorem blockEnds_mirrors : Mirrors Cursor.tape id blockEnds Parse.blockEnds := by
  apply seen_mirrors
  · exact fun c _ => mirrors_pure true c
  · intro c t h
    have hend := looksAt_of_some h (· == .word .end_)
    have helse := looksAt_of_some h (· == .word .else_)
    apply MirrorsAt.looked hend
    obtain ⟨l, p⟩ := t
    cases l with
    | literal v => cases v <;> exact helse
    | word w => cases w <;> first | exact helse | exact mirrors_pure true c
    | _ => exact helse

theorem blockPos_mirrors : Mirrors Cursor.tape id blockPos Parse.blockPos := by
  intro c
  unfold blockPos Parse.blockPos
  apply MirrorsAt.peeked (CursorM.token?_run c)
  cases h : c.token? with
  | none => exact MirrorsAt.looked (atEnd_of_none h) (mirrors_pure Pos.start c)
  | some t =>
    apply MirrorsAt.looked (atEnd_of_some h)
    exact MirrorsAt.looked (here_of_some h) (mirrors_pure t.pos c)

section
variable (o : Options) {stmt : TaggedM TaggedStmt} {stmt' : ParseM Stmt}
  (hstmt : Mirrors (Parse.State.tagged noted) Stmt.tagged stmt stmt')
include hstmt

theorem stmts_mirrors (steps : Nat) :
    Mirrors (Parse.State.tagged noted) taggedStmts (stmts o stmt steps)
      (Parse.stmts o stmt' steps) := by
  induction steps with
  | zero => exact mirrors_throw .outOfSteps
  | succ steps ih =>
    unfold stmts Parse.stmts
    apply (lift_mirrors blockEnds_mirrors).bind
    intro ends
    cases ends with
    | true => exact mirrors_pure []
    | false =>
      apply hstmt.bind
      intro s
      apply (updating_mirrors o fun env => env.enact_tagged s).bind
      intro _
      exact ih.bind fun rest => mirrors_pure (s :: rest)

theorem block_mirrors (steps : Nat) (locals : List Param) :
    Mirrors (Parse.State.tagged noted) Block.tagged (block o stmt steps locals)
      (Parse.block o stmt' steps locals) := by
  apply (lift_mirrors blockPos_mirrors).bind
  intro pos
  apply (inScope_mirrors o locals (stmts_mirrors o hstmt steps)).bind
  exact fun body => mirrors_pure (Block.mk pos body)

theorem elseBlock_mirrors (steps : Nat) :
    Mirrors (Parse.State.tagged noted) taggedElse (elseBlock o stmt steps)
      (Parse.elseBlock o stmt' steps) := by
  apply (lift_mirrors (accept_mirrors (Tag.word_tells .else_))).bind
  intro isElse
  cases isElse with
  | true => exact (block_mirrors o hstmt steps []).bind fun b => mirrors_pure (some b)
  | false => exact mirrors_pure none

theorem ifStmt_mirrors (steps : Nat) :
    Mirrors (Parse.State.tagged noted) Stmt.tagged (ifStmt o stmt steps)
      (Parse.ifStmt o stmt' steps) := by
  apply (lift_mirrors advance_mirrors).bind
  intro t
  apply (lift_mirrors (expr_mirrors steps)).bind
  intro cond
  apply (checking_mirrors o fun env => env.checkTruth_tagged cond).bind
  intro _
  apply (block_mirrors o hstmt steps []).bind
  intro then_
  apply (elseBlock_mirrors o hstmt steps).bind
  intro else_
  apply (lift_mirrors (word_mirrors .end_)).bind
  exact fun _ => mirrors_pure (Stmt.if_ t.pos cond then_ else_)

theorem whileStmt_mirrors (steps : Nat) :
    Mirrors (Parse.State.tagged noted) Stmt.tagged (whileStmt o stmt steps)
      (Parse.whileStmt o stmt' steps) := by
  apply (lift_mirrors advance_mirrors).bind
  intro t
  apply (lift_mirrors (expr_mirrors steps)).bind
  intro cond
  apply (checking_mirrors o fun env => env.checkTruth_tagged cond).bind
  intro _
  apply (block_mirrors o hstmt steps []).bind
  intro body
  apply (lift_mirrors (word_mirrors .end_)).bind
  exact fun _ => mirrors_pure (Stmt.while_ t.pos cond body)

omit hstmt in
/-- Another type than `int` is read before it is reported. -/
theorem loopType_mirrors (steps : Nat) (var : Bytes) :
    Mirrors Cursor.tape id (loopType steps var) (Parse.loopType steps var) := by
  have hno : Mirrors Cursor.tape id (unexpected (ascii (Tag.word .int).name) : TapeM Unit)
      (CursorM.unexpected (.word .int)) := unexpected_mirrors id (.word .int)
  intro c
  unfold loopType Parse.loopType
  apply MirrorsAt.peeked (CursorM.token?_run c)
  cases h : c.token? with
  | none =>
    apply MirrorsAt.looked (looksAt_of_none h (· == .word .int))
    exact MirrorsAt.looked (looksAt_of_none h Tag.isTypeMarker) (hno c)
  | some t =>
    have hmarker := looksAt_of_some h Tag.isTypeMarker
    apply MirrorsAt.looked (looksAt_of_some h (· == .word .int))
    obtain ⟨l, p⟩ := t
    cases l with
    | word w =>
      cases w with
      | int => exact passed_mirrors h (mirrors_pure () _)
      | float | string | bool | list =>
        apply MirrorsAt.looked hmarker
        apply MirrorsAt.looked (here_of_some h)
        exact (type_mirrors steps c).bind fun ty c _ =>
          mirrors_throw (.error (.mismatch var (.type .int) (.type ty) p)) c
      | _ => exact MirrorsAt.looked hmarker (hno c)
    | literal v => cases v <;> exact MirrorsAt.looked hmarker (hno c)
    | _ => exact MirrorsAt.looked hmarker (hno c)

theorem forStmt_mirrors (steps : Nat) :
    Mirrors (Parse.State.tagged noted) Stmt.tagged (forStmt o stmt steps)
      (Parse.forStmt o stmt' steps) := by
  apply (lift_mirrors advance_mirrors).bind
  intro t
  apply (lift_mirrors (identifier_mirrors .loopVariable)).bind
  intro var
  apply (lift_mirrors (mark_mirrors .colon)).bind
  intro _
  apply (lift_mirrors (loopType_mirrors steps var)).bind
  intro _
  apply (lift_mirrors (mark_mirrors .equal)).bind
  intro _
  apply (lift_mirrors (expr_mirrors steps)).bind
  intro start
  apply (lift_mirrors (mark_mirrors .dotDot)).bind
  intro _
  apply (lift_mirrors (expr_mirrors steps)).bind
  intro stop
  apply (checking_mirrors o fun env => env.checkBounds_tagged var start stop).bind
  intro _
  apply (block_mirrors o hstmt steps [⟨var, .int⟩]).bind
  intro body
  apply (lift_mirrors (word_mirrors .end_)).bind
  exact fun _ => mirrors_pure (Stmt.for_ t.pos var start stop body)

omit hstmt in
theorem paramList_mirrors (typeSteps steps : Nat) :
    Mirrors Cursor.tape id (paramList typeSteps steps) (Parse.paramList typeSteps steps) := by
  induction steps with
  | zero => exact mirrors_throw .outOfSteps
  | succ steps ih =>
    unfold paramList Parse.paramList
    apply (identifier_mirrors .parameterName).bind
    intro name
    apply (mark_mirrors .colon).bind
    intro _
    apply (type_mirrors typeSteps).bind
    intro ty
    apply (accept_mirrors (Tag.mark_tells .comma)).bind
    intro isComma
    cases isComma with
    | true =>
      apply (check_mirrors (Tag.mark_tells .rparen)).bind
      intro isClose
      cases isClose with
      | true => exact unexpected_mirrors id .parameterName
      | false => exact ih.bind fun ps => mirrors_pure ((⟨name, ty⟩ : Param) :: ps)
    | false => exact mirrors_pure [(⟨name, ty⟩ : Param)]

omit hstmt in
theorem params_mirrors (steps : Nat) :
    Mirrors Cursor.tape id (params steps) (Parse.params steps) := by
  apply (mark_mirrors .lparen).bind
  intro _
  apply (check_mirrors (Tag.mark_tells .rparen)).bind
  intro isClose
  cases isClose with
  | true => exact (mark_mirrors .rparen).bind fun _ => mirrors_pure []
  | false =>
    apply (paramList_mirrors steps steps).bind
    intro ps
    exact (mark_mirrors .rparen).bind fun _ => mirrors_pure ps

theorem fnStmt_mirrors (steps : Nat) :
    Mirrors (Parse.State.tagged noted) Stmt.tagged (fnStmt o stmt steps)
      (Parse.fnStmt o stmt' steps) := by
  apply (lift_mirrors advance_mirrors).bind
  intro t
  apply (lift_mirrors (identifier_mirrors .functionName)).bind
  intro name
  apply (lift_mirrors (params_mirrors steps)).bind
  intro ps
  apply (block_mirrors o hstmt steps ps).bind
  intro body
  apply (lift_mirrors (word_mirrors .end_)).bind
  exact fun _ => mirrors_pure (Stmt.fn t.pos name ps body)

omit hstmt in
theorem letStmt_mirrors (steps : Nat) :
    Mirrors (Parse.State.tagged noted) Stmt.tagged (letStmt o steps) (Parse.letStmt o steps) := by
  apply (lift_mirrors advance_mirrors).bind
  intro t
  apply (lift_mirrors (identifier_mirrors .variableName)).bind
  intro name
  apply (lift_mirrors (mark_mirrors .colon)).bind
  intro _
  apply (lift_mirrors (type_mirrors steps)).bind
  intro ty
  apply (lift_mirrors (mark_mirrors .equal)).bind
  intro _
  apply (lift_mirrors (expr_mirrors steps)).bind
  intro init
  apply (checking_mirrors o fun env => env.checkType_tagged ty init name).bind
  exact fun _ => mirrors_pure (Stmt.let_ t.pos name ty init)

omit hstmt in
theorem printStmt_mirrors (steps : Nat) :
    Mirrors (Parse.State.tagged noted) Stmt.tagged (printStmt o steps)
      (Parse.printStmt o steps) := by
  apply (lift_mirrors advance_mirrors).bind
  intro t
  apply (lift_mirrors (expr_mirrors steps)).bind
  intro value
  apply (checking_mirrors o fun env => env.infer_tagged value).bind
  exact fun _ => mirrors_pure (Stmt.print t.pos value)

omit hstmt in
theorem returnStmt_mirrors (steps : Nat) :
    Mirrors (Parse.State.tagged noted) Stmt.tagged (returnStmt o steps)
      (Parse.returnStmt o steps) := by
  apply (lift_mirrors advance_mirrors).bind
  intro t
  apply (lift_mirrors blockEnds_mirrors).bind
  intro ends
  apply (lift_mirrors (check_mirrors (Tag.mark_tells .semicolon))).bind
  intro isSemicolon
  dsimp only [id]
  by_cases hends : (ends || isSemicolon) = true
  · rw [if_pos hends, if_pos hends]
    exact mirrors_pure (Stmt.return_ t.pos none)
  · rw [if_neg hends, if_neg hends]
    apply (lift_mirrors (expr_mirrors steps)).bind
    intro value
    apply (checking_mirrors o fun env => env.infer_tagged value).bind
    exact fun _ => mirrors_pure (Stmt.return_ t.pos (some value))

omit hstmt in
/-- The name that a statement starts with has been seen before its token is asked for it. -/
theorem nameStmt_mirrors (steps : Nat) {s : Parse.State} {name : Bytes} {p : Pos}
    (h : s.cursor.token? = some ⟨.ident name, p⟩) :
    MirrorsAt (Parse.State.tagged noted) Stmt.tagged (nameStmt o steps)
      (Parse.nameStmt o steps name) s := by
  unfold nameStmt Parse.nameStmt
  apply MirrorsAt.passed (lift_advance_of_some h) (onCursor_of_ok (CursorM.advance_of_some h))
  apply (lift_mirrors (named_mirrors (expr_mirrors steps) steps p name) _).bind
  intro target s _
  have hjudged : Mirrors (Parse.State.tagged noted) Stmt.tagged
      (do
        checking o (·.infer target.tagged)
        return .expr p target.tagged)
      (do
        Parse.checking o (infer · target)
        return .expr p target) :=
    (checking_mirrors o fun env => env.infer_tagged target).bind fun _ =>
      mirrors_pure (Stmt.expr p target)
  have hno : Mirrors (Parse.State.tagged noted) Stmt.tagged
      (liftM (unexpected (ascii "end of statement") : TapeM TaggedStmt))
      (liftM (CursorM.unexpected .endOfStatement : CursorM Stmt)) :=
    lift_mirrors (unexpected_mirrors _ .endOfStatement)
  -- only a variable or an element of a list can be assigned to
  cases target with
  | access pos name path =>
    refine marked_mirrors .equal ?_ hjudged s
    apply (lift_mirrors (expr_mirrors steps)).bind
    intro value
    apply (updating_mirrors o fun env => env.store_tagged pos name path value).bind
    exact fun _ => mirrors_pure (Stmt.assign pos name path value)
  | _ =>
    apply (lift_mirrors (check_mirrors (Tag.mark_tells .equal)) s).bind
    intro isEqual s _
    cases isEqual with
    | true => exact hno s
    | false => exact hjudged s

omit hstmt in
/-- The token with which no statement starts has been seen before it is described. -/
theorem refused_mirrors {kind : String} {e : ParseError} {s : Parse.State} {t : Token}
    (h : s.cursor.token? = some t) (he : Report.noStatement kind t.tagged = .ok e.report) :
    MirrorsAt (Parse.State.tagged noted) Stmt.tagged
      (liftM (bareStmt.refused kind) : TaggedM TaggedStmt) (throw (.error e)) s := by
  have hfault : bareStmt.refused kind s.cursor.tape = .error (.error e.report) s.cursor.tape := by
    unfold bareStmt.refused
    rw [bind_of_ok (here_of_some h), he]
    rfl
  have hrun : bareStmt.refused kind (s.tagged noted).tape
      = .error (.error e.report) s.cursor.tape := hfault
  show onTape (bareStmt.refused kind) (s.tagged noted) = _
  unfold onTape
  rw [hrun]
  rfl

/-- What the tag of a token tells decides what is read. -/
theorem bareStmt_mirrors (steps : Nat) :
    Mirrors (Parse.State.tagged noted) Stmt.tagged (bareStmt o stmt steps)
      (Parse.bareStmt o stmt' steps) := by
  intro s
  apply MirrorsAt.peeked (onCursor_of_ok (CursorM.token?_run s.cursor))
  cases h : s.cursor.token? with
  | none =>
    apply MirrorsAt.looked (lift_looked (atEnd_of_none h))
    exact lift_mirrors (unexpected_mirrors Stmt.tagged .statement) s
  | some t =>
    apply MirrorsAt.looked (lift_looked (atEnd_of_some h))
    apply MirrorsAt.looked (lift_looked (here_of_some h))
    obtain ⟨l, p⟩ := t
    cases l with
    | word w =>
      cases w with
      | let_ => exact letStmt_mirrors o steps s
      | print => exact printStmt_mirrors o steps s
      | if_ => exact ifStmt_mirrors o hstmt steps s
      | while_ => exact whileStmt_mirrors o hstmt steps s
      | for_ => exact forStmt_mirrors o hstmt steps s
      | fn => exact fnStmt_mirrors o hstmt steps s
      | return_ => exact returnStmt_mirrors o steps s
      | end_ | else_ => exact refused_mirrors h (Report.strayTerminator_eq _)
      | _ => exact refused_mirrors h (Report.unknownStatement_eq _)
    | ident name => exact nameStmt_mirrors o steps h
    | literal v => cases v <;> exact refused_mirrors h (Report.unknownStatement_eq _)
    | _ => exact refused_mirrors h (Report.unknownStatement_eq _)

end

theorem stmt_mirrors (o : Options) (steps : Nat) :
    Mirrors (Parse.State.tagged noted) Stmt.tagged (stmt o steps) (Parse.stmt o steps) := by
  induction steps with
  | zero => exact mirrors_throw .outOfSteps
  | succ steps ih =>
    unfold stmt Parse.stmt
    apply (bareStmt_mirrors o ih (steps + 1)).bind
    intro s
    exact (lift_mirrors (accept_mirrors (Tag.mark_tells .semicolon))).bind fun _ => mirrors_pure s

theorem enactTop_mirrors (o : Options) (s : Stmt) :
    Mirrors (Parse.State.tagged noted) id (enactTop o s.tagged) (Parse.enactTop o s) := by
  have hother : Mirrors (Parse.State.tagged noted) id (updating o (·.enact s.tagged))
      (Parse.updating o (·.enact s)) := updating_mirrors o fun env => env.enact_tagged s
  unfold enactTop Parse.enactTop
  cases o.checked with
  | false => exact mirrors_pure ()
  | true =>
    cases s with
    | fn p name ps body => exact register_mirrors o ⟨name, ps, some body⟩ p
    | _ => exact hother

theorem topStmts_mirrors (o : Options) (stmtSteps steps : Nat) :
    Mirrors (Parse.State.tagged noted) taggedStmts (topStmts o stmtSteps steps)
      (Parse.topStmts o stmtSteps steps) := by
  induction steps with
  | zero => exact mirrors_throw .outOfSteps
  | succ steps ih =>
    intro s
    unfold topStmts Parse.topStmts
    apply MirrorsAt.peeked (onCursor_of_ok (CursorM.token?_run s.cursor))
    cases h : s.cursor.token? with
    | none =>
      apply MirrorsAt.looked (lift_looked (atEnd_of_none h))
      exact mirrors_pure [] s
    | some t =>
      have hdescribe : (access t.tagged.content.describe : TaggedM Bytes) (s.tagged noted)
          = .ok t.lexeme.describe (s.tagged noted) := by
        show access t.lexeme.tagged.describe (s.tagged noted) = _
        rw [Tagged.describe_tagged]
        rfl
      -- looking at the token and making its text leave the tape as it is
      apply MirrorsAt.looked (lift_looked (atEnd_of_some h))
      apply MirrorsAt.looked (lift_looked (here_of_some h))
      apply MirrorsAt.looked hdescribe
      apply (note_mirrors o (.statement t.pos.line t.lexeme) s).bind
      intro _ s _
      apply (stmt_mirrors o stmtSteps s).bind
      intro stmt s _
      apply (enactTop_mirrors o stmt s).bind
      intro _ s _
      exact (ih s).bind fun rest s _ => mirrors_pure (stmt :: rest) s

end

end Tape

/-! ## §4. Everything that can be read -/

namespace Parse.Operation

/-- What an operation gives where tokens are kept. -/
def TaggedGiven : Operation → Type
  | program => List TaggedStmt
  | statement => TaggedStmt
  | statements => TaggedBlock
  | expression => TaggedExpr
  | typeName => Ty

/-- What an operation gives, with its tokens. -/
def givenTagged : (op : Operation) → op.Given → op.TaggedGiven
  | program => taggedStmts
  | statement => Stmt.tagged
  | statements => Block.tagged
  | expression => Expr.tagged
  | typeName => id

/-- An operation on a tape, which may take `n` steps at every level. -/
def onTape (o : Options) : (op : Operation) → (n : Nat) → TaggedM op.TaggedGiven
  | program, n => do
    let p ← Tape.topStmts o n n
    Tape.note o (Event.parsed p.length (← get).env.functions.length).line
    return p
  | statement, n => Tape.stmt o n
  | statements, n => Tape.block o (Tape.stmt o n) n []
  | expression, n => Tape.onTape (Tape.expr n)
  | typeName, n => Tape.onTape (Tape.type n)

theorem onTape_mirrors {noted : Array Bytes} (o : Options) (op : Operation) (n : Nat) :
    Mirrors (State.tagged noted) op.givenTagged (op.onTape o n) (op.inSteps o n) := by
  cases op with
  | program =>
    apply (Tape.topStmts_mirrors o n n).bind
    intro p s
    -- the note counts statements and functions, of which a tape has as many
    have hlength : (taggedStmts p).length = p.length := length_taggedStmts p
    have hfunctions : (s.tagged noted).env.functions.length = s.env.functions.length :=
      List.length_map _
    show MirrorsAt (State.tagged noted) taggedStmts
      (do
        Tape.note o (Event.parsed (taggedStmts p).length (s.tagged noted).env.functions.length).line
        return taggedStmts p)
      (do
        note o (.parsed p.length s.env.functions.length)
        return p) s
    rw [hlength, hfunctions]
    exact (Tape.note_mirrors o _ s).bind fun _ t _ => mirrors_pure p t
  | statement => exact Tape.stmt_mirrors o n
  | statements => exact Tape.block_mirrors o (Tape.stmt_mirrors o n) n []
  | expression => exact Tape.lift_mirrors (Tape.expr_mirrors n)
  | typeName => exact Tape.lift_mirrors (Tape.type_mirrors n)

end Parse.Operation

end Lumen
