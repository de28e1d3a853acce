/-
  Lumen.Check — checking statements and whole programs.

  §1 has the checks that belong to single statements.  The parser performs
  them as it goes; here they also make up a walk over a finished program that
  performs the same checks in the order of the text.  A block has a scope of
  its own; a `let` takes effect when its statement is complete, and so does a
  function at top level.  A function inside a block is never registered.

  Main statements:
    * `checkStmts_append` — a walk over two parts is a walk over one after the
      other.
-/
import Lumen.Typing

namespace Lumen

/-! ## §1. Checks of single statements -/

namespace Env

/-- Wants a condition to be a truth value.  Parentheses around it do not keep
    a literal from being named. -/
def checkTruth (env : Env) (cond : Expr) : Except ParseError Unit := do
  match ← infer env cond with
  | none => .ok ()
  | some t =>
    if t = .bool then .ok ()
    else .error (.mismatch [] (.type .bool) (cond.ungrouped.got t) cond.pos)

/-- Wants the bounds of a loop to be integers, as its variable is. -/
def checkBounds (env : Env) (var : Bytes) (start stop : Expr) : Except ParseError Unit := do
  checkType env .int start var
  checkType env .int stop var

/-- Checks an assignment and stores what is known of the value.  After a store
    into an element nothing is known of the list. -/
def store (env : Env) (pos : Pos) (name : Bytes) (indices : List Expr) (value : Expr) :
    Except ParseError Env := do
  let declared ← env.typeOf name pos
  match indices with
  | [] =>
    checkType env declared value name
    env.assign name value.constant (some pos)
  | _ =>
    match ← inferIndices env pos (some declared) indices with
    | some elem => checkType env elem value name
    | none => let _ ← infer env value
    env.assign name .unknown (some pos)

/-- Lets a completed statement of a block take effect. -/
def enact (env : Env) : Stmt → Except ParseError Env
  | .let_ _ name type init => env.declare name type init.constant
  | _ => .ok env

/-- Lets a completed statement at top level take effect. -/
def enactTop (env : Env) : Stmt → Except ParseError Env
  | .fn pos name params body => env.register ⟨name, params, some body⟩ pos
  | s => env.enact s

end Env

/-! ## §2. Walks -/

/-- An error of a program as the end of a run. -/
def orFail {α : Type} (r : Except ParseError α) : Except Failure α := r.mapError .error

mutual
/-- Checks a statement without letting it take effect. -/
def Stmt.check (env : Env) : Stmt → Except Failure Env
  | .expr _ e | .print _ e => do
    let _ ← orFail (infer env e)
    return env
  | .assign p name indices value => orFail (env.store p name indices value)
  | .let_ _ name type init => do
    orFail (checkType env type init name)
    return env
  | .if_ _ cond (.mk _ stmts) none => do
    orFail (env.checkTruth cond)
    (← checkStmts env.push stmts).pop
  | .if_ _ cond (.mk _ stmts) (some (.mk _ others)) => do
    orFail (env.checkTruth cond)
    let env ← (← checkStmts env.push stmts).pop
    (← checkStmts env.push others).pop
  | .while_ _ cond (.mk _ stmts) => do
    orFail (env.checkTruth cond)
    (← checkStmts env.push stmts).pop
  | .for_ _ var start stop (.mk _ stmts) => do
    orFail (env.checkBounds var start stop)
    let inside ← orFail (env.push.declareAll [⟨var, .int⟩])
    (← checkStmts inside stmts).pop
  | .fn _ _ params (.mk _ stmts) => do
    let inside ← orFail (env.push.declareAll params)
    (← checkStmts inside stmts).pop
  | .return_ _ none => .ok env
  | .return_ _ (some e) => do
    let _ ← orFail (infer env e)
    return env

/-- Checks the statements of a block, each of which takes effect before the
    next. -/
def checkStmts (env : Env) : List Stmt → Except Failure Env
  | [] => .ok env
  | s :: rest => do
    let env ← s.check env
    let env ← orFail (env.enact s)
    checkStmts env rest
end

/-- Checks a whole program. -/
def Program.check (env : Env) (p : Program) : Except Failure Env :=
  p.foldlM (fun env s => do
    let env ← s.check env
    orFail (env.enactTop s)) env

theorem checkStmts_append (env : Env) (p q : List Stmt) :
    checkStmts env (p ++ q) = (checkStmts env p).bind fun env => checkStmts env q := by
  induction p generalizing env with
  | nil => simp [checkStmts, Except.bind]
  | cons s rest ih =>
    rw [List.cons_append, checkStmts, checkStmts]
    cases h : s.check env with
    | error e => rfl
    | ok env₁ =>
      cases h' : orFail (env₁.enact s) with
      | error e => simp [bind, Except.bind, h']
      | ok env₂ => simp [bind, Except.bind, h', ih]

end Lumen
