/-
  Lumen.Session — driving a parse step by step.

  A session holds a parse in progress.  Its steps read a part of the text,
  change the scopes and functions directly, or ask about them and about the
  tokens.  After a reading step has failed nothing further is done; any other
  failing step leaves all as it was, and the session goes on.

  Main statements:
    * `run_cons` — a session is its first step and, unless reading
      failed, a session of the others.
-/
import Lumen.Parse.Stmt

namespace Lumen

/-- A parse in progress, and the statement that was read last. -/
structure Session where
  state : Parse.State
  last : Option Stmt := none

namespace Session

/-- A session at the start of a token list. -/
def start (tokens : List Token) (trace : Trace := #[]) : Session :=
  { state := { cursor := .ofTokens tokens, trace } }

/-! ## §1. Steps and answers -/

/-- Something to be done in a session. -/
inductive Step where
  | program
  | statement
  | expression
  | block
  | type
  | define (name : Bytes) (type : Ty) (value : Value)
  | assign (name : Bytes) (value : Value)
  | lookup (name : Bytes)
  | push
  | pop
  | register (name : Bytes) (params : List Param) (pos : Pos)
  | registerLast
  | find (name : Bytes)
  | current
  | next
  | tokens

/-- Whether a step reads a part of the text. -/
def Step.reads : Step → Bool
  | program | statement | expression | block | type => true
  | _ => false

/-- What a step gives. -/
inductive Answer where
  | none
  | program (p : Program)
  | statement (s : Stmt)
  | expression (e : Expr)
  | block (b : Block)
  | type (t : Ty)
  | binding (b : Option Binding)
  | function (f : Option Signature)
  | token (t : Option Token)
  | tokens (ts : List Token)

/-! ## §2. Performing steps -/

/-- What a reader gives, and the session after it. -/
def read {α : Type} (s : Session) (m : ParseM α) (answer : α → Answer) :
    Except Failure Answer × Session :=
  match m s.state with
  | .ok a state => (.ok (answer a), { s with state })
  | .error e state => (.error e, { s with state })

/-- Performs a step: what it gives, and the session after it. -/
def perform (o : Options) (s : Session) : Step → Except Failure Answer × Session
  | .program => s.read (Parse.program o) .program
  | .statement =>
    match s.read (Parse.statement o) .statement with
    | (.ok (.statement stmt), t) => (.ok (.statement stmt), { t with last := some stmt })
    | r => r
  | .expression => s.read Parse.expression .expression
  | .block => s.read (Parse.statements o) .block
  | .type => s.read Parse.typeName .type
  | .define name type value => change fun env => orFail (env.declare name type value)
  | .assign name value => change fun env => orFail (env.assign name value none)
  | .lookup name => (.ok (.binding (s.state.env.lookup? name)), s)
  | .push => s.read (Parse.enter o) fun _ => .none
  | .pop => s.read (Parse.leave o) fun _ => .none
  | .register name params pos =>
    s.read (Parse.register o ⟨name, params, none⟩ pos) fun _ => .none
  | .registerLast =>
    match s.last with
    | some (.fn pos name params body) =>
      s.read (Parse.register o ⟨name, params, some body⟩ pos) fun _ => .none
    | _ => (.ok .none, s)
  | .find name => (.ok (.function (s.state.env.function? name)), s)
  | .current => (.ok (.token s.state.cursor.current?), s)
  | .next => (.ok (.token s.state.cursor.next?), s)
  | .tokens => (.ok (.tokens s.state.cursor.tokens), s)
where
  /-- A change of the environment that nothing notes. -/
  change (f : Env → Except Failure Env) : Except Failure Answer × Session :=
    match f s.state.env with
    | .ok env => (.ok .none, { s with state := { s.state with env } })
    | .error e => (.error e, s)

/-- A step that has been performed: what it gave, and the session after it. -/
structure Outcome where
  answer : Except Failure Answer
  after : Session

/-- Whether a session ends with a step. -/
def Outcome.isFinal (step : Step) (outcome : Outcome) : Bool :=
  step.reads && !outcome.answer.isOk

/-- Performs steps one after the other. -/
def run (o : Options) (s : Session) : List Step → List Outcome
  | [] => []
  | step :: rest =>
    let (answer, after) := s.perform o step
    let outcome : Outcome := ⟨answer, after⟩
    outcome :: if outcome.isFinal step then [] else after.run o rest

theorem run_cons (o : Options) (s : Session) (step : Step) (rest : List Step) :
    s.run o (step :: rest)
      = ⟨(s.perform o step).1, (s.perform o step).2⟩
        :: if step.reads && !(s.perform o step).1.isOk then []
           else (s.perform o step).2.run o rest := rfl

end Session
end Lumen
