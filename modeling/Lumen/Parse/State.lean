/-
  Lumen.Parse.State — reading with an environment at hand.

  Types and expressions are read from the tokens alone.  Statements are
  checked while they are read, so their readers also carry the environment,
  and the record of a traced run.  With checking off, no check is made
  and the environment stays as it is.

  Main statements:
    * `checking_off` / `updating_off` — without checking, checks do
      nothing.
-/
import Lumen.Cursor
import Lumen.Check
import Lumen.Trace
import Lumen.Options

namespace Lumen

namespace Parse

/-- How far a parse has come. -/
structure State where
  cursor : Cursor
  env : Env := {}
  trace : Trace := #[]

end Parse

/-- A reader of statements. -/
abbrev ParseM := EStateM Failure Parse.State

namespace Parse

/-- A reader of tokens as a reader of statements. -/
def onCursor {α : Type} (m : CursorM α) : ParseM α := fun s =>
  match m s.cursor with
  | .ok a cursor => .ok a { s with cursor }
  | .error e cursor => .error e { s with cursor }

instance : MonadLift CursorM ParseM := ⟨onCursor⟩

/-- Notes an event, if the run is traced. -/
def note (o : Options) (e : Event) : ParseM Unit := do
  if o.trace then modify fun s => { s with trace := s.trace.push e }

/-- The result of a check, or its error as the end of the run. -/
def certain {α : Type} : Except Failure α → ParseM α
  | .ok a => return a
  | .error e => throw e

/-- Makes a check, if checking is on. -/
def checking (o : Options) {α : Type} (check : Env → Except ParseError α) : ParseM Unit := do
  if o.checked then
    let _ ← certain (orFail (check (← get).env))

/-- Changes the environment, if checking is on. -/
def updating (o : Options) (change : Env → Except ParseError Env) : ParseM Unit := do
  if o.checked then
    let env ← certain (orFail (change (← get).env))
    modify fun s => { s with env }

/-! ## §1. Scopes and functions -/

/-- Enters a scope. -/
def enter (o : Options) : ParseM Unit := do
  modify fun s => { s with env := s.env.push }
  note o (.entered (← get).env.depth)

/-- Leaves a scope. -/
def leave (o : Options) : ParseM Unit := do
  let env ← certain (← get).env.pop
  modify fun s => { s with env }
  note o (.left env.depth)

/-- Reads something in a scope of its own that holds `locals`. -/
def inScope {α : Type} (o : Options) (locals : List Param) (body : ParseM α) : ParseM α := do
  if o.checked then
    enter o
    updating o (·.declareAll locals)
    let a ← body
    leave o
    return a
  else body

/-- Adds a function that was completed at a place. -/
def register (o : Options) (f : Signature) (pos : Pos) : ParseM Unit := do
  let env ← certain (orFail ((← get).env.register f pos))
  modify fun s => { s with env }
  note o (.registered f.name f.params.length)

theorem checking_off {o : Options} (h : o.checked = false) {α : Type}
    (check : Env → Except ParseError α) (s : State) : checking o check s = .ok () s := by
  simp [checking, h, pure, EStateM.pure]

theorem updating_off {o : Options} (h : o.checked = false)
    (change : Env → Except ParseError Env) (s : State) : updating o change s = .ok () s := by
  simp [updating, h, pure, EStateM.pure]

end Parse
end Lumen
