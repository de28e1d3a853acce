/-
  Lumen.Proofs.Access.Runs — runs on a tape with an environment.

  A run on a tape also carries an environment, and the lines that have been noted.  What
  it does besides reading — checks, changes of the environment, scopes and notes — mirrors
  what a parse does.

  Main statements:
    * `State.tagged` — a parse as it shows on a tape;
    * `Tape.lift_mirrors` — readers of tapes, within such a run;
    * `Tape.checking_mirrors`, `Tape.updating_mirrors`, `Tape.inScope_mirrors` — the rest.
-/
import Lumen.Proofs.Access.Judgements
import Lumen.Parse.State

namespace Lumen

/-! ## §1. Runs with an environment -/

/-- How far a run on a tape has come. -/
structure TaggedState where
  tape : Tape
  env : TaggedEnv := {}
  lines : Array Bytes := #[]

/-- A reader of statements. -/
abbrev TaggedM := EStateM Stop TaggedState

/-- A parse as it shows on a tape, in a run that began after some lines had been noted. -/
def Parse.State.tagged (noted : Array Bytes) (s : Parse.State) : TaggedState :=
  ⟨s.cursor.tape, s.env.tagged, noted ++ s.trace.map Event.line⟩

namespace Tape
variable {α β : Type}

/-- A reader of tapes as a reader of statements. -/
def onTape (m : TapeM α) : TaggedM α := fun s =>
  match m s.tape with
  | .ok a tape => .ok a { s with tape }
  | .error e tape => .error e { s with tape }

instance : MonadLift TapeM TaggedM := ⟨onTape⟩

/-- Notes a line, if the run is traced. -/
def note (o : Options) (line : Bytes) : TaggedM Unit := do
  if o.trace then modify fun s => { s with lines := s.lines.push line }

/-- The result of a check, or what stopped it as the end of the run. -/
def certain : Except Stop α → TaggedM α
  | .ok a => return a
  | .error e => throw e

/-- Makes a check, if checking is on. -/
def checking (o : Options) (check : TaggedEnv → Except Stop α) : TaggedM Unit := do
  if o.checked then
    let _ ← certain (check (← get).env)

/-- Changes the environment, if checking is on. -/
def updating (o : Options) (change : TaggedEnv → Except Stop TaggedEnv) : TaggedM Unit := do
  if o.checked then
    let env ← certain (change (← get).env)
    modify fun s => { s with env }

/-- Enters a scope. -/
def enter (o : Options) : TaggedM Unit := do
  modify fun s => { s with env := s.env.push }
  note o (Event.entered (← get).env.scopes.depth).line

/-- Leaves a scope. -/
def leave (o : Options) : TaggedM Unit := do
  let env ← certain (← get).env.pop
  modify fun s => { s with env }
  note o (Event.left env.scopes.depth).line

/-- Reads something in a scope of its own that holds `locals`. -/
def inScope (o : Options) (locals : List Param) (body : TaggedM α) : TaggedM α := do
  if o.checked then
    enter o
    updating o (·.declareAll locals)
    let a ← body
    leave o
    return a
  else body

/-- Adds a function that was completed at a place. -/
def register (o : Options) (f : Head) (pos : Pos) : TaggedM Unit := do
  let env ← certain ((← get).env.register f pos)
  modify fun s => { s with env }
  note o (Event.registered f.name f.params.length).line

/-! ## §2. Runs on both sides -/

section
variable {α β : Type} {view : α → β} {noted : Array Bytes}

theorem lift_mirrors {r : TapeM β} {m : CursorM α} (h : Mirrors Cursor.tape view r m) :
    Mirrors (Parse.State.tagged noted) view (liftM r : TaggedM β) (liftM m : ParseM α) := by
  intro s
  have hrun : r (s.tagged noted).tape = mirrored Cursor.tape view (m s.cursor) := h s.cursor
  show onTape r (s.tagged noted) = mirrored _ view (Parse.onCursor m s)
  unfold onTape Parse.onCursor
  rw [hrun]
  cases m s.cursor <;> rfl

/-- A look at a tape from a run that carries an environment. -/
theorem lift_looked {r : TapeM β} {b : β} {s : Parse.State}
    (h : r s.cursor.tape = .ok b s.cursor.tape) :
    (liftM r : TaggedM β) (s.tagged noted) = .ok b (s.tagged noted) := by
  have hrun : r (s.tagged noted).tape = .ok b s.cursor.tape := h
  show onTape r (s.tagged noted) = _
  unfold onTape
  rw [hrun]
  rfl

/-- A token that was seen is passed. -/
theorem lift_advance_of_some {s : Parse.State} {t : Token} (h : s.cursor.token? = some t) :
    (liftM advance : TaggedM TaggedToken) (s.tagged noted)
      = .ok t.tagged (({ s with cursor := s.cursor.past t } : Parse.State).tagged noted) := by
  have hrun : advance (s.tagged noted).tape = .ok t.tagged (s.cursor.past t).tape :=
    advance_of_some h
  show onTape advance (s.tagged noted) = _
  unfold onTape
  rw [hrun]
  rfl

theorem onCursor_of_ok {m : CursorM α} {s : Parse.State} {a : α} {c : Cursor}
    (h : m s.cursor = .ok a c) : (liftM m : ParseM α) s = .ok a { s with cursor := c } := by
  show Parse.onCursor m s = _
  unfold Parse.onCursor
  rw [h]

/-- A mark that is there is read. -/
theorem mark_of_some {m : Mark} {c : Cursor} {t : Token} (h : c.token? = some t)
    (hlexeme : t.lexeme = .mark m) : CursorM.mark m c = .ok () (c.past t) := by
  have hthere : CursorM.isAt (.mark m) c = .ok true c := by
    show EStateM.Result.ok (c.lexeme? == some (.mark m)) c = _
    rw [Cursor.lexeme?, h, Option.map_some, hlexeme, beq_self_eq_true]
  unfold CursorM.mark
  rw [bind_of_ok hthere, if_pos rfl, bind_of_ok (CursorM.advance_of_some h)]
  rfl

/-- A mark that was seen is passed without another look. -/
theorem marked_mirrors (m : Mark) {found missing : TaggedM β} {found' missing' : ParseM α}
    (hfound : Mirrors (Parse.State.tagged noted) view found found')
    (hmissing : Mirrors (Parse.State.tagged noted) view missing missing') :
    Mirrors (Parse.State.tagged noted) view
      (do
        if ← check (.mark m) then
          let _ ← advance
          found
        else missing)
      (do
        if ← CursorM.isAt (.mark m) then
          CursorM.mark m
          found'
        else missing') := by
  intro s
  apply MirrorsAt.passed (lift_looked (check_mirrors (Tag.mark_tells m) s.cursor))
    (onCursor_of_ok rfl)
  cases hthere : s.cursor.lexeme? == some (.mark m) with
  | false => exact hmissing s
  | true =>
    obtain ⟨t, ht, hlexeme⟩ := Option.map_eq_some_iff.mp (beq_iff_eq.mp hthere)
    exact MirrorsAt.passed (lift_advance_of_some ht) (onCursor_of_ok (mark_of_some ht hlexeme))
      (hfound _)

theorem note_mirrors (o : Options) (e : Event) :
    Mirrors (Parse.State.tagged noted) id (note o e.line) (Parse.note o e) := by
  unfold note Parse.note
  cases o.trace with
  | true =>
    intro s
    -- lines are noted behind those of the parse so far
    have hlines : (noted ++ s.trace.map Event.line).push e.line
        = noted ++ (s.trace.push e).map Event.line := by
      rw [Array.map_push, Array.append_push]
    show EStateM.Result.ok () (TaggedState.mk _ _ ((noted ++ s.trace.map Event.line).push e.line))
      = EStateM.Result.ok () (({ s with trace := s.trace.push e } : Parse.State).tagged noted)
    rw [hlines]
    rfl
  | false => exact mirrors_pure ()

/-- What a check comes to is the end of the run, or its result, on both sides. -/
theorem certain_mirrors {r : Except Stop β} {m : Except ParseError α} (h : r = reported view m) :
    Mirrors (Parse.State.tagged noted) view (certain r) (Parse.certain (orFail m)) := by
  subst h
  cases m <;> exact fun _ => rfl

theorem checking_mirrors (o : Options) {check : TaggedEnv → Except Stop β}
    {check' : Env → Except ParseError α}
    (h : ∀ env : Env, check env.tagged = reported view (check' env)) :
    Mirrors (Parse.State.tagged noted) id (checking o check) (Parse.checking o check') := by
  unfold checking Parse.checking
  cases o.checked with
  | true =>
    intro s
    exact (certain_mirrors (h s.env) s).bind fun _ t _ => mirrors_pure () t
  | false => exact mirrors_pure ()

theorem change_mirrors {change : TaggedEnv → Except Stop TaggedEnv}
    {change' : Env → Except ParseError Env}
    (h : ∀ env : Env, change env.tagged = reported Env.tagged (change' env)) :
    Mirrors (Parse.State.tagged noted) id
      (do
        let env ← certain (change (← get).env)
        modify fun s => { s with env })
      (do
        let env ← Parse.certain (orFail (change' (← get).env))
        modify fun s => { s with env }) := by
  intro s
  exact (certain_mirrors (h s.env) s).bind fun _ _ _ => rfl

theorem updating_mirrors (o : Options) {change : TaggedEnv → Except Stop TaggedEnv}
    {change' : Env → Except ParseError Env}
    (h : ∀ env : Env, change env.tagged = reported Env.tagged (change' env)) :
    Mirrors (Parse.State.tagged noted) id (updating o change) (Parse.updating o change') := by
  unfold updating Parse.updating
  cases o.checked with
  | true => exact change_mirrors h
  | false => exact mirrors_pure ()

theorem enter_mirrors (o : Options) :
    Mirrors (Parse.State.tagged noted) id (enter o) (Parse.enter o) := by
  intro s
  exact note_mirrors o (.entered s.env.push.depth) { s with env := s.env.push }

theorem leave_mirrors (o : Options) :
    Mirrors (Parse.State.tagged noted) id (leave o) (Parse.leave o) := by
  intro s
  -- scopes are the same on both sides, so both are left or neither
  have hpop : Mirrors (Parse.State.tagged noted) Env.tagged (certain (s.tagged noted).env.pop)
      (Parse.certain s.env.pop) := by
    have hscopes : (s.tagged noted).env.scopes = s.env.scopes := rfl
    unfold TaggedEnv.pop Env.pop
    rw [hscopes]
    cases s.env.scopes.pop? <;> exact fun _ => rfl
  refine (hpop s).bind ?_
  intro env t _
  exact note_mirrors o (.left env.depth) { t with env }

theorem register_mirrors (o : Options) (f : Signature) (pos : Pos) :
    Mirrors (Parse.State.tagged noted) id (register o f.tagged pos) (Parse.register o f pos) := by
  intro s
  refine (certain_mirrors (s.env.register_tagged f pos) s).bind ?_
  intro env t _
  exact note_mirrors o (.registered f.name f.params.length) { t with env }

theorem inScope_mirrors (o : Options) (locals : List Param) {body : TaggedM β} {body' : ParseM α}
    (hbody : Mirrors (Parse.State.tagged noted) view body body') :
    Mirrors (Parse.State.tagged noted) view (inScope o locals body)
      (Parse.inScope o locals body') := by
  unfold inScope Parse.inScope
  cases o.checked with
  | true =>
    apply (enter_mirrors o).bind
    intro _
    apply (updating_mirrors o fun env => env.declareAll_tagged locals).bind
    intro _
    apply hbody.bind
    intro a
    exact (leave_mirrors o).bind fun _ => mirrors_pure a
  | false => exact hbody

end

end Tape

end Lumen
