/-
  Lumen.Proofs.Reading.Forward — what has been read is not looked at.

  A reader looks at the tokens that are ahead and at the environment.  What is behind the
  cursor, and what has been noted down, it only adds to.  So from states that agree on what
  is ahead and on the environment it comes to the same result, and to states that agree
  again.

  Main statements:
    * `State.AgreesAhead` — states that agree on what is ahead;
    * `ScansForward`, `ReadsForward` — readers that do not look back;
    * `tokens_forward` — types, expressions and all other readers of tokens;
    * `stmts_forward`, `topStmts_forward` — statements and programs.
-/
import Lumen.Proofs.Layout.Reading
import Lumen.Proofs.Reading.StmtRecurs

namespace Lumen

/-! ## §1. States that agree -/

/-- The same tokens are ahead of two cursors. -/
def Cursor.AgreesAhead (c c' : Cursor) : Prop := c.ahead = c'.ahead

namespace Cursor.AgreesAhead
variable {c c' : Cursor} (h : c.AgreesAhead c')
include h

theorem current?_eq : c.current? = c'.current? := congrArg List.head? h

theorem token?_eq : c.token? = c'.token? := congrArg (Option.filter _) h.current?_eq

theorem past (t : Token) : (c.past t).AgreesAhead (c'.past t) := congrArg List.tail h

theorem splitGe : c.splitGe.AgreesAhead c'.splitGe := by
  obtain ⟨before, ahead⟩ := c
  obtain ⟨before', ahead'⟩ := c'
  obtain rfl : ahead = ahead' := h
  unfold Cursor.splitGe AgreesAhead
  dsimp only
  split
  · rfl
  · rfl

end Cursor.AgreesAhead

namespace Parse
open CursorM

/-- The same tokens are ahead in two states, and the environments are the same. -/
structure State.AgreesAhead (s s' : State) : Prop where
  cursor : s.cursor.AgreesAhead s'.cursor
  env : s.env = s'.env

/-- From cursors that agree on what is ahead, a reader gives the same or fails alike, and they
    agree afterwards. -/
abbrev ScansForward {α : Type} (m : CursorM α) : Prop :=
  ReadsAlike Cursor.AgreesAhead id m m

/-- From states that agree on what is ahead, a reader gives the same or fails alike, and they
    agree afterwards. -/
abbrev ReadsForward {α : Type} (m : ParseM α) : Prop := ReadsAlike State.AgreesAhead id m m

/-! ## §2. Single tokens -/

section
variable {α : Type}

theorem looks_forward {m : CursorM α} {look : Option Token → α} (hm : Looks m look) :
    ScansForward m := by
  intro c c' h
  have htoken : (HasCursor.cursor c).token? = (HasCursor.cursor c').token? := h.token?_eq
  rw [hm c, hm c', htoken]
  exact .ok rfl h

theorem unexpected_forward (expected : Expected) :
    ScansForward (unexpected expected : CursorM α) := by
  intro c c' h
  have hsame : (unexpected expected : CursorM α) c
      = .error (.error (.unexpected expected c'.current?)) c := by
    rw [← h.current?_eq]
    rfl
  rw [hsame]
  exact .error (.refl _) h

theorem advance_forward : ScansForward advance := by
  intro c c' h
  have htoken := h.token?_eq
  cases ht : c.token? with
  | none =>
    rw [advance_of_none ht, advance_of_none (htoken.symm.trans ht)]
    exact .error (.refl _) h
  | some t =>
    rw [advance_of_some ht, advance_of_some (htoken.symm.trans ht)]
    exact .ok rfl (h.past t)

/-- Reading a token and giving something. -/
theorem advanced_forward (a : α) : ScansForward (do let _ ← advance; return a) :=
  advance_forward.bind_eq fun _ => alike_pure rfl

theorem mark_forward (m : Mark) : ScansForward (mark m) := by
  apply (looks_forward (isAt_looks _)).bind_eq
  intro isThere
  split
  · exact advanced_forward ()
  · exact unexpected_forward _

end

/-! ## §3. Types and all readers of tokens -/

theorem splitGe_forward : ScansForward (modify Cursor.splitGe : CursorM Unit) :=
  fun _ _ h => .ok rfl h.splitGe

theorem type_forward (steps : Nat) : ScansForward (type steps) := by
  induction steps with
  | zero => exact alike_throw (.refl _)
  | succ steps ih =>
    unfold type
    apply (looks_forward lexeme?_looks).bind_eq
    intro l?
    split
    · -- `list`, a bracket, the type of the items, and what closes it
      apply advance_forward.bind_eq
      intro _
      apply (mark_forward _).bind_eq
      intro _
      apply ih.bind_eq
      intro elem
      apply splitGe_forward.bind_eq
      intro _
      exact (mark_forward _).bind_eq fun _ => alike_pure rfl
    · split
      · exact advanced_forward _
      · exact unexpected_forward _
    · exact unexpected_forward _

/-- A reader of tokens does not look back if no reader of single tokens does. -/
theorem tokens_forward : TokenCongruence Eq fun _ m _ => ScansForward m where
  toCongruence := congruence_of_eq (fun _ => alike_pure rfl) (fun _ => alike_throw (.refl _))
    fun hm hk => hm.bind_eq hk
  ofLooks := looks_forward
  ofUnexpected _ := unexpected_forward _
  ofAdvance := advance_forward
  ofType := by
    rintro n _ rfl
    exact type_forward n

/-! ## §4. Checks, changes and scopes -/

section
variable {α : Type}

/-- A reader of tokens among readers of statements. -/
theorem lift_forward {m : CursorM α} (h : ScansForward m) :
    ReadsForward (liftM m : ParseM α) := by
  intro s s' hs
  have hread := h s.cursor s'.cursor hs.cursor
  show EndsAlike State.AgreesAhead id (onCursor m s) (onCursor m s')
  unfold onCursor
  revert hread
  generalize m s.cursor = r, m s'.cursor = r'
  intro hread
  cases hread with
  | ok hview hcursor => exact .ok hview ⟨hcursor, hs.env⟩
  | error hsame hcursor => exact .error hsame ⟨hcursor, hs.env⟩

variable (o : Options)

theorem note_forward (e : Event) : ReadsForward (note o e) := by
  intro s s' hs
  obtain ⟨trace, hnote⟩ := note_ok o e s
  obtain ⟨trace', hnote'⟩ := note_ok o e s'
  rw [hnote, hnote']
  exact .ok rfl ⟨hs.cursor, hs.env⟩

/-- What is done with the environment alone. -/
theorem env_forward {β : Type} {k : Env → ParseM β} (hk : ∀ env, ReadsForward (k env)) :
    ReadsForward (do k (← get).env) := by
  intro s s' hs
  show EndsAlike State.AgreesAhead id (k s.env s) (k s'.env s')
  rw [hs.env]
  exact hk s'.env s s' hs

theorem certain_forward (r : Except Failure α) : ReadsForward (certain r) := by
  cases r with
  | ok a => exact alike_pure rfl
  | error f => exact alike_throw (.refl f)

theorem setEnv_forward (env : Env) :
    ReadsForward (modify fun s => { s with env } : ParseM Unit) :=
  fun _ _ hs => .ok rfl ⟨hs.cursor, rfl⟩

theorem checking_forward (check : Env → Except ParseError α) :
    ReadsForward (checking o check) := by
  unfold checking
  split
  · apply env_forward (k := fun env => do let _ ← certain (orFail (check env)))
    exact fun env => (certain_forward _).bind_eq fun _ => alike_pure rfl
  · exact alike_pure rfl

theorem updating_forward (change : Env → Except ParseError Env) :
    ReadsForward (updating o change) := by
  unfold updating
  split
  · apply env_forward (k := fun env => do
      let env ← certain (orFail (change env))
      modify fun s => { s with env })
    exact fun env => (certain_forward _).bind_eq setEnv_forward
  · exact alike_pure rfl

theorem enter_forward : ReadsForward (enter o) := by
  intro s s' hs
  refine env_forward (k := fun env => note o (.entered env.depth)) (fun env => note_forward o _)
    { s with env := s.env.push } { s' with env := s'.env.push } ⟨hs.cursor, ?_⟩
  show s.env.push = s'.env.push
  rw [hs.env]

theorem leave_forward : ReadsForward (leave o) := by
  unfold leave
  -- the two states have one environment, so both go on with the same
  apply env_forward (k := fun env => do
    let env ← certain env.pop
    modify fun s => { s with env }
    note o (.left env.depth))
  intro env
  apply (certain_forward _).bind_eq
  intro env
  exact (setEnv_forward env).bind_eq fun _ => note_forward o _

theorem register_forward (f : Signature) (pos : Pos) : ReadsForward (register o f pos) := by
  unfold register
  apply env_forward (k := fun env => do
    let env ← certain (orFail (env.register f pos))
    modify fun s => { s with env }
    note o (.registered f.name f.params.length))
  intro env
  apply (certain_forward _).bind_eq
  intro env
  exact (setEnv_forward env).bind_eq fun _ => note_forward o _

theorem inScope_forward (locals : List Param) {body : ParseM α} (hbody : ReadsForward body) :
    ReadsForward (inScope o locals body) := by
  unfold inScope
  split
  · apply (enter_forward o).bind_eq
    intro _
    apply (updating_forward o _).bind_eq
    intro _
    apply hbody.bind_eq
    intro a
    exact (leave_forward o).bind_eq fun _ => alike_pure rfl
  · exact hbody

theorem enactTop_forward (a : Stmt) : ReadsForward (enactTop o a) := by
  unfold enactTop
  split
  · split
    · exact register_forward o _ _
    · exact updating_forward o _
  · exact alike_pure rfl

end

/-! ## §5. Statements -/

section
variable (o : Options)

/-- Nor does a reader of statements look back. -/
theorem stmts_forward : StmtCongruence o o Eq (fun _ m _ => ScansForward m)
    fun _ m _ => ReadsForward m where
  toCongruence := congruence_of_eq (fun _ => alike_pure rfl) (fun _ => alike_throw (.refl _))
    fun hm hk => hm.bind_eq hk
  tokens := tokens_forward
  ofTokens := lift_forward
  ofCheck _ := checking_forward o _
  ofChange _ := updating_forward o _
  ofScope locals _ _ hbody := inScope_forward o locals hbody
  ofNote e := note_forward o e
  ofEnactTop a := enactTop_forward o a

theorem topStmts_forward (n steps : Nat) : ReadsForward (topStmts o n steps) :=
  topStmts_congr (stmts_forward o) rfl rfl

end

end Parse
end Lumen
