/-
  Lumen.Proofs.Checking.Shadowed — a checked run is an unchecked one, or part of it.

  Checks, changes of the environment and notes do not look at the tokens and leave the
  cursor where it is.  So from the same place of the same tokens, in whatever
  environments, a parser comes to the same end as one that does not check, unless a
  check stops it before.  Which of the two happens is the only thing that depends on
  the environment.

  In particular no parser ever takes more steps than it was given: an unchecked one
  does not, and a check takes none.

  Main statements:
    * `Aside` — readers that have nothing to do with the tokens;
    * `Shadows` — a reader and its unchecked counterpart, with `Shadows.bind`;
    * `shadows_congruence` — a run has a shadow if all its parts have;
    * `stmt_shadows`, `topStmts_shadows` — statements and programs;
    * `stmt_hasSteps`, `topStmts_hasSteps` — no parse is ever out of steps.
-/
import Lumen.Proofs.Reading.Congruence
import Lumen.Proofs.Reading.StmtDrawn
import Lumen.Proofs.Reading.StmtSound

namespace Lumen

/-! ## §1. Failures apart from the tokens -/

/-- Whether an error is about something else than the token at the cursor. -/
def ParseError.isApart : ParseError → Bool
  | unexpected _ _ | unknownStatement _ | strayTerminator _ => false
  | _ => true

/-- Whether a failure is no matter of the token at the cursor, nor of the parser's own
    bookkeeping. -/
def Failure.isApart : Failure → Bool
  | error e => e.isApart
  | globalScope => true
  | pastEnd | outOfSteps => false

/-- There is always a token that an expression could have been read from. -/
theorem Expr.drawn_any (e : Expr) : e.Drawn fun _ => True := by
  intro part _
  refine ⟨⟨(part.usedName?.map Lexeme.ident).getD .eof, part.pos⟩, trivial, rfl, ?_⟩
  intro name hname
  rw [hname]
  rfl

namespace Parse
open CursorM

theorem Blamed.isApart {T : Token → Prop} {e : ParseError} (h : Blamed T e) :
    e.isApart = true := by
  cases e with
  | unexpected | unknownStatement | strayTerminator => cases h
  | _ => rfl

/-- What a check gives, or an error that is no matter of the tokens. -/
abbrev GivesApart {α : Type} (r : Except ParseError α) : Prop :=
  Gives r (fun _ => True) fun e => e.isApart = true

theorem givesApart_of_blamed {α : Type} {r : Except ParseError α}
    (h : Gives r (fun _ => True) (Blamed fun _ => True)) : GivesApart r :=
  h.mono (fun _ _ => trivial) fun _ he => he.isApart

section
variable (env : Env)

theorem infer_apart (e : Expr) : GivesApart (infer env e) :=
  givesApart_of_blamed (infer_blamed env e.drawn_any)

theorem checkType_apart (e : Expr) (type : Ty) (name : Bytes) :
    GivesApart (checkType env type e name) :=
  givesApart_of_blamed (checkType_blamed env e.drawn_any type name)

theorem checkTruth_apart (cond : Expr) : GivesApart (env.checkTruth cond) :=
  givesApart_of_blamed (checkTruth_blamed env cond.drawn_any)

theorem checkBounds_apart (var : Bytes) (start stop : Expr) :
    GivesApart (env.checkBounds var start stop) :=
  givesApart_of_blamed (checkBounds_blamed env var start.drawn_any stop.drawn_any)

theorem enact_apart (a : Stmt) : GivesApart (env.enact a) :=
  givesApart_of_blamed (enact_blamed env a)

theorem declareAll_apart (locals : List Param) : GivesApart (env.declareAll locals) :=
  givesApart_of_blamed (declareAll_blamed env locals)

theorem store_apart (pos : Pos) (name : Bytes) (path : List Expr) (value : Expr) :
    GivesApart (env.store pos name path value) :=
  givesApart_of_blamed (store_blamed env (Expr.drawn_any _) value.drawn_any)

theorem register_apart (f : Signature) (pos : Pos) : GivesApart (env.register f pos) := by
  unfold Env.register
  split
  · rfl
  · exact trivial

end

theorem IsCheck.apart {α : Type} {check : Env → Except ParseError α} (hcheck : IsCheck check)
    (env : Env) : GivesApart (check env) := by
  cases hcheck with
  | infer e => exact infer_apart env e
  | type type e name => exact checkType_apart env e type name
  | truth cond => exact checkTruth_apart env cond
  | bounds var start stop => exact checkBounds_apart env var start stop

theorem IsChange.apart {change : Env → Except ParseError Env} (hchange : IsChange change)
    (env : Env) : GivesApart (change env) := by
  cases hchange with
  | enact a => exact enact_apart env a
  | store pos name path value => exact store_apart env pos name path value

/-! ## §2. Readers that have nothing to do with the tokens -/

section
variable {α β : Type}

/-- A reader does not look at the cursor and leaves it where it is; if it fails, it is
    not for a token. -/
def Aside (m : ParseM α) : Prop :=
  ∀ env trace,
    (∃ a env' trace', ∀ c, m ⟨c, env, trace⟩ = .ok a ⟨c, env', trace'⟩)
      ∨ ∃ f env' trace', f.isApart = true ∧ ∀ c, m ⟨c, env, trace⟩ = .error f ⟨c, env', trace'⟩

theorem aside_pure (a : α) : Aside (pure a) := fun env trace => .inl ⟨a, env, trace, fun _ => rfl⟩

theorem Aside.bind {m : ParseM α} {k : α → ParseM β} (hm : Aside m) (hk : ∀ a, Aside (k a)) :
    Aside (m >>= k) := by
  intro env trace
  obtain ⟨a, env₁, trace₁, hrun⟩ | ⟨f, env₁, trace₁, hf, hrun⟩ := hm env trace
  · have hgo : ∀ c, (m >>= k) ⟨c, env, trace⟩ = k a ⟨c, env₁, trace₁⟩ :=
      fun c => bind_of_ok (hrun c)
    simp only [hgo]
    exact hk a env₁ trace₁
  · exact .inr ⟨f, env₁, trace₁, hf, fun c => bind_of_error (hrun c)⟩

theorem aside_modify (change : Env → Env) :
    Aside (modify fun s => { s with env := change s.env }) :=
  fun env trace => .inl ⟨(), change env, trace, fun _ => rfl⟩

/-- To go on from the environment. -/
theorem aside_get {k : Env → ParseM α} (hk : ∀ env, Aside (k env)) :
    Aside (do k (← get).env) := fun env trace => hk env env trace

/-- To go on from what the environment gives. -/
theorem aside_certain {r : Env → Except Failure α} {k : α → ParseM β}
    (hr : ∀ env, Gives (r env) (fun _ => True) fun f => f.isApart = true)
    (hk : ∀ a, Aside (k a)) : Aside (do let a ← certain (r (← get).env); k a) := by
  refine aside_get (k := fun env => certain (r env) >>= k) fun env => Aside.bind ?_ hk
  have hresult := hr env
  cases hrun : r env with
  | ok a => exact aside_pure a
  | error f =>
    rw [hrun] at hresult
    exact fun env' trace => .inr ⟨f, env', trace, hresult, fun _ => rfl⟩

theorem givesApart_orFail {r : Except ParseError α} (h : GivesApart r) :
    Gives (orFail r) (fun _ => True) fun f => f.isApart = true := gives_orFail.mpr h

variable (o : Options)

theorem note_aside (e : Event) : Aside (note o e) := by
  unfold note
  split
  · exact fun env trace => .inl ⟨(), env, trace.push e, fun _ => rfl⟩
  · exact aside_pure ()

theorem checking_aside {check : Env → Except ParseError α}
    (hcheck : ∀ env, GivesApart (check env)) : Aside (checking o check) := by
  unfold checking
  split
  · exact aside_certain (fun env => givesApart_orFail (hcheck env)) fun _ => aside_pure ()
  · exact aside_pure ()

theorem updating_aside {change : Env → Except ParseError Env}
    (hchange : ∀ env, GivesApart (change env)) : Aside (updating o change) := by
  unfold updating
  split
  · exact aside_certain (fun env => givesApart_orFail (hchange env)) fun env =>
      aside_modify fun _ => env
  · exact aside_pure ()

theorem enter_aside : Aside (enter o) := by
  apply (aside_modify Env.push).bind
  exact fun _ => aside_get (k := fun env => note o (.entered env.depth)) fun _ => note_aside o _

theorem leave_aside : Aside (leave o) := by
  apply aside_certain
  · intro env
    unfold Env.pop
    split
    · exact trivial
    · exact rfl
  · exact fun env => (aside_modify fun _ => env).bind fun _ => note_aside o _

theorem register_aside (f : Signature) (pos : Pos) : Aside (register o f pos) := by
  refine aside_certain (r := fun env => orFail (env.register f pos)) ?_ ?_
  · exact fun env => givesApart_orFail (register_apart env f pos)
  · exact fun env => (aside_modify fun _ => env).bind fun _ => note_aside o _

theorem enactTop_aside (a : Stmt) : Aside (enactTop o a) := by
  unfold enactTop
  split
  · split
    · exact register_aside o _ _
    · exact updating_aside o fun env => enact_apart env _
  · exact aside_pure ()

end

/-! ## §3. Runs with a shadow -/

section
variable {α β : Type}

/-- How a run has ended, beside an unchecked one: alike and at the same place, or
    before, for a reason that is no matter of the tokens. -/
inductive Shadowed :
    EStateM.Result Failure State α → EStateM.Result Failure State α → Prop
  | ok {a : α} {s t : State} (hcursor : s.cursor = t.cursor) : Shadowed (.ok a s) (.ok a t)
  | error {f : Failure} {s t : State} (hcursor : s.cursor = t.cursor) :
    Shadowed (.error f s) (.error f t)
  | stopped {f : Failure} {s : State} {r : EStateM.Result Failure State α}
    (hf : f.isApart = true) : Shadowed (.error f s) r

/-- From the same place, `m` does what `off` does, or stops before. -/
def Shadows (m off : ParseM α) : Prop :=
  ∀ s s' : State, s.cursor = s'.cursor → Shadowed (m s) (off s')

theorem shadows_pure (a : α) : Shadows (pure a) (pure a) := fun _ _ hcursor => .ok hcursor

theorem shadows_throw (f : Failure) : Shadows (throw f : ParseM α) (throw f) :=
  fun _ _ hcursor => .error hcursor

theorem Shadows.bind {m off : ParseM α} {k koff : α → ParseM β} (hm : Shadows m off)
    (hk : ∀ a, Shadows (k a) (koff a)) : Shadows (m >>= k) (off >>= koff) := by
  intro s s' hcursor
  have hfirst := hm s s' hcursor
  show Shadowed (EStateM.bind m k s) (EStateM.bind off koff s')
  unfold EStateM.bind
  revert hfirst
  generalize m s = r, off s' = r'
  intro hfirst
  cases hfirst with
  | ok hcursor => exact hk _ _ _ hcursor
  | error hcursor => exact .error hcursor
  | stopped hf => exact .stopped hf

theorem lift_shadows (m : CursorM α) : Shadows (liftM m) (liftM m) := by
  intro s s' hcursor
  show Shadowed (onCursor m s) (onCursor m s')
  unfold onCursor
  rw [← hcursor]
  cases m s.cursor with
  | ok a c => exact .ok rfl
  | error f c => exact .error rfl

/-- What has nothing to do with the tokens need not be done. -/
theorem Aside.bind_shadows {m : ParseM α} {k : α → ParseM β} {off : ParseM β} (hm : Aside m)
    (hk : ∀ a, Shadows (k a) off) : Shadows (m >>= k) off := by
  rintro ⟨c, env, trace⟩ s' hcursor
  obtain ⟨a, env₁, trace₁, hrun⟩ | ⟨f, env₁, trace₁, hf, hrun⟩ := hm env trace
  · rw [bind_of_ok (hrun c)]
    exact hk a ⟨c, env₁, trace₁⟩ s' hcursor
  · rw [bind_of_error (hrun c)]
    exact .stopped hf

theorem Aside.shadows {m : ParseM Unit} (hm : Aside m) : Shadows m (pure ()) := by
  rw [← bind_pure m]
  exact hm.bind_shadows fun _ => shadows_pure ()

/-- Both runs are traced alike. -/
theorem note_shadows (o : Options) (e : Event) : Shadows (note o e) (note o e) := by
  unfold note
  split
  · exact fun _ _ hcursor => .ok hcursor
  · exact shadows_pure ()

end

/-! ## §4. Statements

The shadow of a checked run is set up alike, apart from the checks. -/

/-- A set-up without checks. -/
abbrev unchecked (o : Options) : Options := { o with checked := false }

theorem checked_unchecked (o : Options) : (unchecked o).checked = false := rfl

section
variable {α β : Type} (o : Options)

theorem inScope_shadows (locals : List Param) {body bodyOff : ParseM α}
    (hbody : Shadows body bodyOff) :
    Shadows (inScope o locals body) (inScope (unchecked o) locals bodyOff) := by
  -- the unchecked reader has no scopes: it is the body and nothing after it
  rw [inScope_off (checked_unchecked o), ← bind_pure bodyOff]
  unfold inScope
  split
  · apply (enter_aside o).bind_shadows
    intro _
    apply (updating_aside o fun env => declareAll_apart env locals).bind_shadows
    intro _
    apply hbody.bind
    exact fun a => (leave_aside o).bind_shadows fun _ => shadows_pure a
  · rw [bind_pure]
    exact hbody

/-- A run has a shadow if all that it is made of has one. -/
theorem shadows_congruence : StmtCongruence o (unchecked o) Eq (fun _ m m' => m = m')
    fun _ m off => Shadows m off where
  toCongruence := congruence_of_eq shadows_pure shadows_throw Shadows.bind
  tokens := eq_tokenCongruence
  ofTokens hm := hm ▸ lift_shadows _
  ofCheck hcheck := (checking_aside o hcheck.apart).shadows
  ofChange hchange := (updating_aside o hchange.apart).shadows
  ofScope locals _ _ hbody := inScope_shadows o locals hbody
  ofNote := note_shadows o
  ofEnactTop a := by
    rw [enactTop_off (checked_unchecked o)]
    exact (enactTop_aside o a).shadows

theorem stmt_shadows (steps : Nat) : Shadows (stmt o steps) (stmt (unchecked o) steps) :=
  stmt_congr (shadows_congruence o) (Eq.refl steps)

theorem stmtBlock_shadows (steps : Nat) (locals : List Param) :
    Shadows (block o (stmt o steps) steps locals)
      (block (unchecked o) (stmt (unchecked o) steps) steps locals) :=
  stmtBlock_congr (shadows_congruence o) (Eq.refl steps) locals

theorem topStmts_shadows (stmtSteps steps : Nat) :
    Shadows (topStmts o stmtSteps steps) (topStmts (unchecked o) stmtSteps steps) :=
  topStmts_congr (shadows_congruence o) (Eq.refl stmtSteps) (Eq.refl steps)

end

/-! ## §5. Steps -/

section
variable {σ α : Type}

/-- A run is not out of steps. -/
def HasSteps (m : EStateM Failure σ α) (s : σ) : Prop :=
  Ends m s (fun _ _ => True) fun f _ => f ≠ .outOfSteps

theorem hasSteps_of_sound {m : EStateM Failure σ α} {s : σ} {Q : α → σ → Prop}
    (h : Ends m s Q fun f _ => f.isSyntactic = true) : HasSteps m s := by
  apply h.mono fun _ _ _ => trivial
  rintro f _ hf rfl
  cases hf

theorem HasSteps.onCursor {m : CursorM α} {s : State} (h : HasSteps m s.cursor) :
    HasSteps (onCursor m) s := ends_onCursor.mpr h

/-- A run has steps enough if its shadow has: a check takes none. -/
theorem Shadows.hasSteps {m off : ParseM α} (h : Shadows m off) {s : State}
    (hoff : HasSteps off s) : HasSteps m s := by
  have hends := h s s rfl
  revert hends hoff
  unfold HasSteps Ends
  generalize m s = r, off s = r'
  intro hoff hends
  cases hends with
  | ok hcursor => exact trivial
  | error hcursor => exact hoff
  | stopped hf =>
    -- what stops the run apart from its shadow is a check, and no want of steps
    rintro rfl
    cases hf

variable (o : Options) {n : Nat} (s : State) (hn : s.cursor.weight < n)
include hn

theorem weighLexemes_lt_steps : Cursor.weighLexemes s.cursor.lexemes < n :=
  Nat.lt_of_le_of_lt s.cursor.weighLexemes_lexemes_le hn

theorem expr_hasSteps : HasSteps (onCursor (expr n)) s :=
  (hasSteps_of_sound (expr_sound n s.cursor (weighLexemes_lt_steps s hn))).onCursor

theorem type_hasSteps : HasSteps (onCursor (type n)) s :=
  (hasSteps_of_sound (type_sound n s.cursor (weighLexemes_lt_steps s hn))).onCursor

theorem stmt_hasSteps : HasSteps (stmt o n) s :=
  (stmt_shadows o n).hasSteps
    (hasSteps_of_sound (stmt_sound (checked_unchecked o) n s (weighLexemes_lt_steps s hn)))

theorem block_hasSteps (locals : List Param) : HasSteps (block o (stmt o n) n locals) s := by
  have hsteps := weighLexemes_lt_steps s hn
  have hstmt : ReadsStmt n (stmt (unchecked o) n) := stmt_sound (checked_unchecked o) n
  apply (stmtBlock_shadows o n locals).hasSteps
  exact hasSteps_of_sound
    (block_sound (checked_unchecked o) hstmt n locals s hsteps hsteps)

theorem topStmts_hasSteps : HasSteps (topStmts o n n) s := by
  have hsteps := weighLexemes_lt_steps s hn
  apply (topStmts_shadows o n n).hasSteps
  exact hasSteps_of_sound (topStmts_sound (checked_unchecked o) n n s hsteps hsteps)

end

end Parse
end Lumen
