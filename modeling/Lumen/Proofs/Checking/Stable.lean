/-
  Lumen.Proofs.Checking.Stable — what no change of an environment breaks.

  A parser changes its environment in five ways: it enters a scope, leaves one,
  declares a variable, assigns to one, and registers a function.  A property of
  environments that all five keep is kept by every reader, at every depth of
  blocks, whether it succeeds or fails.  Without checking a reader makes no
  change at all, and so it keeps any property.

  Main statements:
    * `Stable.store`, `Stable.enact` — the changes that statements make;
    * `updating_keeps` … `register_keeps` — changes while reading;
    * `keeps_congruence` — a reader keeps what all its parts keep;
    * `stmt_keeps` / `program_keeps` — statements and programs.
-/
import Lumen.Proofs.Checking.Fitting
import Lumen.Proofs.Reading.Congruence

namespace Lumen

/-! ## §1. Stable properties -/

/-- A property of environments that is kept by every change. -/
structure Stable (P : Env → Prop) : Prop where
  push : ∀ {env}, P env → P env.push
  pop : ∀ {env env'}, P env → env.pop = .ok env' → P env'
  declare : ∀ {env env' name type value}, P env → env.declare name type value = .ok env' → P env'
  assign : ∀ {env env' name value pos}, P env → env.assign name value pos = .ok env' → P env'
  register : ∀ {env env' f pos}, P env → env.register f pos = .ok env' → P env'

/-- A store ends with an assignment: of the value that is stored, or of nothing known. -/
theorem Env.exists_assign_of_store {env env' : Env} {pos : Pos} {name : Bytes} {path : List Expr}
    {value : Expr} (h : env.store pos name path value = .ok env') :
    ∃ v, (v = .unknown ∨ v = value.constant) ∧ env.assign name v (some pos) = .ok env' := by
  have hassign : ∀ v, v = .unknown ∨ v = value.constant → Gives (env.assign name v (some pos))
      (fun b => ∃ v, (v = .unknown ∨ v = value.constant) ∧ env.assign name v (some pos) = .ok b)
      fun _ => True := by
    intro v hv
    cases hrun : env.assign name v (some pos) with
    | ok b => exact ⟨v, hv, hrun⟩
    | error e => exact trivial
  -- the checks in front of the assignment may come out in any way
  have hany : ∀ {α : Type} (r : Except ParseError α), Gives r (fun _ => True) fun _ => True := by
    intro α r
    cases r <;> exact trivial
  have hstore : Gives (env.store pos name path value)
      (fun b => ∃ v, (v = .unknown ∨ v = value.constant) ∧ env.assign name v (some pos) = .ok b)
      fun _ => True := by
    unfold Env.store
    apply (hany _).bind
    intro declared _
    split
    · exact (hany _).bind fun _ _ => hassign _ (.inr rfl)
    · apply (hany _).bind
      intro elem _
      split
      · exact (hany _).bind fun _ _ => hassign _ (.inl rfl)
      · exact (hany _).bind fun _ _ => hassign _ (.inl rfl)
  exact hstore.of_ok h

section
variable {P : Env → Prop} (h : Stable P) {env env' : Env}
include h

theorem Stable.declareAll {locals : List Param} (henv : P env)
    (hrun : env.declareAll locals = .ok env') : P env' := by
  unfold Env.declareAll at hrun
  induction locals generalizing env with
  | nil =>
    obtain rfl := Except.ok.inj hrun
    exact henv
  | cons p rest ih =>
    rw [List.foldlM_cons] at hrun
    cases hdeclare : env.declare p.name p.type .unknown with
    | error e =>
      rw [hdeclare] at hrun
      cases hrun
    | ok env₁ =>
      rw [hdeclare] at hrun
      exact ih (h.declare henv hdeclare) hrun

theorem Stable.store {pos : Pos} {name : Bytes} {path : List Expr} {value : Expr} (henv : P env)
    (hrun : env.store pos name path value = .ok env') : P env' := by
  obtain ⟨v, -, hassign⟩ := Env.exists_assign_of_store hrun
  exact h.assign henv hassign

theorem Stable.enact {a : Stmt} (henv : P env) (hrun : env.enact a = .ok env') : P env' := by
  cases a with
  | let_ p name type init => exact h.declare henv hrun
  | _ =>
    obtain rfl := Except.ok.inj hrun
    exact henv

theorem Stable.change {change : Env → Except ParseError Env} (hchange : Parse.IsChange change)
    (henv : P env) (hrun : change env = .ok env') : P env' := by
  cases hchange with
  | enact a => exact h.enact henv hrun
  | store pos name path value => exact h.store henv hrun

end

/-! ## §2. Changes while reading -/

namespace Parse
open CursorM

/-- A reader keeps a property of environments, whatever comes of it. -/
def Keeps {α : Type} (P : Env → Prop) (m : ParseM α) : Prop :=
  ∀ s : State, P s.env → Ends m s (fun _ t => P t.env) fun _ t => P t.env

section
variable {P : Env → Prop} {α β : Type}

theorem keeps_pure (a : α) : Keeps P (pure a) := fun _ hs => hs

theorem keeps_throw (f : Failure) : Keeps P (throw f : ParseM α) := fun _ hs => hs

theorem Keeps.bind {m : ParseM α} {k : α → ParseM β} (hm : Keeps P m)
    (hk : ∀ a, Keeps P (k a)) : Keeps P (m >>= k) :=
  fun s hs => (hm s hs).bind fun a t ht => hk a t ht

/-- Reading tokens leaves the environment. -/
theorem lift_keeps (m : CursorM α) : Keeps P (liftM m) := by
  intro s hs
  rw [ends_lift]
  exact (ends_trivial m s.cursor).mono (fun _ _ _ => hs) fun _ _ _ => hs

theorem onCursor_keeps (m : CursorM α) : Keeps P (onCursor m) := lift_keeps m

theorem note_keeps (o : Options) (e : Event) : Keeps P (note o e) :=
  fun _ hs => ends_note fun _ => hs

theorem get_keeps : Keeps P (get : ParseM State) := fun _ hs => hs

/-- A result that is certain, or its error, changes nothing by itself. -/
theorem ends_certain_ok {r : Except Failure α} {s : State} {Q : α → State → Prop}
    {E : Failure → State → Prop} (hok : ∀ a, r = .ok a → Q a s) (herror : ∀ f, E f s) :
    Ends (certain r) s Q E := by
  cases r with
  | ok a => exact hok a rfl
  | error f => exact herror f

theorem checking_keeps (o : Options) (check : Env → Except ParseError α) :
    Keeps P (checking o check) := by
  unfold checking
  split
  · intro s hs
    rw [ends_bind, ends_get, ends_bind]
    exact ends_certain_ok (fun _ _ => hs) fun _ => hs
  · exact keeps_pure ()

theorem ok_of_orFail {r : Except ParseError α} {a : α} (h : orFail r = .ok a) : r = .ok a := by
  cases r with
  | ok b =>
    obtain rfl := Except.ok.inj h
    rfl
  | error e => cases h

section
variable {o : Options} (h : o.checked = true → Stable P)
include h

/-- Only a checked run makes changes. -/
theorem updating_keeps {change : Env → Except ParseError Env}
    (hchange : Stable P → ∀ env env', P env → change env = .ok env' → P env') :
    Keeps P (updating o change) := by
  unfold updating
  split
  · next hon =>
    intro s hs
    rw [ends_bind, ends_get, ends_bind]
    apply ends_certain_ok
    · intro env henv
      exact hchange (h hon) s.env env hs (ok_of_orFail henv)
    · exact fun _ => hs
  · exact keeps_pure ()

omit h in
theorem enter_keeps (hP : Stable P) : Keeps P (enter o) := by
  intro s hs
  unfold enter
  rw [ends_bind, ends_modify, ends_bind, ends_get]
  exact ends_note fun _ => hP.push hs

omit h in
theorem leave_keeps (hP : Stable P) : Keeps P (leave o) := by
  intro s hs
  unfold leave
  rw [ends_bind, ends_get, ends_bind]
  apply ends_certain_ok
  · intro env henv
    rw [ends_bind, ends_modify]
    exact ends_note fun _ => hP.pop hs henv
  · exact fun _ => hs

omit h in
theorem register_keeps (hP : Stable P) (f : Signature) (pos : Pos) :
    Keeps P (register o f pos) := by
  intro s hs
  unfold register
  rw [ends_bind, ends_get, ends_bind]
  apply ends_certain_ok
  · intro env henv
    rw [ends_bind, ends_modify]
    exact ends_note fun _ => hP.register hs (ok_of_orFail henv)
  · exact fun _ => hs

theorem inScope_keeps (locals : List Param) {body : ParseM α} (hbody : Keeps P body) :
    Keeps P (inScope o locals body) := by
  unfold inScope
  split
  · next hon =>
    apply (enter_keeps (h hon)).bind
    intro _
    apply (updating_keeps h fun hP _ _ henv hrun => hP.declareAll henv hrun).bind
    intro _
    exact hbody.bind fun a => (leave_keeps (h hon)).bind fun _ => keeps_pure a
  · exact hbody

theorem enactTop_keeps (a : Stmt) : Keeps P (enactTop o a) := by
  unfold enactTop
  split
  · next hon =>
    split
    · exact register_keeps (h hon) _ _
    · exact updating_keeps h fun hP _ _ henv hrun => hP.enact henv hrun
  · exact keeps_pure ()

/-! ## §3. Statements -/

/-- A reader keeps a property if all that it is made of does. -/
theorem keeps_congruence :
    StmtCongruence o o Eq (fun _ m m' => m = m') fun _ m _ => Keeps P m where
  toCongruence := congruence_of_eq keeps_pure keeps_throw Keeps.bind
  tokens := eq_tokenCongruence
  ofTokens _ := lift_keeps _
  ofCheck _ := checking_keeps o _
  ofChange hchange := updating_keeps h fun hP _ _ henv hrun => hP.change hchange henv hrun
  ofScope locals _ _ hbody := inScope_keeps h locals hbody
  ofNote := note_keeps o
  ofEnactTop := enactTop_keeps h

theorem stmt_keeps (steps : Nat) : Keeps P (stmt o steps) :=
  stmt_congr (keeps_congruence h) (Eq.refl steps)

theorem topStmts_keeps (stmtSteps steps : Nat) : Keeps P (topStmts o stmtSteps steps) :=
  topStmts_congr (keeps_congruence h) (Eq.refl stmtSteps) (Eq.refl steps)

/-! ## §4. Readers that need no count of steps -/

omit h in
theorem withSteps_keeps {read : Nat → ParseM α} (hread : ∀ steps, Keeps P (read steps)) :
    Keeps P (withSteps read) := by
  unfold withSteps
  exact get_keeps.bind fun s => hread _

theorem statement_keeps : Keeps P (statement o) := withSteps_keeps fun steps => stmt_keeps h steps

theorem statements_keeps : Keeps P (statements o) :=
  withSteps_keeps fun steps => stmtBlock_congr (keeps_congruence h) (Eq.refl steps) []

theorem program_keeps : Keeps P (program o) := by
  unfold program
  apply (withSteps_keeps fun steps => topStmts_keeps h steps steps).bind
  intro p
  exact get_keeps.bind fun s => (note_keeps o _).bind fun _ => keeps_pure p

end

theorem expression_keeps : Keeps P expression := withSteps_keeps fun _ => onCursor_keeps _

theorem typeName_keeps : Keeps P typeName := withSteps_keeps fun _ => onCursor_keeps _

end

end Parse
end Lumen
