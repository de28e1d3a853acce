/-
  Lumen.Proofs.Session.Invariant — what a session never breaks.

  A session reads parts of a text, changes scopes and functions, and asks about
  them, in any order.  Whatever it does, there is a scope to declare in, every
  binding holds a value that fits its type, every function is found under its
  own name, and the cursor stands in the token list.  Each of the five changes
  of an environment keeps this, and reading makes no other changes.

  A change that is refused leaves the session as it was.  What is refused is
  told by the session before: a value that does not fit, a name that is not
  bound, the global scope, a function name that is taken.

  Main statements:
    * `sound_stable` — changes keep what is known of an environment;
    * `perform_sound` / `run_sound` — one step, and all steps of a session;
    * `perform_refused` — a step that is refused changes nothing;
    * `session_invariant` — both, and what exactly is refused.
-/
import Lumen.Session
import Lumen.Proofs.Scoping.Bindings
import Lumen.Proofs.Checking.Stable

namespace Lumen

/-! ## §1. Environments -/

/-- What holds of the scopes and functions at any time. -/
structure Env.Sound (env : Env) : Prop where
  /-- There is always a scope. -/
  depth : 1 ≤ env.depth
  /-- Every binding of every scope has a value of its type. -/
  fits : env.scopes.Forall fun b => b.value.misfit? b.type = none
  /-- Every function is found under its own name, and so no two have the same. -/
  named : ∀ f ∈ env.functions, env.function? f.name = some f

theorem Env.sound_empty : Env.Sound {} where
  depth := Nat.le_refl 1
  fits := ScopeStack.forall_empty
  named := List.forall_mem_nil _

theorem Env.depth_pos (env : Env) : 1 ≤ env.depth := ScopeStack.depth_pos env.scopes

/-- One more function is found under its name, and so are the others. -/
theorem Env.named_register {env : Env} (h : ∀ f ∈ env.functions, env.function? f.name = some f)
    {g : Signature} (hg : env.function? g.name = none) :
    ∀ f ∈ env.functions ++ [g],
      (env.functions ++ [g]).find? (fun other => other.name == f.name) = some f := by
  intro f hf
  rw [List.find?_append]
  obtain hf | hf := List.mem_append.mp hf
  · have hfound : env.functions.find? (fun other => other.name == f.name) = some f := h f hf
    rw [hfound]
    rfl
  · obtain rfl := List.mem_singleton.mp hf
    have hmissing : env.functions.find? (fun other => other.name == f.name) = none := hg
    rw [hmissing]
    simp

/-- Changes keep what is known of an environment. -/
theorem sound_stable : Stable Env.Sound where
  push h := ⟨Env.depth_pos _, h.fits.push, h.named⟩
  pop h hrun := by
    obtain ⟨scopes, hpop, rfl⟩ := Env.pop_eq_ok hrun
    exact ⟨Env.depth_pos _, h.fits.pop? hpop, h.named⟩
  declare h hrun := by
    obtain ⟨hfit, rfl⟩ := Env.declare_eq_ok hrun
    exact ⟨Env.depth_pos _, h.fits.define _ hfit, h.named⟩
  assign h hrun := by
    obtain ⟨b, hb, hfit, rfl⟩ := Env.assign_eq_ok hrun
    exact ⟨Env.depth_pos _, (h.fits.replaceNearest _ (b := ⟨b.type, _⟩) hfit).1, h.named⟩
  register h hrun := by
    obtain ⟨hnone, rfl⟩ := Env.register_eq_ok hrun
    exact ⟨Env.depth_pos _, h.fits, Env.named_register h.named hnone⟩

/-! ## §2. Sessions -/

namespace Session

/-- What holds of a session at any time. -/
structure Sound (s : Session) : Prop where
  env : s.state.env.Sound
  position : s.state.cursor.position ≤ s.state.cursor.tokens.length

theorem position_le (c : Cursor) : c.position ≤ c.tokens.length := by
  unfold Cursor.position Cursor.tokens
  rw [List.length_append, List.length_reverse]
  omega

theorem start_sound (tokens : List Token) (trace : Trace) : (start tokens trace).Sound :=
  ⟨Env.sound_empty, position_le _⟩

theorem read_sound {α : Type} {s : Session} (h : s.Sound) {m : ParseM α}
    (hm : Parse.Keeps Env.Sound m) (answer : α → Answer) : (s.read m answer).2.Sound := by
  unfold read
  have hends := hm s.state h.env
  cases hrun : m s.state with
  | ok a t => exact ⟨hends.of_ok hrun, position_le _⟩
  | error f t => exact ⟨hends.of_error hrun, position_le _⟩

theorem change_sound {s : Session} (h : s.Sound) {f : Env → Except Failure Env}
    (hf : ∀ env, f s.state.env = .ok env → env.Sound) : (perform.change s f).2.Sound := by
  unfold perform.change
  split
  · next env henv => exact ⟨hf env henv, h.position⟩
  · exact h

/-- Every step keeps what is known of the session. -/
theorem perform_sound (o : Options) {s : Session} (h : s.Sound) (step : Step) :
    (s.perform o step).2.Sound := by
  have hstable : o.checked = true → Stable Env.Sound := fun _ => sound_stable
  cases step with
  | program => exact read_sound h (Parse.program_keeps hstable) _
  | statement =>
    -- the session keeps the statement besides, which the environment does not see
    have hread := read_sound h (Parse.statement_keeps hstable) .statement
    simp only [perform]
    split
    · next stmt t hrun =>
      rw [hrun] at hread
      exact ⟨hread.env, hread.position⟩
    · exact hread
  | expression => exact read_sound h Parse.expression_keeps _
  | block => exact read_sound h (Parse.statements_keeps hstable) _
  | type => exact read_sound h Parse.typeName_keeps _
  | define name type value =>
    apply change_sound h
    intro env henv
    exact sound_stable.declare h.env (Parse.ok_of_orFail henv)
  | assign name value =>
    apply change_sound h
    intro env henv
    exact sound_stable.assign h.env (Parse.ok_of_orFail henv)
  | push => exact read_sound h (Parse.enter_keeps sound_stable) _
  | pop => exact read_sound h (Parse.leave_keeps sound_stable) _
  | register name params pos => exact read_sound h (Parse.register_keeps sound_stable _ _) _
  | registerLast =>
    simp only [perform]
    split
    · exact read_sound h (Parse.register_keeps sound_stable _ _) _
    · exact h
  | _ => exact h

/-- So does every session. -/
theorem run_sound (o : Options) {s : Session} (h : s.Sound) (steps : List Step) :
    ∀ outcome ∈ s.run o steps, outcome.after.Sound := by
  induction steps generalizing s with
  | nil => exact List.forall_mem_nil _
  | cons step steps ih =>
    have hstep := perform_sound o h step
    intro outcome houtcome
    rw [run_cons] at houtcome
    obtain rfl | hlater := List.mem_cons.mp houtcome
    · exact hstep
    · split at hlater
      · -- a reading that failed is the last step
        cases hlater
      · exact ih hstep outcome hlater

/-! ## §3. Refusals -/

/-- What there is to object to a step: a value that does not fit or has no binding
    to go to, the global scope, or a function name that is taken. -/
def Objects (s : Session) : Step → Prop
  | .define _ type value => value.misfit? type ≠ none
  | .assign name value =>
    s.state.env.lookup? name = none
      ∨ ∃ b, s.state.env.lookup? name = some b ∧ value.misfit? b.type ≠ none
  | .pop => s.state.env.depth = 1
  | .register name _ _ => s.state.env.function? name ≠ none
  | .registerLast =>
    ∃ pos name params body, s.last = some (.fn pos name params body)
      ∧ s.state.env.function? name ≠ none
  | _ => False

/-- A step is refused just if there is something to object to it, and then it
    changes nothing. -/
structure Refuses (s : Session) (result : Except Failure Answer × Session) (objection : Prop) :
    Prop where
  iff : result.1.isOk = false ↔ objection
  unchanged : result.1.isOk = false → result.2 = s

theorem refuses_never (s t : Session) (answer : Answer) : Refuses s (.ok answer, t) False where
  iff := by simp [Except.isOk, Except.toBool]
  unchanged h := by cases h

theorem change_refuses {s : Session} {f : Env → Except Failure Env} {objection : Prop}
    (h : Gives (f s.state.env) (fun _ => ¬ objection) fun _ => objection) :
    Refuses s (perform.change s f) objection := by
  unfold perform.change
  cases hrun : f s.state.env with
  | ok env =>
    have hnot : ¬ objection := h.of_ok hrun
    exact ⟨by simp [Except.isOk, Except.toBool, hnot], fun hfail => by cases hfail⟩
  | error e =>
    have hobj : objection := h.of_error hrun
    exact ⟨by simp [Except.isOk, Except.toBool, hobj], fun _ => rfl⟩

theorem read_refuses {α : Type} {s : Session} {m : ParseM α} {objection : Prop}
    (answer : α → Answer)
    (h : Ends m s.state (fun _ _ => ¬ objection) fun _ t => t = s.state ∧ objection) :
    Refuses s (s.read m answer) objection := by
  unfold read
  cases hrun : m s.state with
  | ok a t =>
    have hnot : ¬ objection := h.of_ok hrun
    exact ⟨by simp [Except.isOk, Except.toBool, hnot], fun hfail => by cases hfail⟩
  | error e t =>
    obtain ⟨rfl, hobj⟩ := h.of_error hrun
    exact ⟨by simp [Except.isOk, Except.toBool, hobj], fun _ => rfl⟩

theorem declare_objects (env : Env) (name : Bytes) (type : Ty) (value : Value) :
    Gives (env.declare name type value) (fun _ => ¬ value.misfit? type ≠ none)
      fun _ => value.misfit? type ≠ none := by
  unfold Env.declare
  split
  · next m hm => simp [hm]
  · next hfit => simp [hfit]

theorem assign_objects (env : Env) (name : Bytes) (value : Value) (pos : Option Pos) :
    Gives (env.assign name value pos)
      (fun _ => ¬ (env.lookup? name = none
        ∨ ∃ b, env.lookup? name = some b ∧ value.misfit? b.type ≠ none))
      fun _ => env.lookup? name = none
        ∨ ∃ b, env.lookup? name = some b ∧ value.misfit? b.type ≠ none := by
  cases hb : env.lookup? name with
  | none =>
    have hlookup : env.scopes.lookup? name = none := hb
    simp [Env.assign, ScopeStack.assign, hlookup, Except.map]
  | some b =>
    have hlookup : env.scopes.lookup? name = some b := hb
    cases hfit : value.misfit? b.type with
    | none =>
      rw [Env.assign_of_fits hb hfit]
      simp [hfit]
    | some m => simp [Env.assign, ScopeStack.assign, hlookup, hfit, Except.map]

theorem leave_objects (o : Options) (s : Parse.State) :
    Ends (Parse.leave o) s (fun _ _ => ¬ s.env.depth = 1) fun _ t => t = s ∧ s.env.depth = 1 := by
  unfold Parse.leave
  rw [ends_bind, ends_get, ends_bind]
  -- the scopes inside of the global one are what can be left
  unfold Env.pop ScopeStack.pop?
  cases hinner : s.env.scopes.inner with
  | nil =>
    refine ⟨rfl, ?_⟩
    show s.env.scopes.inner.length + 1 = 1
    rw [hinner]
    rfl
  | cons scope outer =>
    have hdepth : ¬ s.env.depth = 1 := by
      show ¬ s.env.scopes.inner.length + 1 = 1
      rw [hinner, List.length_cons]
      omega
    show Ends (modify _ >>= fun _ => Parse.note o _) s _ _
    rw [ends_bind, ends_modify]
    exact Parse.ends_note fun _ => hdepth

theorem enter_objects (o : Options) (s : Parse.State) :
    Ends (Parse.enter o) s (fun _ _ => ¬ False) fun _ t => t = s ∧ False := by
  unfold Parse.enter
  rw [ends_bind, ends_modify, ends_bind, ends_get]
  exact Parse.ends_note fun _ => id

theorem register_objects (o : Options) (s : Parse.State) (f : Signature) (pos : Pos) :
    Ends (Parse.register o f pos) s (fun _ _ => ¬ s.env.function? f.name ≠ none)
      fun _ t => t = s ∧ s.env.function? f.name ≠ none := by
  unfold Parse.register
  rw [ends_bind, ends_get, ends_bind]
  unfold Env.register
  cases hfound : s.env.function? f.name with
  | some g => exact ⟨rfl, by simp⟩
  | none =>
    show Ends (modify _ >>= fun _ => Parse.note o _) s _ _
    rw [ends_bind, ends_modify]
    exact Parse.ends_note fun _ => by simp

/-- A step that does not read is refused just if there is something to object to
    it, and then it changes nothing. -/
theorem perform_refused (o : Options) (s : Session) {step : Step} (h : step.reads = false) :
    Refuses s (s.perform o step) (s.Objects step) := by
  cases step with
  | program | statement | expression | block | type => cases h
  | define name type value =>
    show Refuses s (perform.change s fun env => orFail (env.declare name type value))
      (value.misfit? type ≠ none)
    apply change_refuses
    exact gives_orFail.mpr (declare_objects _ name type value)
  | assign name value =>
    show Refuses s (perform.change s fun env => orFail (env.assign name value none))
      (s.state.env.lookup? name = none
        ∨ ∃ b, s.state.env.lookup? name = some b ∧ value.misfit? b.type ≠ none)
    apply change_refuses
    exact gives_orFail.mpr (assign_objects _ name value none)
  | push => exact read_refuses _ (enter_objects o s.state)
  | pop => exact read_refuses _ (leave_objects o s.state)
  | register name params pos => exact read_refuses _ (register_objects o s.state _ pos)
  | registerLast =>
    simp only [perform, Objects]
    split
    · next pos name params body hlast =>
      -- the name of the function that was read last may be taken
      have hrefuses := read_refuses (fun _ => Answer.none)
        (register_objects o s.state ⟨name, params, some body⟩ pos)
      refine ⟨hrefuses.iff.trans ?_, hrefuses.unchanged⟩
      constructor
      · exact fun htaken => ⟨pos, name, params, body, hlast, htaken⟩
      · rintro ⟨pos', name', params', body', hlast', htaken⟩
        rw [hlast] at hlast'
        cases hlast'
        exact htaken
    · next hnot =>
      -- no function was read last, so there is nothing to register
      refine ⟨⟨fun hfail => (by cases hfail), ?_⟩, fun hfail => (by cases hfail)⟩
      rintro ⟨pos, name, params, body, hlast, -⟩
      exact absurd hlast (hnot pos name params body)
  | _ => exact refuses_never s s _

/-! ## §4. The invariant -/

/-- **What a session never breaks.**  At the start of any token list, and after any
    steps, checked or not, there is a scope, every binding of every scope has a
    value of its type, every function is found under its own name, and the cursor
    stands in the token list.  A step that does not read fails just if there is
    something to object to it, and it leaves the whole session as it was: scopes,
    functions, tokens and cursor. -/
theorem session_invariant (o : Options) (tokens : List Token) (trace : Trace) :
    (start tokens trace).Sound
      ∧ (∀ steps, ∀ outcome ∈ (start tokens trace).run o steps, outcome.after.Sound)
      ∧ ∀ (s : Session) (step : Step), step.reads = false →
          ((s.perform o step).1.isOk = false ↔ s.Objects step)
            ∧ ((s.perform o step).1.isOk = false → (s.perform o step).2 = s) := by
  have hstart := start_sound tokens trace
  refine ⟨hstart, fun steps => run_sound o hstart steps, ?_⟩
  intro s step hstep
  have hrefuses := perform_refused o s hstep
  exact ⟨hrefuses.iff, hrefuses.unchanged⟩

/-- Before `let x: int = 1` and `x = 2`: a scope is entered and both statements are read as
    a program, but a truth value is refused for `x`, and the second of two ends of a scope.
    At the start the end of a scope is refused as well, and that changes nothing. -/
theorem session_invariant_assign :
    let s : Session := start [⟨.word .let_, {}⟩, ⟨.ident [120], {}⟩, ⟨.mark .colon, {}⟩,
      ⟨.word .int, {}⟩, ⟨.mark .equal, {}⟩, ⟨.literal (.int 1), {}⟩, ⟨.ident [120], {}⟩,
      ⟨.mark .equal, {}⟩, ⟨.literal (.int 2), {}⟩, ⟨.eof, {}⟩]
    let outcomes := s.run { checked := true }
      [.push, .program, .assign [120] (.scalar (.bool true)), .pop, .pop]
    outcomes.map (fun outcome => outcome.answer.isOk) = [true, true, false, true, false]
      ∧ (∀ outcome ∈ outcomes, outcome.after.Sound)
      ∧ ((start []).perform { checked := true } .pop).2 = start [] := by
  intro s outcomes
  refine ⟨by decide +kernel, ?_, ?_⟩
  · exact (session_invariant { checked := true } _ #[]).2.1 _
  · exact ((session_invariant { checked := true } [] #[]).2.2 (start []) .pop rfl).2 rfl

end Session
end Lumen
