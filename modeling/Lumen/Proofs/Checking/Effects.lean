/-
  Lumen.Proofs.Checking.Effects — what a checked parse does to its environment.

  A checked reader that gives something has walked over it, and so it has done
  just what the walk does.  A statement or a block leaves all scopes and functions
  as they were, but for the values it assigns; a program adds what its top level
  declares, and nothing that is declared inside a block.

  Main statements:
    * `reading_frames` — every reader leaves the scopes it finds;
    * `program_atEnd` — a program is read to its end;
    * `symbols_exact` — the symbols at the end are the declarations at top level.
-/
import Lumen.Proofs.Checking.Whole
import Lumen.Proofs.Checking.Inline
import Lumen.Proofs.Reading.StmtDrawn
import Lumen.Proofs.Scoping.TopLevel

namespace Lumen.Parse
open CursorM

/-! ## §1. Statements, blocks and programs in any environment -/

theorem checkBlock_frames {env env' : Env} {ss : List Stmt}
    (h : (checkStmts env.push ss >>= Env.pop) = .ok env') : Frames (usesIn [] [] ss) env env' := by
  have hresolves : Resolves env (usesIn [] [] ss) (checkStmts env.push ss >>= Env.pop) :=
    checkBlock_resolves (fun s _ => s.check_resolves) env []
  exact (hresolves.of_ok h).1

/-- Reading tokens leaves the environment, whether it succeeds or fails. -/
theorem withSteps_onCursor_env {α : Type} (read : Nat → CursorM α) (s : State) :
    Ends (withSteps fun steps => onCursor (read steps)) s (fun _ t => t.env = s.env)
      fun _ t => t.env = s.env := by
  unfold withSteps
  rw [ends_bind, ends_get, ends_onCursor]
  exact (ends_trivial _ _).mono (fun _ _ _ => rfl) fun _ _ _ => rfl

/-- A checked parser in any state leaves its scopes and functions.  A statement and
    a block change no more than values, and those by assignments that resolve to
    them; an expression and a type change nothing.  A program adds to the
    innermost scope and to the functions. -/
theorem reading_frames (trace : Bool) (s : State) :
    (∀ a t, statement { checked := true, trace } s = .ok a t → Frames a.uses s.env t.env)
      ∧ (∀ b t, statements { checked := true, trace } s = .ok b t →
        Frames (usesIn [] [] b.stmts) s.env t.env)
      ∧ Ends expression s (fun _ t => t.env = s.env) (fun _ t => t.env = s.env)
      ∧ Ends typeName s (fun _ t => t.env = s.env) (fun _ t => t.env = s.env)
      ∧ ∀ p t, program { checked := true, trace } s = .ok p t → Grows p s.env t.env := by
  refine ⟨?_, ?_, withSteps_onCursor_env expr s, withSteps_onCursor_env type s, ?_⟩
  · intro a t h
    exact ((a.check_resolves s.env).of_ok (statement_walks rfl h)).1
  · intro b t h
    exact checkBlock_frames (statements_walks rfl h)
  · intro p t h
    exact ((Program.check_grows s.env p).of_ok (program_walks rfl h)).1

/-- A parser in an open scope, before `x = 2`; outside of the scope `x` is an
    integer. -/
def storing : State where
  cursor := .ofTokens [⟨.ident [120], {}⟩, ⟨.mark .equal, {}⟩, ⟨.literal (.int 2), {}⟩]
  env := { scopes := { inner := [[]], global := [([120], ⟨.int, .unknown⟩)] } }

/-- The assignment is read as a statement, as a block and as a program, and each time
    the scopes are left. -/
theorem reading_frames_store :
    (∃ a t, statement { checked := true, trace := false } storing = .ok a t
        ∧ Frames a.uses storing.env t.env)
      ∧ (∃ b t, statements { checked := true, trace := false } storing = .ok b t
        ∧ Frames (usesIn [] [] b.stmts) storing.env t.env)
      ∧ ∃ p t, program { checked := true, trace := false } storing = .ok p t
        ∧ Grows p storing.env t.env := by
  obtain ⟨hstatement, hblock, -, -, hprogram⟩ := reading_frames false storing
  obtain ⟨a, t, ha⟩ : ∃ a t, statement { checked := true, trace := false } storing = .ok a t :=
    Ends.gives (by decide +kernel)
  obtain ⟨b, u, hb⟩ : ∃ b u, statements { checked := true, trace := false } storing = .ok b u :=
    Ends.gives (by decide +kernel)
  obtain ⟨p, v, hp⟩ : ∃ p v, program { checked := true, trace := false } storing = .ok p v :=
    Ends.gives (by decide +kernel)
  exact ⟨⟨a, t, ha, hstatement a t ha⟩, ⟨b, u, hb, hblock b u hb⟩, p, v, hp, hprogram p v hp⟩

/-! ## §2. The symbols of a source text -/

/-- A program goes on to the end of what is left to read. -/
theorem program_atEnd (o : Options) (s : State) :
    Ends (program o) s (fun _ t => t.cursor.token? = none) fun _ _ => True := by
  -- the loop ends where there is no token, whatever the statements before have done
  have htop : ∀ n steps s, Ends (topStmts o n steps) s (fun _ t => t.cursor.token? = none)
      fun _ _ => True := by
    intro n steps
    induction steps with
    | zero => exact fun _ => trivial
    | succ steps ih =>
      intro s
      unfold topStmts
      rw [ends_bind, ends_lift, ends_token?]
      split
      · next ht => exact ht
      · rw [ends_bind]
        apply ends_note
        intro trace
        apply (ends_trivial _ _).bind
        intro a t _
        apply (ends_trivial _ _).bind
        intro _ u _
        exact (ih u).bind fun _ _ ht => ht
  unfold program withSteps
  rw [ends_bind, ends_bind, ends_get]
  apply (htop _ _ s).mono
  · intro p t ht
    rw [ends_bind, ends_get, ends_bind]
    exact ends_note fun _ => ht
  · exact fun _ _ _ => trivial

/-- What is at the cursor when nothing is left to read, if there is an end token. -/
theorem isEof_of_token?_eq_none {c : Cursor} (h : ∃ t ∈ c.ahead, t.isEof = true)
    (hnone : c.token? = none) : ∃ t, c.current? = some t ∧ t.isEof = true := by
  obtain ⟨before, ahead⟩ := c
  cases ahead with
  | nil =>
    obtain ⟨t, ht, -⟩ := h
    cases ht
  | cons first rest =>
    refine ⟨first, rfl, ?_⟩
    have hnot := Option.filter_eq_none_iff.mp hnone first rfl
    simpa using hnot

/-- When a source text has been read and checked, no scope is open but the global
    one, and the end has been reached.  The global scope has the names of the
    `let`s at top level, each with the type of the last one, and no other.  The
    functions are those at top level, in order and with different names, and each
    is found by its name. -/
theorem symbols_exact (source : Bytes) (trace : Bool) (tokens : List Token) (p : Program)
    (s : State) (htokens : tokenize source = .ok tokens)
    (hrun : whole { checked := true, trace } tokens = .ok p s) :
    s.env.depth = 1
      ∧ (∃ t, s.cursor.current? = some t ∧ t.isEof = true)
      ∧ (∀ name, (s.env.scopes.global.find? name).map Binding.type = p.lastLet? name)
      ∧ s.env.functions = p.filterMap Stmt.signature?
      ∧ (s.env.functions.map Signature.name).Nodup
      ∧ ∀ f ∈ p.filterMap Stmt.signature?, s.env.function? f.name = some f := by
  have hgrows : Grows p .empty s.env :=
    ((Program.check_grows .empty p).of_ok (program_walks rfl hrun)).1
  have hdepth : s.env.scopes.inner = [] := by
    have hlen : s.env.scopes.inner.length + 1 = 1 := hgrows.depth_eq
    exact List.eq_nil_of_length_eq_zero (Nat.succ.inj hlen)
  -- the end token is never read, so it is still there when nothing else is left
  have hstart := (tokenize_placed source).of_ok htokens
  have hend := (program_blamed supplies_placed _ _ hstart).of_ok hrun
  have hnodup := hgrows.functions_nodup List.nodup_nil
  refine ⟨hgrows.depth_eq, isEof_of_token?_eq_none hend.2.1 ((program_atEnd _ _).of_ok hrun), ?_,
    hgrows.functions_eq, hnodup, ?_⟩
  · intro name
    have htypes := hgrows.inner_types_eq name
    have hglobal : s.env.scopes.binding? 0 name = s.env.scopes.global.find? name := by
      unfold ScopeStack.binding? ScopeStack.scopes
      rw [hdepth]
      rfl
    rw [hglobal] at htypes
    rw [htypes]
    exact Option.or_none
  · intro f hf
    have hmem : f ∈ s.env.functions := hgrows.functions_eq.symm ▸ hf
    exact function?_of_mem hnodup hmem

/-- A variable and a function, and in the function another variable. -/
def twoSymbols : Bytes := ascii "let x: int = 1 fn f(y: int) let z: int = y end"

/-- After it the variable at top level is there with its type, and so is the function with
    its parameter.  The variable in the function is not. -/
theorem symbols_exact_two :
    ∃ tokens p s, tokenize twoSymbols = .ok tokens
      ∧ whole { checked := true, trace := false } tokens = .ok p s
      ∧ s.env.depth = 1
      ∧ (∀ name, (s.env.scopes.global.find? name).map Binding.type = p.lastLet? name)
      ∧ s.env.functions = p.filterMap Stmt.signature?
      ∧ (s.env.scopes.global.find? (ascii "x")).map Binding.type = some .int
      ∧ s.env.scopes.global.find? (ascii "z") = none
      ∧ ∃ f, s.env.function? (ascii "f") = some f ∧ f.params = [⟨ascii "y", .int⟩] := by
  -- what the text declares at top level is seen in the tree
  obtain ⟨tokens, htokens, hends⟩ : ∃ tokens, tokenize twoSymbols = .ok tokens
      ∧ Ends (program { checked := true, trace := false }) { cursor := .ofTokens tokens }
        (fun p _ => p.lastLet? (ascii "x") = some .int ∧ p.lastLet? (ascii "z") = none
          ∧ ∃ f ∈ p.filterMap Stmt.signature?, f.name = ascii "f"
            ∧ f.params = [⟨ascii "y", .int⟩])
        fun _ _ => False :=
    Gives.exists_ok (by decide +kernel)
  obtain ⟨p, s, hrun, hx, hz, f, hmem, hname, hparams⟩ := hends.exists_ok
  obtain ⟨hdepth, -, htypes, hfunctions, -, hfound⟩ :=
    symbols_exact twoSymbols false tokens p s htokens hrun
  have hnone : s.env.scopes.global.find? (ascii "z") = none :=
    Option.map_eq_none_iff.mp ((htypes _).trans hz)
  exact ⟨tokens, p, s, htokens, hrun, hdepth, htypes, hfunctions, (htypes _).trans hx, hnone,
    f, hname ▸ hfound f hmem, hparams⟩

end Lumen.Parse
