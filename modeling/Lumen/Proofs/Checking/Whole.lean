/-
  Lumen.Proofs.Checking.Whole — whole programs, read to their end or to an error.

  If a checked run succeeds, then the walk over what it gives ends in the environment
  that the run has left.  If a check makes it stop, then what it has read is the
  beginning of a program that only lacks the ends of its blocks, and the walk over
  that program finds the same error.

  Nothing may follow a completed statement at top level, unlike in a block; so a
  program is completed by the ends of blocks alone, and the rest of the text is left
  out.

  Main statements:
    * `completedTop_cons` / `completedTop_last` — statements before the last, and the
      last;
    * `topStmts_completable` — statements at top level;
    * `statement_walks` … `program_walks` — the walk of a run that succeeds;
    * `program_completed` / `whole_completed` — the program of a run that stops.
-/
import Lumen.Proofs.Checking.Walks
import Lumen.Proofs.Reading.StmtSound

namespace Lumen.Parse
open CursorM

/-! ## §1. Statements at top level -/

/-- A walk over a program whose first statement is right. -/
theorem check_cons_of_ok {env env₁ : Env} {a : Stmt} (h : a.check env = .ok env₁) (p : Program) :
    Program.check env (a :: p)
      = orFail (env₁.enactTop a) >>= fun env => Program.check env p := by
  unfold Program.check
  rw [List.foldlM_cons, h]
  rfl

section
variable {o o' : Options}

theorem topStmts_nil (k n : Nat) {d : State} (hd : d.cursor.ahead = []) :
    Yields (topStmts o' k n) d [] [] := by
  cases n with
  | zero => exact rfl
  | succ n =>
    have htoken : d.cursor.token? = none := by
      unfold Cursor.token? Cursor.current?
      rw [hd]
      rfl
    unfold topStmts Yields
    rw [ends_looks token?_looks.lift]
    split
    · exact ⟨rfl, hd⟩
    · next t ht =>
      have hsome : d.cursor.token? = some t := ht
      rw [htoken] at hsome
      cases hsome

/-- Without checks, statements at top level are read one after another. -/
theorem topStmts_cons (hoff : o'.checked = false) (k n : Nat) {d : State} {t : Token} {a : Stmt}
    {p : Program} {mid : List Token} (ht : d.cursor.token? = some t)
    (ha : ∀ d' : State, d'.cursor = d.cursor → Yields (stmt o' k) d' a mid)
    (hp : ∀ n, ∀ d' : State, d'.cursor.ahead = mid → Yields (topStmts o' k n) d' p []) :
    Yields (topStmts o' k n) d (a :: p) [] := by
  cases n with
  | zero => exact rfl
  | succ n =>
    unfold topStmts Yields
    rw [ends_looks token?_looks.lift]
    split
    · next hnone =>
      have hnone' : d.cursor.token? = none := hnone
      rw [ht] at hnone'
      cases hnone'
    · rw [ends_bind]
      apply ends_note
      intro trace
      apply (ha ⟨d.cursor, d.env, trace⟩ rfl).bind
      intro d' hd'
      show Yields (enactTop o' a >>= fun _ => topStmts o' k n >>= fun p => pure (a :: p)) d' _ _
      -- without checks nothing takes effect between two statements
      rw [enactTop_off hoff]
      apply (hp n d' hd').bind
      exact fun d'' hd'' => ⟨rfl, hd''⟩

/-- Some of the tokens at `c` and the ends of some blocks make up a program in `F`. -/
def CompletedTop (o' : Options) (c : Cursor) (F : Program → Prop) : Prop :=
  ∃ u v r p, c.ahead = u ++ v ∧ AllEnd r ∧ F p ∧ ∀ (k n : Nat) (d : State),
    d.cursor.ahead = u ++ r → Yields (topStmts o' k n) d p []

/-- A statement was read, and the rest after it can be completed. -/
theorem completedTop_cons (hoff : o'.checked = false) {c c₁ : Cursor} {t : Token} {a : Stmt}
    {F G : Program → Prop} (ht : c.token? = some t) (hread : ∀ k, Reread 1 (stmt o' k) c a c₁)
    (h : CompletedTop o' c₁ F) (hG : ∀ p, F p → G (a :: p)) : CompletedTop o' c G := by
  obtain ⟨w, v, r, p, hahead₁, hr, hp, hyields⟩ := h
  obtain ⟨u, hlen, hahead, -⟩ := hread 0
  refine ⟨u ++ w, v, r, a :: p, ?_, hr, hG p hp, ?_⟩
  · rw [hahead, hahead₁, List.append_assoc]
  · intro k n d hd
    rw [List.append_assoc] at hd
    -- the statements after it may be cut off, but only before the end of a block
    have hmid : Alike c₁.ahead (w ++ r) := by
      rw [hahead₁]
      exact Alike.append (.inr hr.closes_self) w
    apply topStmts_cons hoff k n ((token?_of_append hlen hahead hd).trans ht)
    · intro d' hd'
      -- whatever the number of steps, the same tokens have been read
      obtain ⟨u', -, hahead', hyields'⟩ := hread k
      obtain rfl : u' = u := List.append_cancel_right (hahead'.symm.trans hahead)
      apply hyields' d' (w ++ r) _ hmid
      show d'.cursor.ahead = _
      rw [hd', hd]
    · exact fun n' d' hd' => hyields k n' d' hd'

/-- The statement that is completed is the last. -/
theorem completedTop_last (hoff : o'.checked = false) {c : Cursor} {t : Token}
    {F : Stmt → Prop} {G : Program → Prop} (ht : c.token? = some t)
    (h : Completed 1 (stmt o') c F) (hG : ∀ a, F a → G [a]) : CompletedTop o' c G := by
  obtain ⟨u, v, hlen, hahead, r, a, hr, ha, hyields⟩ := h
  refine ⟨u, v, r, [a], hahead, hr, hG a ha, ?_⟩
  intro k n d hd
  apply topStmts_cons hoff k n ((token?_of_append hlen hahead hd).trans ht)
  · intro d' hd'
    apply hyields k d' [] _ closes_nil
    rw [hd', hd, List.append_nil]
  · exact fun n' d' hd' => topStmts_nil k n' hd'

/-- A function whose name is taken has been read, and is the last statement. -/
theorem completedTop_nil (o' : Options) (c : Cursor) : CompletedTop o' c fun p => p = [] :=
  ⟨[], c.ahead, [], [], rfl, allEnd_nil, rfl, fun k n _ hd => topStmts_nil k n hd⟩

/-- Where the same tokens are left, the statements at top level end with `f`. -/
def StuckTop (o' : Options) (c : Cursor) (f : Failure) : Prop :=
  ∀ (k n : Nat) (d : State), d.cursor.ahead = c.ahead →
    Ends (topStmts o' k n) d (fun _ _ => False) fun f' _ => f' = f ∨ f' = .outOfSteps

/-- The statements at top level end as the first or the others do. -/
theorem stuckTop_of_stmt (hoff : o'.checked = false) {c : Cursor} {t : Token} {f : Failure}
    (ht : c.token? = some t)
    (h : ∀ n, Stuck
      (fun k => stmt o' k >>= fun a => topStmts o' k n >>= fun p => pure (a :: p)) c f) :
    StuckTop o' c f := by
  intro k n d hd
  cases n with
  | zero => exact .inr rfl
  | succ n =>
    have htoken : d.cursor.token? = some t := (token?_congr (congrArg List.head? hd)).trans ht
    rw [topStmts, ends_looks token?_looks.lift]
    split
    · next hnone =>
      have hnone' : d.cursor.token? = none := hnone
      rw [htoken] at hnone'
      cases hnone'
    · rw [ends_bind]
      apply ends_note
      intro trace
      simp only [enactTop_off hoff]
      exact h n k ⟨d.cursor, d.env, trace⟩ hd

theorem topStmts_completable (hoff : o'.checked = false) (hon : o.checked = true) (k n : Nat)
    (s : State) :
    Ends (topStmts o k n) s (fun p t => Program.check s.env p = .ok t.env)
      fun f _ => f.isStatic = true →
        CompletedTop o' s.cursor (fun p => Program.check s.env p = .error f)
          ∨ StuckTop o' s.cursor f := by
  induction n generalizing s with
  | zero =>
    intro h
    cases h
  | succ n ih =>
    rw [topStmts, ends_looks token?_looks.lift]
    split
    · exact rfl
    · next t ht =>
      rw [ends_bind]
      apply ends_note
      intro trace
      rw [ends_bind]
      apply (stmt_completable hoff hon k id s.env ⟨s.cursor, s.env, trace⟩ rfl).mono
      -- the statement is right, and the run goes on after it
      · rintro a t₁ ⟨hcheck, hread⟩
        rw [ends_bind]
        apply (enactTop_moves hon a t₁).mono
        · rintro _ t₂ ⟨hcursor, hmoved⟩
          have hcons : ∀ p, Program.check s.env (a :: p) = Program.check t₂.env p := by
            intro p
            have henact : orFail (t₁.env.enactTop a) = .ok t₂.env := hmoved
            rw [check_cons_of_ok hcheck, henact]
            rfl
          rw [ends_bind]
          apply (ih t₂).mono
          · intro p t₃ hrest
            exact (hcons p).trans hrest
          · intro f t₃ hhalted hf
            rw [hcursor] at hhalted
            rcases hhalted hf with hcompleted | hstuck
            · exact .inl (completedTop_cons hoff ht hread hcompleted fun p hp =>
                (hcons p).trans hp)
            · refine .inr (stuckTop_of_stmt hoff ht fun n' => .after hread ?_)
              exact Stuck.bind fun k' d hd => hstuck k' n' d hd
        -- the statement is right by itself, but its name is taken
        · intro f t₂ henact _
          refine .inl (completedTop_cons hoff ht hread (completedTop_nil o' t₁.cursor) ?_)
          rintro p rfl
          have hfails : orFail (t₁.env.enactTop a) = .error f := henact
          rw [check_cons_of_ok hcheck, hfails]
          rfl
      -- the run stops in the statement, which becomes the last
      · intro f t₁ hhalted hf
        rcases hhalted hf with hcompleted | hstuck
        · refine .inl (completedTop_last hoff ht hcompleted ?_)
          intro a hcheck
          show Program.check s.env [a] = .error f
          unfold Program.check
          rw [List.foldlM_cons, hcheck]
          rfl
        · exact .inr (stuckTop_of_stmt hoff ht fun n' => hstuck.bind)

end

/-! ## §2. Readers that need no count of steps -/

section
variable {o : Options} (hon : o.checked = true) {s t : State}
include hon

theorem statement_walks {a : Stmt} (h : statement o s = .ok a t) :
    a.check s.env = .ok t.env := by
  have hoff : ({ checked := false } : Options).checked = false := rfl
  exact ((stmt_completable hoff hon _ id s.env s rfl).of_ok h).1

theorem statements_walks {b : Block} (h : statements o s = .ok b t) :
    (checkStmts s.env.push b.stmts >>= Env.pop) = .ok t.env := by
  have hends : Ends (statements o) s (fun b t => blockWalk s.env [] b = .ok t.env)
      fun _ _ => True := by
    have hoff : ({ checked := false } : Options).checked = false := rfl
    have hbody := stmts_completable hoff hon (fun env => stmt_completable hoff hon
      (s.cursor.weight + 1) id env) (s.cursor.weight + 1) id s.env.push
    unfold statements withSteps block
    rw [ends_bind, ends_get, ends_looks blockPos_looks.lift, ends_bind]
    apply (completable_inScope hon hoff rfl hbody s rfl).mono
    · rintro ss t ⟨hwalk, -⟩
      exact hwalk
    · exact fun _ _ _ => trivial
  exact hends.of_ok h

/-- A program, as a checked run reads it or stops in it. -/
theorem program_completable {o' : Options} (hoff : o'.checked = false) (s : State) :
    Ends (program o) s (fun p t => Program.check s.env p = .ok t.env)
      fun f _ => f.isStatic = true →
        CompletedTop o' s.cursor (fun p => Program.check s.env p = .error f)
          ∨ StuckTop o' s.cursor f := by
  unfold program withSteps
  rw [ends_bind, ends_bind, ends_get]
  apply (topStmts_completable hoff hon _ _ s).weaken
  intro p t hcheck
  rw [ends_bind, ends_get, ends_bind]
  exact ends_note fun _ => hcheck

theorem program_walks {p : Program} (h : program o s = .ok p t) :
    Program.check s.env p = .ok t.env := by
  have hoff : ({ checked := false } : Options).checked = false := rfl
  exact (program_completable hon hoff s).of_ok h

/-- A checked run that stops with a static error has read the beginning of a program,
    and the walk over it stops with this error too; or an unchecked run does. -/
theorem program_completed {o' : Options} (hoff : o'.checked = false) {f : Failure}
    (h : program o s = .error f t) (hf : f.isStatic = true) :
    (∃ u v r p, s.cursor.ahead = u ++ v ∧ AllEnd r ∧ Program.check s.env p = .error f
        ∧ ∀ d : State, d.cursor.ahead = u ++ r → ∃ d', program o' d = .ok p d')
      ∨ ∀ d : State, d.cursor.ahead = s.cursor.ahead → ∃ d', program o' d = .error f d' := by
  -- there are always enough steps
  have henough : ∀ {Q : Program → State → Prop} {E : Failure → Prop} {d : State},
      Ends (program o') d Q (fun f' _ => E f' ∨ f' = .outOfSteps) →
        Ends (program o') d Q fun f' _ => E f' := by
    intro Q E d hends
    apply (hends.and (program_sound hoff d)).mono
    · exact fun p' t' h => h.1
    · rintro f' t' ⟨he | rfl, hsyntactic⟩
      · exact he
      · cases hsyntactic
  rcases (program_completable hon hoff s).of_error h hf with
    ⟨u, v, r, p, hahead, hr, hcheck, hyields⟩ | hstuck
  · refine .inl ⟨u, v, r, p, hahead, hr, hcheck, ?_⟩
    intro d hd
    have hends : Ends (program o') d (fun p' _ => p' = p)
        fun f' _ => False ∨ f' = .outOfSteps := by
      unfold program withSteps
      rw [ends_bind, ends_bind, ends_get]
      apply (Ends.mono (hyields _ _ d hd) (fun _ _ h => h) fun _ _ hsteps => .inr hsteps).weaken
      rintro p' t' ⟨rfl, -⟩
      rw [ends_bind, ends_get, ends_bind]
      exact ends_note fun _ => rfl
    obtain ⟨p', d', hrun, rfl⟩ := (henough (E := fun _ => False) hends).exists_ok
    exact ⟨d', hrun⟩
  · refine .inr ?_
    intro d hd
    have hends : Ends (program o') d (fun _ _ => False) fun f' _ => f' = f ∨ f' = .outOfSteps := by
      unfold program withSteps
      rw [ends_bind, ends_bind, ends_get]
      exact (hstuck _ _ d hd).weaken fun _ _ hfalse => hfalse.elim
    have hfails := henough (E := fun f' => f' = f) hends
    cases hrun : program o' d with
    | ok p' d' => exact (hfails.of_ok hrun).elim
    | error f' d' =>
      obtain rfl := hfails.of_error hrun
      exact ⟨d', rfl⟩

end

/-- If a checked parse stops with a static error, then up to there the text is that of a
    program where the walk finds this error, if its open blocks are closed; or an
    unchecked parse reports it too. -/
theorem whole_completed {o o' : Options} (hon : o.checked = true) (hoff : o'.checked = false)
    {tokens : List Token} {f : Failure} {s : State} (h : whole o tokens = .error f s)
    (hf : f.isStatic = true) :
    (∃ k ends p t, AllEnd ends ∧ whole o' (tokens.take k ++ ends) = .ok p t
        ∧ Program.check .empty p = .error f)
      ∨ ∃ t, whole o' tokens = .error f t := by
  rcases program_completed hon hoff h hf with
    ⟨read, left, ends, p, htokens, hends, hcheck, hreads⟩ | hstuck
  · have htake : tokens.take read.length = read := by
      have hahead : tokens = read ++ left := htokens
      rw [hahead, List.take_left]
    obtain ⟨t, hrun⟩ := hreads { cursor := .ofTokens (read ++ ends) } rfl
    exact .inl ⟨read.length, ends, p, t, hends, htake.symm ▸ hrun, hcheck⟩
  · exact .inr (hstuck { cursor := .ofTokens tokens } rfl)

end Lumen.Parse
