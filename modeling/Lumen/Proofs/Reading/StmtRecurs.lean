/-
  Lumen.Proofs.Reading.StmtRecurs — statements, in front of something else.

  A statement with a block ends with `end`, and the others end with an expression or with
  a word.  So all of them are read again in front of whatever may come next.  The checks
  between, and what takes effect of them, know nothing of the tokens.

  A program is read statement by statement.  What has been read of it up to some place is
  read again in front of other tokens, and the reader goes on from there.

  Main statements:
    * `Aside.recurs`, `Recurs.lift` — what statements are made of;
    * `stmt_recurs` — statements;
    * `firstStmts`, `firstStmts_recurs` — the statements of a program up to some place;
    * `topStmts_after`, `topStmts_run` — what a run over a program comes to, in these terms;
    * `steps_of_program`, `program_of_steps` — programs without a count of steps;
    * `program_again` — a program in front of something else;
    * `spells_of_program` — what is read as a program is the text of one.
-/
import Lumen.Proofs.Reading.StmtLocal
import Lumen.Proofs.Reading.Recurs

namespace Lumen

namespace Parse
open CursorM

/-! ## §1. What statements are made of -/

section
variable {α : Type}

/-- A reader of tokens among readers of statements. -/
theorem Recurs.lift {k : Nat} {m : CursorM α} (h : Recurs k m) :
    Recurs k (liftM m : ParseM α) := by
  intro s
  rw [RecursAt, ends_lift]
  apply Ends.weaken (h s.cursor)
  rintro a c ⟨u, hlen, hs, hbefore, hagain⟩
  exact ⟨u, hlen, hs, hbefore, fun next hnext =>
    onCursor_ok (hagain next ⟨hnext.resumes, hnext.closes⟩)⟩

/-- What has nothing to do with the tokens does the same before any. -/
theorem Aside.recurs {m : ParseM α} (h : Aside m) : Recurs 0 m := by
  rintro ⟨c, env, trace⟩
  obtain ⟨a, env₁, trace₁, hm⟩ | ⟨f, env₁, trace₁, -, hm⟩ := h env trace
  · exact (ends_ok (hm c)).mpr (recur_resting rfl fun next => hm _)
  · exact (ends_error (hm c)).mpr trivial

/-- A sequence that ends with something that has nothing to do with the tokens. -/
theorem Recurs.aside {β : Type} {k : Nat} {m : ParseM α} {f : α → ParseM β} (hlocal : Local m m)
    (hm : Recurs k m) (hf : ∀ a, Aside (f a)) : Recurs k (m >>= f) :=
  Recurs.bind hlocal hm fun a => (hf a).recurs

end

/-! ## §2. Statements -/

section
variable (o : Options) (n : Nat)

theorem letStmt_recurs : Recurs 1 (letStmt o n) := by
  unfold letStmt
  apply Recurs.after advance_local.lift
  intro t
  apply Recurs.after (identifier_congr tokens_local Expected.noConfusion).lift
  intro name
  apply Recurs.after (mark_congr tokens_local Mark.noConfusion).lift
  intro _
  apply Recurs.after (type_local (Nat.le_refl n)).lift
  intro ty
  apply Recurs.after (mark_congr tokens_local Mark.noConfusion).lift
  intro _
  apply Recurs.aside (expr_local (Nat.le_refl n)).lift (expr_recurs n).lift
  intro init
  exact (checking_aside o fun env => checkType_apart env init ty name).bind fun _ => aside_pure _

theorem printStmt_recurs : Recurs 1 (printStmt o n) := by
  unfold printStmt
  apply Recurs.after advance_local.lift
  intro t
  apply Recurs.aside (expr_local (Nat.le_refl n)).lift (expr_recurs n).lift
  intro value
  exact (checking_aside o fun env => infer_apart env value).bind fun _ => aside_pure _

/-- A statement that ends with a word. -/
theorem worded_recurs {α : Type} (w : Word) (a : α) :
    Recurs 1 (do word w; return a : ParseM α) :=
  Recurs.aside (word_congr tokens_local w).lift (word_recurs w).lift fun _ => aside_pure a

section
variable {stmt : ParseM Stmt} (hstmt : Local stmt stmt)
include hstmt

theorem ifStmt_recurs : Recurs 1 (ifStmt o stmt n) := by
  have hle := Nat.le_refl n
  unfold ifStmt
  apply Recurs.after advance_local.lift
  intro t
  apply Recurs.after (expr_local hle).lift
  intro cond
  apply Recurs.after (checking_aside o fun env => checkTruth_apart env cond).isLocal
  intro _
  apply Recurs.after (block_congr (stmts_local o) hle hstmt [])
  intro then_
  apply Recurs.after (elseBlock_congr (stmts_local o) hle hstmt)
  intro else_
  exact worded_recurs .end_ _

theorem whileStmt_recurs : Recurs 1 (whileStmt o stmt n) := by
  have hle := Nat.le_refl n
  unfold whileStmt
  apply Recurs.after advance_local.lift
  intro t
  apply Recurs.after (expr_local hle).lift
  intro cond
  apply Recurs.after (checking_aside o fun env => checkTruth_apart env cond).isLocal
  intro _
  apply Recurs.after (block_congr (stmts_local o) hle hstmt [])
  intro body
  exact worded_recurs .end_ _

theorem forStmt_recurs : Recurs 1 (forStmt o stmt n) := by
  have hle := Nat.le_refl n
  unfold forStmt
  apply Recurs.after advance_local.lift
  intro t
  apply Recurs.after (identifier_congr tokens_local Expected.noConfusion).lift
  intro var
  apply Recurs.after (mark_congr tokens_local Mark.noConfusion).lift
  intro _
  apply Recurs.after (loopType_congr tokens_local hle var).lift
  intro _
  apply Recurs.after (mark_congr tokens_local Mark.noConfusion).lift
  intro _
  apply Recurs.after (expr_local hle).lift
  intro start
  apply Recurs.after (mark_congr tokens_local Mark.noConfusion).lift
  intro _
  apply Recurs.after (expr_local hle).lift
  intro stop
  apply Recurs.after (checking_aside o fun env => checkBounds_apart env var start stop).isLocal
  intro _
  apply Recurs.after (block_congr (stmts_local o) hle hstmt _)
  intro body
  exact worded_recurs .end_ _

theorem fnStmt_recurs : Recurs 1 (fnStmt o stmt n) := by
  have hle := Nat.le_refl n
  unfold fnStmt
  apply Recurs.after advance_local.lift
  intro t
  apply Recurs.after (identifier_congr tokens_local Expected.noConfusion).lift
  intro name
  apply Recurs.after (params_congr tokens_local hle).lift
  intro ps
  apply Recurs.after (block_congr (stmts_local o) hle hstmt ps)
  intro body
  exact worded_recurs .end_ _

end

theorem nameStmt_recurs (name : Bytes) : Recurs 1 (nameStmt o n name) := by
  have hle := Nat.le_refl n
  unfold nameStmt
  apply Recurs.bind advance_local.lift advance_recurs.lift
  intro t
  apply Recurs.bind (named_congr tokens_local (expr_local hle) hle t.pos name).lift
    (named_recurs (expr_local hle) n t.pos name).lift
  intro target
  -- a `=` may follow, or an expression ends here
  refine recurs_optional (isAt_looks _).lift (isAt_calm rfl rfl) ?_ ?_
  · exact ((checking_aside o fun env => infer_apart env target).bind fun _ => aside_pure _).recurs
  · intro isStore hstore
    cases isStore with
    | false => exact absurd rfl hstore
    | true =>
      simp only [reduceIte]
      split
      · apply Recurs.after (mark_congr tokens_local Mark.noConfusion).lift
        intro _
        apply Recurs.aside (expr_local hle).lift (expr_recurs n).lift
        intro value
        exact (updating_aside o fun env => store_apart env _ _ _ value).bind fun _ => aside_pure _
      · exact (unexpected_recurs _ _).lift

/-- Where a block ends, `return` has no value. -/
theorem endsReturn_of_closes {c : Cursor} (h : closes c.lexemes = true) :
    endsReturn c.token? = true := by
  have hends : Ends blockEnds c (fun ends _ => ends = closes c.lexemes) fun _ _ => False :=
    ends_blockEnds.mpr rfl
  have hblock : endsBlock c.token? = true := (hends.of_ok (blockEnds_looks c)).trans h
  rw [endsReturn, hblock, Bool.true_or]

/-- A `return` without a value is read again in front of what ends a block, and one with a
    value is an expression after a word. -/
theorem returnStmt_recursAt {s : State} {t : Token} (ht : s.cursor.token? = some t)
    (hreturn : t.lexeme = .word .return_) : RecursAt 1 (returnStmt o n) s := by
  have hrun : (liftM advance : ParseM Token) s = .ok t { s with cursor := s.cursor.past t } :=
    onCursor_ok (advance_of_some ht)
  have hlast : lastRead? { s with cursor := s.cursor.past t } = some (.word .return_) :=
    congrArg some hreturn
  have hread := Ends.of_ok (advance_recurs.lift s) hrun
  have hreads := (advance_local.lift.reads s).of_ok hrun
  rw [← returnStmt_eq, RecursAt, ends_bind, ends_ok hrun]
  refine Ends.weaken ?_ fun a t' => hread.bind hreads
  rw [ends_looks returnEnds_looks.lift]
  -- whether a value follows is told by the token after the word
  cases hends : endsReturn (s.cursor.past t).token? with
  | true =>
    refine ⟨[], Nat.le_refl 0, rfl, fun _ => rfl, fun next hnext => ?_⟩
    rw [looks_bind returnEnds_looks.lift, endsReturn_of_closes]
    · rfl
    · exact hnext.closes hlast
  | false =>
    have hvalue : Recurs 1 (do
        let value ← expr n
        checking o (infer · value)
        return .return_ t.pos (some value) : ParseM Stmt) :=
      Recurs.aside (expr_local (Nat.le_refl n)).lift (expr_recurs n).lift fun value =>
        (checking_aside o fun env => infer_apart env value).bind fun _ => aside_pure _
    apply Ends.weaken (hvalue { s with cursor := s.cursor.past t })
    intro a t' hrest
    apply (Recur.peek (k := 0) returnEnds_looks.lift ?_).weaken (Nat.zero_le 1)
    have hsame : endsReturn (HasCursor.cursor ({ s with cursor := s.cursor.past t } : State)).token?
        = false := hends
    rw [hsame]
    exact hrest

theorem bareStmt_recurs {stmt : ParseM Stmt} (hstmt : Local stmt stmt) :
    Recurs 1 (bareStmt o stmt n) := by
  intro s
  apply RecursAt.peek token?_looks.lift
  cases ht : s.cursor.token? with
  | none => exact (unexpected_recurs _ _).lift s
  | some t =>
    simp only [id]
    split
    · exact letStmt_recurs o n s
    · exact printStmt_recurs o n s
    · exact ifStmt_recurs o n hstmt s
    · exact whileStmt_recurs o n hstmt s
    · exact forStmt_recurs o n hstmt s
    · exact fnStmt_recurs o n hstmt s
    · next hreturn => exact returnStmt_recursAt o n ht hreturn
    · exact nameStmt_recurs o n _ s
    · exact recurs_throw _ _ s
    · exact recurs_throw _ _ s
    · exact recurs_throw _ _ s

/-- Statements: the semicolon is read if it is there, and no other token that may come next
    is one. -/
theorem stmt_recurs : Recurs 1 (stmt o n) := by
  cases n with
  | zero => exact recurs_throw _ _
  | succ n =>
    rw [stmt_succ]
    have hlocal := stmt_local o (Nat.le_refl n)
    apply Recurs.bind (bareStmt_congr (stmts_local o) (Nat.le_refl (n + 1)) hlocal)
      (bareStmt_recurs o (n + 1) hlocal)
    intro a
    exact Recurs.aside (accept_congr tokens_local _).lift (accept_recurs rfl rfl).lift
      fun _ => aside_pure a

end

/-! ## §3. Programs -/

section
variable (o : Options) (n : Nat)

/-- Reads one statement of a program, and lets it take effect. -/
def topStmt : ParseM Stmt := do
  match ← token? with
  | none => unexpected .statement
  | some t =>
    note o (.statement t.pos.line t.lexeme)
    let a ← stmt o n
    enactTop o a
    return a

/-- Reads as many statements of a program. -/
def firstStmts : (count : Nat) → ParseM Program
  | 0 => return []
  | count + 1 => do
    let a ← topStmt o n
    return a :: (← firstStmts count)

theorem topStmt_local : Local (topStmt o n) (topStmt o n) := by
  unfold topStmt
  apply (local_looks token?_looks).lift.bind
  intro t?
  split
  · exact (unexpected_local Expected.noConfusion).lift
  · apply (note_aside o _).isLocal.bind
    intro _
    apply (stmt_local o (Nat.le_refl n)).bind
    intro a
    exact (enactTop_aside o a).isLocal.bind fun _ => local_pure a

theorem firstStmts_local (count : Nat) : Local (firstStmts o n count) (firstStmts o n count) := by
  induction count with
  | zero => exact local_pure []
  | succ count ih =>
    apply (topStmt_local o n).bind
    exact fun a => ih.bind fun p => local_pure (a :: p)

theorem topStmt_recurs : Recurs 1 (topStmt o n) := by
  unfold topStmt
  apply recurs_peek token?_looks.lift
  intro t?
  split
  · exact (unexpected_recurs _ _).lift
  · apply Recurs.after (note_aside o _).isLocal
    intro _
    apply Recurs.aside (stmt_local o (Nat.le_refl n)) (stmt_recurs o n)
    exact fun a => (enactTop_aside o a).bind fun _ => aside_pure a

/-- Statements that have been read are read again in front of whatever may come next. -/
theorem firstStmts_recurs (count : Nat) : Recurs 0 (firstStmts o n count) := by
  induction count with
  | zero => exact recurs_pure []
  | succ count ih =>
    apply Recurs.forget (k := 1)
    apply Recurs.bind (topStmt_local o n) (topStmt_recurs o n)
    exact fun a => Recurs.aside (firstStmts_local o n count) ih fun p => aside_pure _

variable {s t : State}

theorem topStmts_of_none (hs : s.cursor.token? = none) (k : Nat) :
    topStmts o n (k + 1) s = .ok [] s := by
  have hlook : (HasCursor.cursor s).token? = none := hs
  unfold topStmts
  rw [looks_bind token?_looks.lift, id, hlook]
  rfl

theorem topStmts_of_some {x : Token} (hs : s.cursor.token? = some x) (k : Nat) :
    topStmts o n (k + 1) s
      = (do let a ← topStmt o n; return a :: (← topStmts o n k) : ParseM Program) s := by
  have hlook : (HasCursor.cursor s).token? = some x := hs
  rw [topStmts, topStmt, bind_assoc, looks_bind token?_looks.lift,
    looks_bind token?_looks.lift, id, hlook]
  simp only [bind_assoc, pure_bind]

/-- A statement is read only where there is a token. -/
theorem exists_token_of_topStmt {a : Stmt} (h : topStmt o n s = .ok a t) :
    ∃ x, s.cursor.token? = some x := by
  cases hs : s.cursor.token? with
  | some x => exact ⟨x, rfl⟩
  | none =>
    have hlook : (HasCursor.cursor s).token? = none := hs
    unfold topStmt at h
    rw [looks_bind token?_looks.lift, id, hlook] at h
    cases h

/-- The statements of a program are those that are read first, and then the rest. -/
theorem topStmts_after (count : Nat) (s : State) :
    Ends (firstStmts o n count) s (fun p t => ∀ k, topStmts o n (count + k) s
        = (do return p ++ (← topStmts o n k) : ParseM Program) t)
      fun _ _ => True := by
  induction count generalizing s with
  | zero =>
    intro k
    rw [Nat.zero_add]
    exact (congrFun (bind_pure (topStmts o n k)) s).symm
  | succ count ih =>
    rw [firstStmts, ends_bind]
    cases hrun : topStmt o n s with
    | error f s₁ => exact (ends_error hrun).mpr trivial
    | ok a s₁ =>
      obtain ⟨x, hx⟩ := exists_token_of_topStmt o n hrun
      rw [ends_ok hrun, ends_bind]
      apply (ih s₁).weaken
      intro p t hafter k
      have hrest := hafter k
      rw [Nat.succ_add, topStmts_of_some o n hx, bind_of_ok hrun]
      -- the rest is run once on either side
      cases hlast : topStmts o n k t with
      | error f t' =>
        rw [bind_of_error hlast] at hrest
        rw [bind_of_error hrest, bind_of_error hlast]
      | ok q t' =>
        rw [bind_of_ok hlast] at hrest
        rw [bind_of_ok hrest, bind_of_ok hlast]
        rfl

/-- What a run over a program comes to: it reads statements until there is no token, or it
    fails in the one after them. -/
theorem topStmts_run (k : Nat) (s : State) :
    Ends (topStmts o n k) s
      (fun p t => p.length < k ∧ firstStmts o n p.length s = .ok p t ∧ t.cursor.token? = none)
      fun f t => f = .outOfSteps ∨ ∃ count p t', count < k ∧ firstStmts o n count s = .ok p t'
        ∧ topStmt o n t' = .error f t := by
  induction k generalizing s with
  | zero => exact .inl rfl
  | succ k ih =>
    cases hs : s.cursor.token? with
    | none =>
      rw [ends_ok (topStmts_of_none o n hs k)]
      exact ⟨Nat.succ_pos k, rfl, hs⟩
    | some x =>
      rw [Ends, topStmts_of_some o n hs k, ← Ends, ends_bind]
      cases hrun : topStmt o n s with
      | error f t =>
        rw [ends_error hrun]
        exact .inr ⟨0, [], s, Nat.succ_pos k, rfl, hrun⟩
      | ok a s₁ =>
        rw [ends_ok hrun, ends_bind]
        apply (ih s₁).mono
        · -- the first statement counts as one of those that are read first
          rintro p t ⟨hlen, hfirst, hnone⟩
          refine ⟨Nat.succ_lt_succ hlen, ?_, hnone⟩
          show (topStmt o n >>= _) s = _
          rw [bind_of_ok hrun, bind_of_ok hfirst]
          rfl
        · rintro f t (hout | ⟨count, p, t', hlen, hfirst, hfail⟩)
          · exact .inl hout
          · refine .inr ⟨count + 1, a :: p, t', Nat.succ_lt_succ hlen, ?_, hfail⟩
            show (topStmt o n >>= _) s = _
            rw [bind_of_ok hrun, bind_of_ok hfirst]
            rfl

/-- A note changes nothing but what is noted down. -/
theorem note_ok (e : Event) (s : State) : ∃ trace, note o e s = .ok () { s with trace } := by
  unfold note
  split
  · exact ⟨_, rfl⟩
  · exact ⟨s.trace, rfl⟩

section
variable {n} (hn : s.cursor.weight < n)
include hn

/-- With steps enough, a program is its statements, and a note of them. -/
theorem program_steps :
    Ends (topStmts o n n) s (fun p t => ∃ trace, program o s = .ok p { t with trace })
      fun f t => program o s = .error f t := by
  have hread : withSteps (fun n => topStmts o n n) s = topStmts o n n s :=
    withSteps_eq (fun s n => topStmts_hasSteps o s) (fun _ _ hle => topStmts_local o hle hle) hn
  cases hrun : topStmts o n n s with
  | error f t =>
    rw [ends_error hrun]
    rw [hrun] at hread
    exact bind_of_error hread
  | ok p t =>
    rw [ends_ok hrun]
    rw [hrun] at hread
    obtain ⟨trace, hnote⟩ := note_ok o (.parsed p.length t.env.functions.length) t
    refine ⟨trace, ?_⟩
    show (withSteps _ >>= _) s = _
    rw [bind_of_ok hread]
    exact bind_of_ok hnote

theorem steps_of_program {p : Program} (h : program o s = .ok p t) :
    ∃ trace, topStmts o n n s = .ok p { t with trace } := by
  have hsteps := program_steps o hn
  cases hrun : topStmts o n n s with
  | error f t' => cases h.symm.trans (hsteps.of_error hrun)
  | ok p' t' =>
    obtain ⟨trace, hprogram⟩ := hsteps.of_ok hrun
    cases h.symm.trans hprogram
    exact ⟨t'.trace, rfl⟩

theorem steps_of_program_error {f : Failure} (h : program o s = .error f t) :
    topStmts o n n s = .error f t := by
  have hsteps := program_steps o hn
  cases hrun : topStmts o n n s with
  | error f' t' => rw [← h, hsteps.of_error hrun]
  | ok p t' =>
    obtain ⟨trace, hprogram⟩ := hsteps.of_ok hrun
    cases h.symm.trans hprogram

/-- A program is read again in front of whatever may come next, and the reader goes on from
    there. -/
theorem program_again {p : Program} (h : program o s = .ok p t) :
    ∃ u trace, ahead s = u ++ ahead t ∧ ∀ next, Suits t next → ∀ k,
      topStmts o n (p.length + k) (facing s (u ++ next))
        = (do return p ++ (← topStmts o n k) : ParseM Program) (facing { t with trace } next) := by
  obtain ⟨trace, hrun⟩ := steps_of_program o hn h
  obtain ⟨-, hfirst, -⟩ := (topStmts_run o n n s).of_ok hrun
  obtain ⟨u, -, hs, -, hagain⟩ := (firstStmts_recurs o n p.length s).of_ok hfirst
  refine ⟨u, trace, hs, fun next hnext => ?_⟩
  exact (topStmts_after o n p.length _).of_ok (hagain next ⟨hnext.resumes, hnext.closes⟩)

end

section
variable {n k : Nat}

/-- A run that was not out of steps comes to the same with steps enough. -/
theorem exists_topStmts {r : EStateM.Result Failure State Program}
    (h : topStmts o n k s = r) (hr : ∀ t', r ≠ .error .outOfSteps t') :
    ∃ m, s.cursor.weight < m ∧ topStmts o m m s = r := by
  have hn : n ≤ s.cursor.weight + 1 + n + k := by omega
  have hk : k ≤ s.cursor.weight + 1 + n + k := by omega
  refine ⟨s.cursor.weight + 1 + n + k, by omega, ?_⟩
  rcases (topStmts_local o hn hk).steps s with ⟨t', hout⟩ | hsame
  · exact absurd (h.symm.trans hout) (hr t')
  · exact hsame.trans h

theorem program_of_steps {p : Program} (h : topStmts o n k s = .ok p t) :
    ∃ trace, program o s = .ok p { t with trace } := by
  obtain ⟨m, hm, hrun⟩ := exists_topStmts o h fun _ heq => by cases heq
  exact (program_steps o hm).of_ok hrun

theorem program_of_steps_error {f : Failure} (h : topStmts o n k s = .error f t)
    (hf : f ≠ .outOfSteps) : program o s = .error f t := by
  obtain ⟨m, hm, hrun⟩ := exists_topStmts o h (by
    rintro t' heq
    cases heq
    exact hf rfl)
  exact (program_steps o hm).of_error hrun

end

/-- What is read as a program, checked or not, is the text of one. -/
theorem spells_of_program {p : Program} (h : program o s = .ok p t) :
    p.Spells s.cursor.lexemes := by
  have hlt := Nat.lt_succ_self s.cursor.weight
  have hweigh := weighLexemes_lt_steps s hlt
  obtain ⟨trace, hrun⟩ := steps_of_program o hlt h
  -- the unchecked parser reads the same, and what that reads is sound
  have hshadow := topStmts_shadows o s.cursor.weight.succ s.cursor.weight.succ s s rfl
  have hsound := topStmts_sound (checked_unchecked o) _ _ s hweigh hweigh
  rw [hrun] at hshadow
  cases hoff : topStmts (unchecked o) s.cursor.weight.succ s.cursor.weight.succ s with
  | ok q t' =>
    rw [hoff] at hshadow
    cases hshadow
    exact (hsound.of_ok hoff).1
  | error f t' =>
    rw [hoff] at hshadow
    cases hshadow

end

end Parse
end Lumen
