/-
  Lumen.Proofs.Checking.Inline — checking while reading is checking afterwards.

  Every reader of statements, checked, follows its unchecked self, and the walk
  over what it gives is the walk that checks statements by themselves.  This is
  shown kind by kind; blocks and whole programs are sequences.

  Main statements:
    * `Walked` — the walk over one statement;
    * `stmts_follows` / `block_follows` — blocks;
    * `stmt_follows` / `topStmts_follows` — statements and programs;
    * `statement_then_walk` — a statement, read and checked in any environment;
    * `program_error_cases` — an error is one of grammar or a static one;
    * `program_checked` — a checked parse is an unchecked parse and a walk;
    * `accepted_never_refused` — what is accepted fits, and no parse ends with a
      refusal.
-/
import Lumen.Proofs.Checking.Follows
import Lumen.Proofs.Reading.StmtSound

namespace Lumen
namespace Parse
open CursorM

/-! ## §1. Declared types -/

/-- A type that was read can be declared. -/
theorem type_declarable (steps : Nat) (c : Cursor) :
    Ends (type steps) c (fun t _ => t.isDeclarable = true) fun _ _ => True := by
  induction steps generalizing c with
  | zero => exact trivial
  | succ steps ih =>
    unfold type
    rw [ends_bind, ends_lexeme?]
    split
    · apply (ends_trivial advance c).bind
      intro _ c₁ _
      apply (ends_trivial (mark .lt) c₁).bind
      intro _ c₂ _
      apply (ih c₂).bind
      intro elem c₃ helem
      rw [ends_bind, ends_modify]
      exact (ends_trivial (mark .gt) _).bind fun _ _ _ => helem
    · split
      · next t ht => exact (ends_trivial advance c).bind fun _ _ _ => (Ty.lexemes_of_ofLexeme? ht).1
      · exact trivial
    · exact trivial

theorem paramList_declarable (m steps : Nat) (c : Cursor) :
    Ends (paramList m steps) c (fun ps _ => ∀ p ∈ ps, p.type.isDeclarable = true)
      fun _ _ => True := by
  induction steps generalizing c with
  | zero => exact trivial
  | succ steps ih =>
    unfold paramList
    apply (ends_trivial (identifier _) c).bind
    intro name c₁ _
    apply (ends_trivial (mark _) c₁).bind
    intro _ c₂ _
    apply (type_declarable m c₂).bind
    intro ty c₃ hty
    apply (ends_trivial (accept _) c₃).bind
    intro comma c₄ _
    split
    · apply (ends_trivial (isAt _) c₄).bind
      intro close c₅ _
      split
      · exact trivial
      · exact (ih c₅).bind fun ps _ hps => List.forall_mem_cons.mpr ⟨hty, hps⟩
    · exact List.forall_mem_singleton.mpr hty

theorem params_declarable (m : Nat) (c : Cursor) :
    Ends (params m) c (fun ps _ => ∀ p ∈ ps, p.type.isDeclarable = true) fun _ _ => True := by
  unfold params
  apply (ends_trivial (mark _) c).bind
  intro _ c₁ _
  apply (ends_trivial (isAt _) c₁).bind
  intro close c₂ _
  split
  · exact (ends_trivial (mark _) c₂).bind fun _ _ _ => List.forall_mem_nil _
  · apply (paramList_declarable m m c₂).bind
    intro ps c₃ hps
    exact (ends_trivial (mark _) c₃).bind fun _ _ _ => hps

/-! ## §2. Walks over statements -/

/-- A walk has gone over one statement.  Whatever type a `let` declares can be
    declared. -/
def Walked (r : Walk) (a : Stmt) (r' : Walk) : Prop :=
  (r' = r >>= fun env => a.check env) ∧ a.isDeclarable = true

/-- A statement that was walked over takes effect: what it declares was
    checked. -/
theorem Walked.enact {L : Walk.Law} {inner : Nat} {r r' : Walk} {a : Stmt} (h : Walked r a r')
    (env : Env) (henv : r' = .ok env) (hstands : L.Stands inner env) :
    Walk.Sound L inner (orFail (env.enact a)) := by
  obtain ⟨hr', hdecl⟩ := h
  rw [hr'] at henv
  cases r with
  | error f => cases henv
  | ok env₀ =>
    have hcheck : a.check env₀ = .ok env := henv
    exact L.enact hstands hdecl hcheck

/-- A checked reader of statements follows its unchecked self. -/
def FollowsStmt (L : Walk.Law) (on off : ParseM Stmt) : Prop :=
  ∀ (inner : Nat) (r : Walk), r.Sound L inner → Follows L inner r on off (Walked r)

section
variable {L : Walk.Law} {on off : Options} (hon : on.checked = true) (hoff : off.checked = false)
include hon hoff

section
variable {stmtOn stmtOff : ParseM Stmt} (hstmt : FollowsStmt L stmtOn stmtOff)
include hstmt

/-! ## §3. Blocks -/

theorem stmts_follows (steps : Nat) {inner : Nat} {r : Walk} (hr : r.Sound L inner) :
    Follows L inner r (stmts on stmtOn steps) (stmts off stmtOff steps)
      fun ss r' => r' = r >>= fun env => checkStmts env ss := by
  induction steps generalizing r with
  | zero => exact follows_throw hr .outOfSteps
  | succ steps ih =>
    unfold stmts
    apply follows_reads_bind hr
    intro ends
    split
    · exact follows_pure hr (bind_pure r).symm
    -- a statement, what it declares, and the others from where the walk is then
    · apply (hstmt inner r hr).bind
      intro a r₂ hwalk hr₂
      refine (follows_updating hon hoff hr₂ fun env henv hstands =>
        hwalk.enact env henv hstands).bind ?_
      intro _ r₃ h₃ hr₃
      refine (ih hr₃).bind fun ss r₄ h₄ hr₄ => follows_pure hr₄ ?_
      rw [h₄, h₃, hwalk.1, bind_assoc, bind_assoc]
      rfl

theorem block_follows (steps : Nat) (locals : List Param)
    (hlocals : ∀ p ∈ locals, p.type.isDeclarable = true) {inner : Nat} {r : Walk}
    (hr : r.Sound L inner) :
    Follows L inner r (block on stmtOn steps locals) (block off stmtOff steps locals)
      fun b r' => ∃ pos ss, b = .mk pos ss ∧ r' = r >>= fun env =>
        orFail (env.push.declareAll locals) >>= fun env => checkStmts env ss >>= Env.pop := by
  unfold block
  apply follows_reads_bind hr
  intro pos
  -- what the walk has done when the scope is closed, the statements included
  have hstmts : ∀ r₂ : Walk, r₂.Sound L (inner + 1) →
      r₂ = (r >>= fun env => orFail (env.push.declareAll locals)) →
      Follows L (inner + 1) r₂ (stmts on stmtOn steps) (stmts off stmtOff steps) fun ss r₃ =>
        r₃ = r >>= fun env => orFail (env.push.declareAll locals)
          >>= fun env => checkStmts env ss := by
    intro r₂ hr₂ h₂
    refine (stmts_follows hon hoff hstmt steps hr₂).weaken ?_
    intro ss r₃ h₃
    rw [h₃, h₂, bind_assoc]
  apply (follows_inScope hon hoff hr hlocals hstmts).bind
  rintro ss r₄ ⟨r₃, h₃, h₄⟩ hr₄
  refine follows_pure hr₄ ⟨pos, ss, rfl, ?_⟩
  rw [h₄, h₃, bind_assoc]
  simp only [bind_assoc]

/-! ## §4. The kinds of statements -/

/-- An `if` is checked as its condition, its block, and what follows. -/
theorem elseBlock_follows (steps : Nat) {inner : Nat} {r : Walk} (hr : r.Sound L inner) :
    Follows L inner r (elseBlock on stmtOn steps) (elseBlock off stmtOff steps)
      fun b r' => (b = none ∧ r' = r)
        ∨ ∃ pos ss, b = some (.mk pos ss) ∧ r' = r >>= fun env =>
          checkStmts env.push ss >>= Env.pop := by
  unfold elseBlock
  apply follows_reads_bind hr
  intro isElse
  split
  · apply (block_follows hon hoff hstmt steps [] (List.forall_mem_nil _) hr).bind
    rintro b r' ⟨pos, ss, hb, h'⟩ hr'
    refine follows_pure hr' (.inr ⟨pos, ss, ?_, h'⟩)
    rw [hb]
  · exact follows_pure hr (.inl ⟨rfl, rfl⟩)

theorem ifStmt_follows (steps : Nat) {inner : Nat} {r : Walk} (hr : r.Sound L inner) :
    Follows L inner r (ifStmt on stmtOn steps) (ifStmt off stmtOff steps) (Walked r) := by
  unfold ifStmt
  apply follows_reads_bind hr
  intro t
  apply follows_reads_bind hr
  intro cond
  apply (follows_checking hon hoff hr fun env => env.checkTruth_static cond).bind
  intro _ r₁ h₁ hr₁
  apply (block_follows hon hoff hstmt steps [] (List.forall_mem_nil _) hr₁).bind
  rintro b r₂ ⟨pos, ss, hb, h₂⟩ hr₂
  apply (elseBlock_follows hon hoff hstmt steps hr₂).bind
  intro else_ r₃ h₃ hr₃
  apply follows_reads_bind hr₃
  intro _
  refine follows_pure hr₃ ⟨?_, rfl⟩
  subst hb
  rcases h₃ with ⟨rfl, rfl⟩ | ⟨pos', others, rfl, h₃⟩
  · rw [h₂, h₁]
    simp only [bind_assoc, pure_bind]
    rfl
  · rw [h₃, h₂, h₁]
    simp only [bind_assoc, pure_bind]
    rfl

theorem whileStmt_follows (steps : Nat) {inner : Nat} {r : Walk} (hr : r.Sound L inner) :
    Follows L inner r (whileStmt on stmtOn steps) (whileStmt off stmtOff steps) (Walked r) := by
  unfold whileStmt
  apply follows_reads_bind hr
  intro t
  apply follows_reads_bind hr
  intro cond
  apply (follows_checking hon hoff hr fun env => env.checkTruth_static cond).bind
  intro _ r₁ h₁ hr₁
  apply (block_follows hon hoff hstmt steps [] (List.forall_mem_nil _) hr₁).bind
  rintro b r₂ ⟨pos, ss, hb, h₂⟩ hr₂
  apply follows_reads_bind hr₂
  intro _
  refine follows_pure hr₂ ⟨?_, rfl⟩
  rw [hb, h₂, h₁]
  simp only [bind_assoc, pure_bind]
  rfl

theorem forStmt_follows (steps : Nat) {inner : Nat} {r : Walk} (hr : r.Sound L inner) :
    Follows L inner r (forStmt on stmtOn steps) (forStmt off stmtOff steps) (Walked r) := by
  unfold forStmt
  apply follows_reads_bind hr
  intro t
  apply follows_reads_bind hr
  intro var
  apply follows_reads_bind hr
  intro _
  apply follows_reads_bind hr
  intro _
  apply follows_reads_bind hr
  intro _
  apply follows_reads_bind hr
  intro start
  apply follows_reads_bind hr
  intro _
  apply follows_reads_bind hr
  intro stop
  apply (follows_checking hon hoff hr fun env => env.checkBounds_static var start stop).bind
  intro _ r₁ h₁ hr₁
  -- the bounds are checked before the loop variable is in scope
  have hlocals : ∀ p ∈ [Param.mk var .int], p.type.isDeclarable = true :=
    List.forall_mem_singleton.mpr rfl
  apply (block_follows hon hoff hstmt steps _ hlocals hr₁).bind
  rintro b r₂ ⟨pos, ss, hb, h₂⟩ hr₂
  apply follows_reads_bind hr₂
  intro _
  refine follows_pure hr₂ ⟨?_, rfl⟩
  rw [hb, h₂, h₁]
  simp only [bind_assoc, pure_bind]
  rfl

theorem fnStmt_follows (steps : Nat) {inner : Nat} {r : Walk} (hr : r.Sound L inner) :
    Follows L inner r (fnStmt on stmtOn steps) (fnStmt off stmtOff steps) (Walked r) := by
  unfold fnStmt
  apply follows_reads_bind hr
  intro t
  apply follows_reads_bind hr
  intro name
  refine follows_read_bind hr (params_declarable steps) ?_
  intro ps hps
  apply (block_follows hon hoff hstmt steps ps hps hr).bind
  rintro b r₁ ⟨pos, ss, hb, h₁⟩ hr₁
  apply follows_reads_bind hr₁
  intro _
  refine follows_pure hr₁ ⟨?_, rfl⟩
  rw [hb, h₁]
  rfl

omit hstmt in
theorem letStmt_follows (steps : Nat) {inner : Nat} {r : Walk} (hr : r.Sound L inner) :
    Follows L inner r (letStmt on steps) (letStmt off steps) (Walked r) := by
  unfold letStmt
  apply follows_reads_bind hr
  intro t
  apply follows_reads_bind hr
  intro name
  apply follows_reads_bind hr
  intro _
  refine follows_read_bind hr (type_declarable steps) ?_
  intro ty hty
  apply follows_reads_bind hr
  intro _
  apply follows_reads_bind hr
  intro init
  refine (follows_checking hon hoff hr fun env =>
    checkAgainst_static env ty name init.pos init).bind ?_
  intro _ r₂ h₂ hr₂
  exact follows_pure hr₂ ⟨h₂, hty⟩

omit hstmt in
theorem printStmt_follows (steps : Nat) {inner : Nat} {r : Walk} (hr : r.Sound L inner) :
    Follows L inner r (printStmt on steps) (printStmt off steps) (Walked r) := by
  unfold printStmt
  apply follows_reads_bind hr
  intro t
  apply follows_reads_bind hr
  intro value
  apply (follows_checking hon hoff hr fun env => infer_static env value).bind
  intro _ r₁ h₁ hr₁
  exact follows_pure hr₁ ⟨h₁, rfl⟩

omit hstmt in
theorem returnStmt_follows (steps : Nat) {inner : Nat} {r : Walk} (hr : r.Sound L inner) :
    Follows L inner r (returnStmt on steps) (returnStmt off steps) (Walked r) := by
  unfold returnStmt
  apply follows_reads_bind hr
  intro t
  apply follows_reads_bind hr
  intro ends
  apply follows_reads_bind hr
  intro semicolon
  split
  · exact follows_pure hr ⟨(bind_pure r).symm, rfl⟩
  · apply follows_reads_bind hr
    intro value
    apply (follows_checking hon hoff hr fun env => infer_static env value).bind
    intro _ r₁ h₁ hr₁
    exact follows_pure hr₁ ⟨h₁, rfl⟩

omit hstmt in
/-- An assignment is checked and takes effect at once. -/
theorem nameStmt_follows (steps : Nat) (name : Bytes) {inner : Nat} {r : Walk}
    (hr : r.Sound L inner) :
    Follows L inner r (nameStmt on steps name) (nameStmt off steps name) (Walked r) := by
  unfold nameStmt
  apply follows_reads_bind hr
  intro t
  apply follows_reads_bind hr
  intro target
  apply follows_reads_bind hr
  intro isEqual
  split
  · split
    · next pos name path =>
      apply follows_reads_bind hr
      intro _
      apply follows_reads_bind hr
      intro value
      refine (follows_updating hon hoff hr fun env _ henv =>
        L.store pos name path value henv).bind ?_
      intro _ r₁ h₁ hr₁
      exact follows_pure hr₁ ⟨h₁, rfl⟩
    · exact follows_unexpected hr .endOfStatement
  · apply (follows_checking hon hoff hr fun env => infer_static env target).bind
    intro _ r₁ h₁ hr₁
    exact follows_pure hr₁ ⟨h₁, rfl⟩

/-! ## §5. Statements and programs -/

theorem bareStmt_follows (steps : Nat) {inner : Nat} {r : Walk} (hr : r.Sound L inner) :
    Follows L inner r (bareStmt on stmtOn steps) (bareStmt off stmtOff steps) (Walked r) := by
  unfold bareStmt
  apply follows_reads_bind hr
  intro t?
  split
  · exact follows_unexpected hr .statement
  · split
    · exact letStmt_follows hon hoff steps hr
    · exact printStmt_follows hon hoff steps hr
    · exact ifStmt_follows hon hoff hstmt steps hr
    · exact whileStmt_follows hon hoff hstmt steps hr
    · exact forStmt_follows hon hoff hstmt steps hr
    · exact fnStmt_follows hon hoff hstmt steps hr
    · exact returnStmt_follows hon hoff steps hr
    · exact nameStmt_follows hon hoff steps _ hr
    · exact follows_throw hr _
    · exact follows_throw hr _
    · exact follows_throw hr _

end

theorem stmt_follows (steps : Nat) : FollowsStmt L (stmt on steps) (stmt off steps) := by
  induction steps with
  | zero => exact fun _ _ hr => follows_throw hr .outOfSteps
  | succ steps ih =>
    intro inner r hr
    rw [stmt_succ, stmt_succ]
    apply (bareStmt_follows hon hoff ih (steps + 1) hr).bind
    intro a r₁ hwalk hr₁
    exact follows_reads_bind hr₁ fun _ => follows_pure hr₁ hwalk

/-- What an unchecked run reads as a statement, a checked one reads in any environment
    as well, if the walk over it succeeds; and if the walk fails, so does the checked
    run. -/
theorem statement_then_walk {s t : State} {a : Stmt} (h : statement off s = .ok a t) (env : Env)
    (trace : Trace) :
    Ends (statement on) ⟨s.cursor, env, trace⟩ (Reached (a.check env) a t.cursor)
      fun f _ => a.check env = .error f := by
  have hr : Walk.Sound .free 0 (.ok env) := trivial
  have hfollows := follows_withSteps fun n => stmt_follows hon hoff n 0 (.ok env) hr
  obtain ⟨r, ⟨hcheck, -⟩, -, hgoes⟩ := (hfollows s).of_ok h
  have hcheck : r = a.check env := hcheck
  subst hcheck
  exact hgoes trace

theorem topStmts_follows (n steps : Nat) {inner : Nat} {r : Walk} (hr : r.Sound L inner) :
    Follows L inner r (topStmts on n steps) (topStmts off n steps)
      fun p r' => r' = r >>= fun env => Program.check env p := by
  induction steps generalizing r with
  | zero => exact follows_throw hr .outOfSteps
  | succ steps ih =>
    unfold topStmts
    apply follows_reads_bind hr
    intro t?
    split
    · exact follows_pure hr (bind_pure r).symm
    · next t =>
      -- what is noted tells nothing of the program
      have hsilent : Follows L inner r (note on (.statement t.pos.line t.lexeme))
          (note off (.statement t.pos.line t.lexeme)) fun _ r' => r' = r :=
        follows_silent hr rfl (fun s => ends_note fun _ => ⟨rfl, rfl, rfl⟩)
          fun s => ends_note fun _ => ⟨rfl, rfl, rfl⟩
      apply hsilent.bind
      intro _ r₁ h₁ hr₁
      subst h₁
      apply (stmt_follows hon hoff n inner r₁ hr₁).bind
      intro a r₂ hwalk hr₂
      refine (follows_enactTop hon hoff hr₂ fun env henv hstands =>
        hwalk.enact env henv hstands).bind ?_
      intro _ r₃ h₃ hr₃
      refine (ih hr₃).bind fun p r₄ h₄ hr₄ => follows_pure hr₄ ?_
      rw [h₄, h₃, hwalk.1]
      simp only [Program.check, List.foldlM_cons, bind_assoc]

theorem program_follows {inner : Nat} {r : Walk} (hr : r.Sound L inner) :
    Follows L inner r (program on) (program off)
      fun p r' => r' = r >>= fun env => Program.check env p := by
  unfold program
  apply (follows_withSteps fun n => topStmts_follows hon hoff n n hr).bind
  intro p r₁ h₁ hr₁
  have hsilent : ∀ (o : Options) (s : State),
      Ends (do note o (.parsed p.length (← get).env.functions.length); return p) s
        (fun p' t => p' = p ∧ t.cursor = s.cursor ∧ t.env = s.env) fun _ _ => False := by
    intro o s
    rw [ends_bind, ends_get, ends_bind]
    exact ends_note fun _ => ⟨rfl, rfl, rfl⟩
  exact follows_silent hr₁ h₁ (hsilent on) (hsilent off)

end

/-! ## §6. One pass or two

The same tokens, read by a fresh parser with and without checking. -/

section
variable {on off : Options} (hon : on.checked = true) (hoff : off.checked = false)
  (tokens : List Token)
include hon hoff

/-- The two parses of a token list: both give the same program, if the walk over it
    succeeds, or the unchecked one fails for a reason of grammar.  The record with
    which the checked one starts plays no part. -/
theorem whole_follows (trace : Trace) :
    (∃ p t, whole off tokens = .ok p t ∧ Walk.Sound .kept 0 (Program.check .empty p)
        ∧ Ends (program on) { cursor := .ofTokens tokens, trace }
          (Reached (Program.check .empty p) p t.cursor)
          fun f _ => Program.check .empty p = .error f)
      ∨ ∃ e t, whole off tokens = .error (.error e) t ∧ e.isSyntactic = true
        ∧ Ends (program on) { cursor := .ofTokens tokens, trace } (fun _ _ => False)
          fun f _ => f = .error e ∨ f.isStatic = true := by
  have hr : Walk.Sound .kept 0 (.ok .empty) := Env.kept_empty
  have hfollows := program_follows hon hoff hr { cursor := .ofTokens tokens }
  have hsound := program_sound hoff { cursor := .ofTokens tokens }
  cases hrun : whole off tokens with
  | ok p t =>
    obtain ⟨r, hcheck, hwalk, hgoes⟩ := hfollows.of_ok hrun
    -- the walk that the run has followed is the one over the whole program
    have hcheck : r = Program.check .empty p := hcheck
    subst hcheck
    exact .inl ⟨p, t, rfl, hwalk, hgoes trace⟩
  | error f t =>
    have hgoes := hfollows.of_error hrun trace
    have hsyntactic := hsound.of_error hrun
    cases f with
    | error e => exact .inr ⟨e, t, rfl, hsyntactic, hgoes⟩
    | _ => cases hsyntactic

/-- A program that was read without checking is read with checking, and in the
    environment of the walk over it; if the walk fails, so does the parse. -/
theorem checked_of_unchecked {p : Program} {t : State} (h : whole off tokens = .ok p t) :
    (∀ env, Program.check .empty p = .ok env →
        ∃ s, whole on tokens = .ok p s ∧ s.env = env ∧ s.cursor = t.cursor)
      ∧ ∀ f, Program.check .empty p = .error f → ∃ s, whole on tokens = .error f s := by
  rcases whole_follows hon hoff tokens #[] with ⟨p', t', hrun, -, hends⟩ | ⟨e, t', hrun, -⟩
  · rw [hrun] at h
    cases h
    exact run_of_walk hends
  · rw [hrun] at h
    cases h

/-- Where a checked parse of a program fails, the walk over it does. -/
theorem check_of_unchecked {p : Program} {t s : State} {f : Failure}
    (h : whole off tokens = .ok p t) (hfails : whole on tokens = .error f s) :
    Program.check .empty p = .error f := by
  have hchecked := checked_of_unchecked hon hoff tokens h
  cases hcheck : Program.check .empty p with
  | ok env =>
    obtain ⟨s', hs', -⟩ := hchecked.1 env hcheck
    rw [hfails] at hs'
    cases hs'
  | error f' =>
    obtain ⟨s', hs'⟩ := hchecked.2 f' hcheck
    rw [hfails] at hs'
    cases hs'
    rfl

/-- Where an unchecked parse fails, so does a checked one. -/
theorem checked_fails_of_unchecked {f : Failure} {t : State} (h : whole off tokens = .error f t) :
    ∃ e, f = .error e ∧ ∃ e' s, whole on tokens = .error (.error e') s
      ∧ (e' = e ∨ e'.isStatic = true) := by
  rcases whole_follows hon hoff tokens #[] with ⟨p, t', hrun, -⟩ | ⟨e, t', hrun, -, hends⟩
  · rw [hrun] at h
    cases h
  · rw [hrun] at h
    cases h
    refine ⟨e, rfl, ?_⟩
    cases hchecked : whole on tokens with
    | ok q s => exact (hends.of_ok hchecked).elim
    | error f s =>
      rcases hends.of_error hchecked with rfl | hstatic
      · exact ⟨e, s, rfl, .inl rfl⟩
      · cases f with
        | error e' => exact ⟨e', s, rfl, .inr hstatic⟩
        | _ => cases hstatic

/-- A checked parse that succeeds is an unchecked one with a walk. -/
theorem unchecked_of_checked {p : Program} {s : State} (h : whole on tokens = .ok p s) :
    Program.check .empty p = .ok s.env
      ∧ ∃ t, whole off tokens = .ok p t ∧ t.cursor = s.cursor := by
  rcases whole_follows hon hoff tokens #[] with ⟨p', t, hrun, -, hends⟩ | ⟨e, t, -, -, hends⟩
  · obtain ⟨rfl, hcursor, hcheck⟩ := hends.of_ok h
    exact ⟨hcheck, t, hrun, hcursor.symm⟩
  · exact (hends.of_ok h).elim

/-- What no check objects to, an unchecked parse reports too. -/
theorem unchecked_of_not_static {trace : Trace} {f : Failure} {s : State}
    (h : program on { cursor := .ofTokens tokens, trace } = .error f s)
    (hf : ¬ f.isStatic = true) : ∃ t, whole off tokens = .error f t := by
  rcases whole_follows hon hoff tokens trace with ⟨p, t, -, hwalk, hends⟩ | ⟨e, t, hrun, -, hends⟩
  · rw [hends.of_error h] at hwalk
    exact absurd hwalk hf
  · obtain rfl : f = .error e := (hends.of_error h).resolve_right hf
    exact ⟨t, hrun⟩

end

/-- Whatever a fresh parser reports, checked or not, is an error of grammar or a
    static one. -/
theorem program_error_cases (o : Options) (tokens : List Token) (trace : Trace) :
    Ends (program o) { cursor := .ofTokens tokens, trace } (fun _ _ => True)
      fun f _ => f.isSyntactic = true ∨ f.isStatic = true := by
  cases hon : o.checked with
  | false =>
    exact (program_sound hon _).mono (fun _ _ _ => trivial) fun _ _ h => .inl h
  | true =>
    have hoff : ({ checked := false } : Options).checked = false := rfl
    rcases whole_follows hon hoff tokens trace with ⟨p, t, -, hwalk, hends⟩ | ⟨e, t, -, hsyn, hends⟩
    · apply hends.mono (fun _ _ _ => trivial)
      intro f _ hcheck
      rw [hcheck] at hwalk
      exact .inr hwalk
    · apply hends.mono (fun _ _ _ => trivial)
      rintro f _ (rfl | hstatic)
      · exact .inl hsyn
      · exact .inr hstatic

/-- Checking while reading is reading and then checking: a checked parse gives what
    an unchecked one does and ends in the environment of the walk over it, or
    fails as the walk does.  Where an unchecked parse fails, a checked one fails
    with the same error or with a static one. -/
theorem program_checked (tokens : List Token) (traceOn traceOff : Bool) :
    (∀ p s, whole { checked := true, trace := traceOn } tokens = .ok p s →
        Program.check .empty p = .ok s.env
          ∧ ∃ t, whole { checked := false, trace := traceOff } tokens = .ok p t
            ∧ t.cursor = s.cursor)
      ∧ (∀ p t, whole { checked := false, trace := traceOff } tokens = .ok p t →
        (∀ env, Program.check .empty p = .ok env →
            ∃ s, whole { checked := true, trace := traceOn } tokens = .ok p s ∧ s.env = env
              ∧ s.cursor = t.cursor)
          ∧ ∀ f, Program.check .empty p = .error f →
            ∃ s, whole { checked := true, trace := traceOn } tokens = .error f s)
      ∧ ∀ f t, whole { checked := false, trace := traceOff } tokens = .error f t →
        ∃ e, f = .error e ∧ ∃ e' s,
          whole { checked := true, trace := traceOn } tokens = .error (.error e') s
            ∧ (e' = e ∨ e'.isStatic = true) :=
  ⟨fun _ _ h => unchecked_of_checked rfl rfl tokens h,
    fun _ _ h => checked_of_unchecked rfl rfl tokens h,
    fun _ _ h => checked_fails_of_unchecked rfl rfl tokens h⟩

/-- A function that is defined twice, `fn f() end fn f() end`. -/
def duplicate : List Token :=
  [⟨.word .fn, {}⟩, ⟨.ident [102], {}⟩, ⟨.mark .lparen, {}⟩, ⟨.mark .rparen, {}⟩,
    ⟨.word .end_, {}⟩, ⟨.word .fn, {}⟩, ⟨.ident [102], {}⟩, ⟨.mark .lparen, {}⟩,
    ⟨.mark .rparen, {}⟩, ⟨.word .end_, {}⟩]

theorem duplicate_fails :
    ∃ f s, whole { checked := true, trace := false } duplicate = .error f s :=
  Ends.fails (by decide +kernel)

/-- Without checking it is read, and the walk over it finds what a checked parse
    reports. -/
theorem program_checked_duplicate :
    ∃ p t f s, whole { checked := false, trace := false } duplicate = .ok p t
      ∧ Program.check .empty p = .error f
      ∧ whole { checked := true, trace := false } duplicate = .error f s := by
  obtain ⟨-, hunchecked, -⟩ := program_checked duplicate false false
  obtain ⟨p, t, hrun⟩ : ∃ p t, whole { checked := false, trace := false } duplicate = .ok p t :=
    Ends.gives (by decide +kernel)
  obtain ⟨f', s', hfails⟩ := duplicate_fails
  cases hcheck : Program.check .empty p with
  | ok env =>
    obtain ⟨s, hs, -⟩ := (hunchecked p t hrun).1 env hcheck
    rw [hs] at hfails
    cases hfails
  | error f =>
    obtain ⟨s, hs⟩ := (hunchecked p t hrun).2 f hcheck
    exact ⟨p, t, f, s, hrun, hcheck, hs⟩

/-! ## §7. No refusals -/

theorem not_refused_of_cases {e : ParseError} (h : e.isSyntactic = true ∨ e.isStatic = true) :
    e.isRefused = false := by
  cases e <;> first | rfl | (rcases h with h | h <;> cases h)

/-- What a binding objects to is a refusal. -/
theorem declare_refuses {env : Env} {name : Bytes} {type : Ty} {value : Value} {e : ParseError}
    (h : env.declare name type value = .error e) : e.isRefused = true := by
  unfold Env.declare at h
  split at h
  · cases h
    rfl
  · cases h

theorem assign_refuses {env : Env} {name : Bytes} {value : Value} {pos : Option Pos}
    {e : ParseError} (h : env.assign name value pos = .error e) : e.isRefused = true := by
  unfold Env.assign ScopeStack.assign at h
  split at h
  · cases h
    rfl
  · split at h <;> cases h
    rfl

/-- What a type that can be declared accepts also fits it.  So of all that a checked
    parse stores, nothing is refused: a declaration and an assignment fail with
    a refusal only, and no parse ends with one. -/
theorem accepted_never_refused :
    (∀ (env : Env) (declared : Ty) (name : Bytes) (e : Expr), declared.isDeclarable = true →
        checkType env declared e name = .ok () → e.constant.misfit? declared = none)
      ∧ (∀ (env : Env) (name : Bytes) (type : Ty) (value : Value) (e : ParseError),
        env.declare name type value = .error e → e.isRefused = true)
      ∧ (∀ (env : Env) (name : Bytes) (value : Value) (pos : Option Pos) (e : ParseError),
        env.assign name value pos = .error e → e.isRefused = true)
      ∧ ∀ (tokens : List Token) (trace : Bool) (e : ParseError) (s : State),
        whole { checked := true, trace } tokens = .error (.error e) s → e.isRefused = false := by
  refine ⟨fun env declared name e hdecl h => ?_, fun _ _ _ _ _ => declare_refuses,
    fun _ _ _ _ _ => assign_refuses, fun tokens trace e s h => ?_⟩
  · have hfits := checkAgainst_fits env hdecl name e.pos e
    have hrun : checkAgainst env declared name e.pos e = .ok () := h
    rw [hrun] at hfits
    exact hfits
  · exact not_refused_of_cases ((program_error_cases _ tokens #[]).of_error h)

/-- The list `[-1, (2)]`. -/
def integers : Expr :=
  .list {} [.neg {} (.literal {} (.int 1)), .group {} (.literal {} (.int 2))]

/-- It is accepted as a list of integers, and so it fits; and what is wrong with a
    function that is defined twice is no refusal. -/
theorem accepted_never_refused_list :
    integers.constant.misfit? (.list .int) = none
      ∧ ∃ e s, whole { checked := true, trace := false } duplicate = .error (.error e) s
        ∧ e.isRefused = false := by
  obtain ⟨hfits, -, -, hruns⟩ := accepted_never_refused
  have haccepted : checkType .empty (.list .int) integers [] = .ok () := by
    simp only [integers, checkType, checkAgainst, checkElements, infer]
    rfl
  refine ⟨hfits .empty (.list .int) [] _ rfl haccepted, ?_⟩
  obtain ⟨f, s, hrun⟩ := duplicate_fails
  cases f with
  | error e => exact ⟨e, s, hrun, hruns duplicate false e s hrun⟩
  | _ => rcases (program_error_cases _ duplicate #[]).of_error hrun with h | h <;> cases h

end Parse
end Lumen
