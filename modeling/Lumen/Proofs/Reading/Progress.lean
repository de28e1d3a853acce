/-
  Lumen.Proofs.Reading.Progress — every operation ends, and reads on.

  The tokens that are ahead are counted with every `>=` as two.  To read a token makes
  that less, and to split a `>=` leaves it as it is, though there is one token more
  then.  Each step of a reader reads a token or is the last of its kind, so that the
  count is enough for the steps, whatever number of them is allowed beyond it.

  What is read for a statement, an expression or a type is at least one token.

  Main statements:
    * `Reaches.weight_add`, `Reaches.length_le` — the counts along a chain of moves;
    * `Operation.inSteps` — an operation with a number of steps;
    * `Operation.inSteps_eq` — a greater number changes nothing;
    * `Operation.inSteps_reaches`, `Operation.inSteps_reads` — how the cursor moves;
    * `operations_progress` — termination, progress and bounds of every operation.
-/
import Lumen.Proofs.Reading.StmtSpans
import Lumen.Proofs.Reading.StmtDrawn

namespace Lumen

/-! ## §1. Counts -/

namespace Cursor

/-- How many tokens ahead can be split. -/
def splittable (c : Cursor) : Nat := c.ahead.countP fun t => t.lexeme == .mark .ge

theorem position_le_length (c : Cursor) : c.position ≤ c.tokens.length := by
  rw [position, tokens, List.length_append, List.length_reverse]
  exact Nat.le_add_right _ _

variable {c c' : Cursor} {ls : List Lexeme}

/-- What is passed weighs as much less afterwards. -/
theorem Reaches.weight_add (h : Reaches c ls c') : c'.weight + weighLexemes ls = c.weight := by
  induction h with
  | refl => rfl
  | @past c' ls t h ht ih =>
    have hahead : c'.ahead = t :: (c'.past t).ahead := Parse.ahead_of_token? ht
    have hweight : c'.weight = (if t.lexeme = .mark .ge then 2 else 1) + (c'.past t).weight := by
      rw [weight, hahead]
      rfl
    rw [← ih, hweight, weighLexemes_append]
    simp only [weighLexemes]
    omega
  | split h ih => rwa [weight_splitGe]

theorem Reaches.position_add (h : Reaches c ls c') : c'.position = c.position + ls.length := by
  have hlength := congrArg List.length h.before
  simpa [position] using hlength

/-- A split adds a token, and there is one less to be split then. -/
theorem length_splitGe (c : Cursor) :
    c.splitGe.tokens.length + c.splitGe.splittable = c.tokens.length + c.splittable := by
  obtain ⟨before, ahead⟩ := c
  unfold splitGe
  dsimp only
  split
  · -- the one `>=` at the cursor is no more, and there are two tokens in its place
    simp [tokens, splittable]
    omega
  · rfl

theorem Reaches.length_le (h : Reaches c ls c') :
    c.tokens.length ≤ c'.tokens.length
      ∧ c'.tokens.length + c'.splittable ≤ c.tokens.length + c.splittable := by
  induction h with
  | refl => exact ⟨Nat.le_refl _, Nat.le_refl _⟩
  | @past c' ls t h ht ih =>
    have hahead : c'.ahead = t :: (c'.past t).ahead := Parse.ahead_of_token? ht
    have hsplittable : (c'.past t).splittable ≤ c'.splittable := by
      rw [splittable, splittable, hahead, List.countP_cons]
      exact Nat.le_add_right _ _
    rw [tokens_past (Option.filter_eq_some_iff.mp ht).1]
    omega
  | @split c' ls h ih =>
    have hsame := length_splitGe c'
    have hmore : c'.tokens.length ≤ c'.splitGe.tokens.length := by
      rcases c'.tokens_splitGe with hsplit | ⟨p, rest, hwhole, hsplit⟩
      · rw [hsplit]
      · rw [hwhole, hsplit]
        simp
    omega

/-- What reading does to a cursor: it goes on, and never past the last token.  There may be
    as many tokens more as there were to be split, and what is ahead does not weigh more. -/
structure Onward (c c' : Cursor) : Prop where
  position : c.position ≤ c'.position
  inside : c'.position ≤ c'.tokens.length
  kept : c.tokens.length ≤ c'.tokens.length
  grown : c'.tokens.length ≤ c.tokens.length + c.splittable
  weight : c'.weight ≤ c.weight

theorem Reaches.onward (h : Reaches c ls c') : Onward c c' where
  position := by
    rw [h.position_add]
    exact Nat.le_add_right _ _
  inside := c'.position_le_length
  kept := h.length_le.1
  grown := Nat.le_trans (Nat.le_add_right _ _) h.length_le.2
  weight := by
    rw [← h.weight_add]
    exact Nat.le_add_right _ _

/-- Where something was read, less is left. -/
theorem Reaches.weight_lt (h : Reaches c ls c') (hlt : c.position < c'.position) :
    c'.weight < c.weight := by
  have hposition := h.position_add
  have hweight := h.weight_add
  cases ls with
  | nil =>
    rw [hposition] at hlt
    exact absurd hlt (Nat.lt_irrefl _)
  | cons l ls =>
    have := weighLexemes_lt_cons l ls
    omega

end Cursor

/-- Whether a run ended for want of a token or of a step. -/
def Failure.isStuck : Failure → Bool
  | pastEnd | outOfSteps => true
  | _ => false

theorem Failure.isStuck_of_isSyntactic {f : Failure} (h : f.isSyntactic = true) :
    f.isStuck = false := by
  cases f <;> first | rfl | cases h

theorem Failure.isStuck_of_isApart {f : Failure} (h : f.isApart = true) : f.isStuck = false := by
  cases f <;> first | rfl | cases h

theorem Ty.lexemes_ne_nil {t : Ty} (h : t.isDeclarable = true) : t.lexemes ≠ [] := by
  cases t with
  | any => cases h
  | _ => exact List.cons_ne_nil _ _

namespace Parse

/-! ## §2. Steps -/

/-- An operation that may take `n` steps at every level. -/
def Operation.inSteps (o : Options) : (op : Operation) → (n : Nat) → ParseM op.Given
  | program, n => do
    let p ← topStmts o n n
    note o (.parsed p.length (← get).env.functions.length)
    return p
  | statement, n => stmt o n
  | statements, n => block o (stmt o n) n []
  | expression, n => onCursor (expr n)
  | typeName, n => onCursor (type n)

/-- What is read for one statement, one expression or one type is not empty. -/
def Operation.isItem : Operation → Bool
  | statement | expression | typeName => true
  | program | statements => false

theorem Read.position_lt {s t : State} {ts : List Token} (h : Read s ts t) (hts : ts ≠ []) :
    s.cursor.position < t.cursor.position := by
  have hbefore : t.cursor.before.reverse = s.cursor.before.reverse ++ ts := h
  have hlength := congrArg List.length hbefore
  have hpos := List.length_pos_iff.mpr hts
  rw [List.length_append, List.length_reverse, List.length_reverse] at hlength
  rw [Cursor.position, Cursor.position]
  omega

/-- A checked run is stuck only where the unchecked one is. -/
theorem Shadows.notStuck {α : Type} {m off : ParseM α} (h : Shadows m off) {s : State}
    {Q : α → State → Prop} (hoff : Ends off s Q fun f _ => f.isSyntactic = true) :
    Ends m s (fun _ _ => True) fun f _ => f.isStuck = false := by
  have hends := h s s rfl
  revert hends hoff
  unfold Ends
  generalize m s = r, off s = r'
  intro hoff hends
  cases hends with
  | ok hcursor => exact trivial
  | error hcursor => exact Failure.isStuck_of_isSyntactic hoff
  | stopped hf => exact Failure.isStuck_of_isApart hf

section
variable (o : Options) (op : Operation) (s : State)

/-- With more steps than are left to read, the number of them makes no difference. -/
theorem Operation.inSteps_eq {n : Nat} (hn : s.cursor.weight < n) :
    op.inSteps o n s = op.read o s := by
  cases op with
  | program =>
    have hrun : withSteps (fun n => topStmts o n n) s = topStmts o n n s :=
      withSteps_eq (fun s n => topStmts_hasSteps o s) (fun _ _ hle => topStmts_local o hle hle) hn
    show _ = Parse.program o s
    unfold Parse.program inSteps
    show EStateM.bind _ _ s = EStateM.bind _ _ s
    rw [EStateM.bind, EStateM.bind, hrun]
  | statement =>
    exact (withSteps_eq (fun s n => stmt_hasSteps o s) (fun _ _ hle => stmt_local o hle) hn).symm
  | statements =>
    exact (withSteps_eq (fun s n hn => block_hasSteps o s hn [])
      (fun _ _ hle => stmtBlock_congr (stmts_local o) hle []) hn).symm
  | expression =>
    exact (withSteps_eq (fun s n => expr_hasSteps s) (fun _ _ hle => (expr_local hle).lift)
      hn).symm
  | typeName =>
    exact (withSteps_eq (fun s n => type_hasSteps s) (fun _ _ hle => (type_local hle).lift)
      hn).symm

/-- With more steps than are left to read, neither steps nor tokens are wanting. -/
theorem Operation.inSteps_notStuck {n : Nat} (hn : s.cursor.weight < n) :
    Ends (op.inSteps o n) s (fun _ _ => True) fun f _ => f.isStuck = false := by
  have hsteps := weighLexemes_lt_steps s hn
  -- steps and tokens are wanting in a checked run only where they are in its shadow
  have hoff := checked_unchecked o
  have hstmt : ReadsStmt n (stmt (unchecked o) n) := stmt_sound hoff n
  cases op with
  | program =>
    have hnoted : ∀ (p : Program) t, Ends (do
        note o (.parsed p.length (← get).env.functions.length)
        return p : ParseM Program) t (fun _ _ => True) fun f _ => f.isStuck = false := by
      intro p t
      rw [ends_bind, ends_get, ends_bind]
      exact ends_note fun _ => trivial
    exact ((topStmts_shadows o n n).notStuck (topStmts_sound hoff n n s hsteps hsteps)).bind
      fun p t _ => hnoted p t
  | statement => exact (stmt_shadows o n).notStuck (hstmt s hsteps)
  | statements =>
    exact (stmtBlock_shadows o n []).notStuck
      (block_sound hoff hstmt n [] s hsteps hsteps)
  | expression =>
    exact ends_onCursor.mpr ((expr_sound n s.cursor hsteps).mono (fun _ _ _ => trivial)
      fun _ _ => Failure.isStuck_of_isSyntactic)
  | typeName =>
    exact ends_onCursor.mpr ((type_sound n s.cursor hsteps).mono (fun _ _ _ => trivial)
      fun _ _ => Failure.isStuck_of_isSyntactic)

/-! ## §3. Moves -/

/-- Whatever is read, the cursor is moved by reading and by splitting tokens only. -/
theorem Operation.inSteps_reaches (n : Nat) :
    Ends (op.inSteps o n) s (fun _ t => ∃ ls, s.cursor.Reaches ls t.cursor)
      fun _ t => ∃ ls, s.cursor.Reaches ls t.cursor := by
  have hsupplies := supplies_reached s.cursor
  -- every cursor in a run is drawn from the first by the moves that readers make
  have hdraws : Draws (fun c => ∃ ls, s.cursor.Reaches ls c)
      (Blamed fun t => ∃ u ∈ s.cursor.tokens, u.pos = t.pos) (op.inSteps o n) fun _ => True := by
    cases op with
    | program =>
      unfold inSteps
      apply (topStmts_draws hsupplies o (fun _ _ he => he) n n).bind
      intro p _
      apply get_draws.bind
      intro t _
      exact (note_draws o _).bind fun _ _ => draws_pure trivial
    | statement =>
      exact fun t ht => (stmt_draws hsupplies o (fun _ _ he => he) n t ht).weaken
        fun _ _ h => ⟨trivial, h.2⟩
    | statements =>
      exact block_draws hsupplies o (fun _ _ he => he)
        (stmt_draws hsupplies o (fun _ _ he => he) n) n []
    | expression =>
      exact lift_draws fun c hc => (expr_draws hsupplies n c hc).weaken fun _ _ h => ⟨trivial, h.2⟩
    | typeName => exact lift_draws (type_draws hsupplies n)
  exact (hdraws s ⟨[], .refl⟩).mono (fun _ _ h => h.2) fun _ _ h => h.1

/-- For a statement, an expression or a type at least one token is read. -/
theorem Operation.inSteps_reads (hitem : op.isItem = true) (n : Nat) :
    Ends (op.inSteps o n) s (fun _ t => s.cursor.position < t.cursor.position)
      fun _ _ => True := by
  cases op with
  | program => cases hitem
  | statements => cases hitem
  | statement =>
    apply (stmt_ends o n s).mono
    · rintro a t ⟨ts, hread, ha⟩
      exact hread.position_lt (Stmt.first_of_withSemicolon ha).ne_nil
    · exact fun _ _ _ => trivial
  | expression =>
    apply Ends.mono ((expr_takes n).lift s)
    · rintro e t ⟨ts, hread, he⟩
      exact hread.position_lt he.first.ne_nil
    · exact fun _ _ _ => trivial
  | typeName =>
    have hdeclarable : Ends (liftM (type n) : ParseM Ty) s
        (fun ty _ => ty.isDeclarable = true) fun _ _ => True :=
      ends_lift.mpr (type_declarable n s.cursor)
    apply Ends.mono (((type_takes n).lift s).and hdeclarable)
    · rintro ty t ⟨⟨ts, hread, hty⟩, hdeclarable⟩
      -- a type that could be declared is written with a word at least
      refine hread.position_lt ?_
      rintro rfl
      exact Ty.lexemes_ne_nil hdeclarable hty.symm
    · exact fun _ _ _ => trivial

/-- **Every operation ends, and reads on.**  From any state, whatever number of steps is
    allowed beyond what is left to read, the same comes out; it is never that the steps are
    not enough, or that a token was to be read where none is left.  However it ends, the cursor
    has gone on and is not past the last token, and for each `>=` that was ahead there is one
    token more at most.  Where a statement, an expression or a type was read, the cursor has
    moved, and less is left to read. -/
theorem operations_progress :
    (∀ k, op.inSteps o (s.cursor.weight + 1 + k) s = op.read o s)
      ∧ ∀ n, Ends (op.inSteps o n) s
          (fun _ t => s.cursor.Onward t.cursor ∧ (op.isItem = true →
            s.cursor.position < t.cursor.position ∧ t.cursor.weight < s.cursor.weight))
          fun f t => s.cursor.Onward t.cursor ∧ (f.isStuck = true → n ≤ s.cursor.weight) := by
  refine ⟨fun k => op.inSteps_eq o s (by omega), fun n => ?_⟩
  have hreaches := op.inSteps_reaches o s n
  cases hrun : op.inSteps o n s with
  | ok a t =>
    obtain ⟨ls, hreach⟩ := hreaches.of_ok hrun
    refine (ends_ok hrun).mpr ⟨hreach.onward, fun hitem => ?_⟩
    have hlt := (op.inSteps_reads o s hitem n).of_ok hrun
    exact ⟨hlt, hreach.weight_lt hlt⟩
  | error f t =>
    obtain ⟨ls, hreach⟩ := hreaches.of_error hrun
    -- had there been steps enough, the run would not be stuck
    refine (ends_error hrun).mpr ⟨hreach.onward, fun hstuck => Nat.le_of_not_lt fun hn => ?_⟩
    rw [(op.inSteps_notStuck o s hn).of_error hrun] at hstuck
    cases hstuck

end

end Parse
end Lumen
