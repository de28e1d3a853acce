/-
  Lumen.Proofs.Checking.Unchecked — runs without checking see no environment.

  With checking off no scope is entered, nothing is declared, stored or looked up,
  and no type is asked for.  So two parsers at the same place of the same tokens
  do the same whatever is declared around them, and leave that as it is.

  What stops them is grammar: a token that was not wanted, one that starts no
  statement, or the end of a block that is not open.  There is one type in the
  grammar, that of a loop variable.  Any type is read there, and one that is not
  `int` is then rejected, at its first token.

  Main statements:
    * `GrammarError` — the errors of grammar, and where the cursor stands then;
    * `loopType_unjudged` — the type of a loop variable;
    * `stmt_unjudged` — no other type is rejected by a reader of statements;
    * `Bystanding` — a parse of which environments are bystanders;
    * `unchecked_runs` — every parse without checking is one.
-/
import Lumen.Proofs.Checking.Inline
import Lumen.Proofs.Checking.Paired
import Lumen.Proofs.Reading.Rereads
import Lumen.Proofs.Reading.Prefix

namespace Lumen.Parse
open CursorM Cursor

/-! ## §1. Errors of grammar -/

/-- The errors that are found where a cursor stands if nothing is checked.  The type of a
    loop variable has just been read when it is rejected. -/
inductive GrammarError (c : Cursor) : ParseError → Prop
  | unexpected (expected : Expected) (met : Option Token) :
    GrammarError c (.unexpected expected met)
  | unknownStatement (met : Token) : GrammarError c (.unknownStatement met)
  | strayTerminator (met : Token) : GrammarError c (.strayTerminator met)
  | loopType {front rest : List Token} {first : Token} {earlier : List Lexeme} {var : Bytes}
      {ty : Ty} (hread : c.before.reverse = front ++ first :: rest)
      (hfront : front.map Token.lexeme = earlier ++ [.word .for_, .ident var, .mark .colon])
      (htype : (first :: rest).map Token.lexeme = ty.lexemes) (hdecl : ty.isDeclarable = true)
      (hint : ty ≠ .int) : GrammarError c (.mismatch var (.type .int) (.type ty) first.pos)

/-- What is no matter of types, but of grammar, is one of the first three. -/
theorem grammarError_of_not_static {c : Cursor} {f : Failure} (hsyntactic : f.isSyntactic = true)
    (hstatic : f.isStatic = false) : ∃ e, f = .error e ∧ GrammarError c e := by
  cases f with
  | error e =>
    cases e with
    | unexpected expected met => exact ⟨_, rfl, .unexpected expected met⟩
    | unknownStatement met => exact ⟨_, rfl, .unknownStatement met⟩
    | strayTerminator met => exact ⟨_, rfl, .strayTerminator met⟩
    | mismatch name wanted got pos => cases hstatic
    | _ => cases hsyntactic
  | _ => cases hsyntactic

/-! ## §2. Readers that ask for no types

Readers of tokens do not compare types, but for the one that reads the type of a loop
variable. -/

section
variable {σ α β : Type} [HasCursor σ]

/-- From some state a reader does not fail for a matter of types, unless it is that of a
    loop variable. -/
def UnjudgedAt (m : EStateM Failure σ α) (s : σ) : Prop :=
  Ends m s (fun _ _ => True) fun f t =>
    f.isStatic = false ∨ ∃ e, f = .error e ∧ GrammarError (HasCursor.cursor t) e

/-- A reader that does not fail so anywhere. -/
def Unjudged (m : EStateM Failure σ α) : Prop := ∀ s, UnjudgedAt m s

theorem unjudged_pure (a : α) : Unjudged (pure a : EStateM Failure σ α) := fun _ => trivial

theorem unjudged_throw {f : Failure} (hf : f.isStatic = false) :
    Unjudged (throw f : EStateM Failure σ α) := fun _ => .inl hf

theorem Unjudged.bind {m : EStateM Failure σ α} {k : α → EStateM Failure σ β} (hm : Unjudged m)
    (hk : ∀ a, Unjudged (k a)) : Unjudged (m >>= k) :=
  fun s => (hm s).bind fun a t _ => hk a t

end

section
variable {α : Type}

theorem Repeats.unjudged {m m' : CursorM α} (h : Repeats m m') : Unjudged m :=
  fun c => (h c c rfl).mono (fun _ _ _ => trivial) fun _ _ hf => .inl hf

theorem Rereads.unjudged {k : Nat} {m m' : CursorM α} (h : Rereads k m m') : Unjudged m :=
  h.repeats.unjudged

theorem unjudgedAt_lift {m : CursorM α} {s : State} (hm : UnjudgedAt m s.cursor) :
    UnjudgedAt (liftM m : ParseM α) s := ends_lift.mpr hm

theorem unjudged_lift {m : CursorM α} (hm : Unjudged m) : Unjudged (liftM m : ParseM α) :=
  fun s => unjudgedAt_lift (hm s.cursor)

theorem expr_unjudged (steps : Nat) : Unjudged (liftM (expr steps) : ParseM Expr) :=
  unjudged_lift (expr_rereads steps steps).unjudged

theorem type_unjudged (steps : Nat) : Unjudged (liftM (type steps) : ParseM Ty) :=
  unjudged_lift (type_repeats steps steps).unjudged

theorem advance_unjudged : Unjudged (liftM advance : ParseM Token) :=
  unjudged_lift advance_rereads.unjudged

theorem mark_unjudged (m : Mark) : Unjudged (liftM (mark m) : ParseM Unit) :=
  unjudged_lift (mark_rereads m).unjudged

theorem word_unjudged (w : Word) : Unjudged (liftM (word w) : ParseM Unit) :=
  unjudged_lift (word_rereads w).unjudged

theorem identifier_unjudged (expected : Expected) :
    Unjudged (liftM (identifier expected) : ParseM Bytes) :=
  unjudged_lift (identifier_rereads expected).unjudged

theorem accept_unjudged {l : Lexeme} (hl : l ≠ .word .end_) :
    Unjudged (liftM (accept l) : ParseM Bool) :=
  unjudged_lift (accept_rereads hl).unjudged

/-- Looking at the cursor does not fail at all. -/
theorem look_unjudged {m : CursorM α} {look : Option Token → α} (hm : Looks m look) :
    Unjudged (liftM m : ParseM α) :=
  unjudged_lift fun c => (ends_ok (hm c)).mpr trivial

end

/-- After `for`, a name and a colon, a type that is not `int` is rejected where it has been
    read. -/
theorem loopType_unjudged (steps : Nat) (var : Bytes) {c : Cursor} {earlier : List Lexeme}
    (hbefore : c.before.reverse.map Token.lexeme
      = earlier ++ [.word .for_, .ident var, .mark .colon]) :
    UnjudgedAt (loopType steps var) c := by
  unfold loopType UnjudgedAt
  rw [ends_bind, ends_token?]
  split
  · exact (advance_rereads.unjudged).bind (fun _ => unjudged_pure ()) c
  · next l pos hint ht =>
    have hcurrent : c.current? = some ⟨l, pos⟩ := (Option.filter_eq_some_iff.mp ht).1
    split
    · next hmarker =>
      have htype := (type_viable (X := fun _ => False) steps).viableAt c
      refine ends_bind.mpr ((htype.and ((type_repeats steps steps).unjudged c)).mono ?_ ?_)
      · intro ty c' h
        obtain ⟨⟨ls, hreach, rfl, hdecl⟩, -⟩ := h
        have hls : ty.lexemes ≠ [] := by cases ty <;> simp [Ty.lexemes, Ty.isDeclarable] at hdecl ⊢
        obtain ⟨first, rest, hread, hpos, hsame⟩ := hreach.first hcurrent hls
        have hfirst : first = ⟨l, pos⟩ := by
          apply hsame
          rintro rfl
          cases hmarker
        have hwritten : (first :: rest).map Token.lexeme = ty.lexemes := by
          have hall := hreach.before
          rw [hread, List.map_append] at hall
          exact List.append_cancel_left hall
        right
        refine ⟨_, rfl, ?_⟩
        show GrammarError c' (.mismatch var (.type .int) (.type ty) pos)
        rw [show pos = first.pos from hpos.symm]
        refine .loopType hread hbefore hwritten hdecl ?_
        -- the first lexeme of the type is not `int`
        rintro rfl
        have hl : l = .word .int := by
          rw [hfirst] at hwritten
          exact (List.cons.inj hwritten).1
        exact hint hl
      · exact fun f c' h => h.2
    · exact .inl rfl
  · exact .inl rfl

/-! ## §3. Statements -/

section
variable {o : Options} (hoff : o.checked = false)
include hoff

theorem checking_unjudged {α : Type} (check : Env → Except ParseError α) :
    Unjudged (checking o check) := fun _ => (ends_checking_off hoff check).mpr trivial

theorem updating_unjudged (change : Env → Except ParseError Env) : Unjudged (updating o change) :=
  fun _ => (ends_updating_off hoff change).mpr trivial

section
variable {stmt : ParseM Stmt} (hstmt : Unjudged stmt)
include hstmt

theorem stmts_unjudged (steps : Nat) : Unjudged (stmts o stmt steps) := by
  induction steps with
  | zero => exact unjudged_throw rfl
  | succ steps ih =>
    have hends : Unjudged blockEnds := fun _ => ends_blockEnds.mpr trivial
    unfold stmts
    apply (unjudged_lift hends).bind
    intro ends
    split
    · exact unjudged_pure []
    · apply hstmt.bind
      intro a
      apply (updating_unjudged hoff _).bind
      intro _
      exact ih.bind fun rest => unjudged_pure (a :: rest)

theorem block_unjudged (steps : Nat) (locals : List Param) :
    Unjudged (block o stmt steps locals) := by
  have hpos : Unjudged blockPos := fun _ => trivial
  unfold block
  rw [inScope_off hoff]
  apply (unjudged_lift hpos).bind
  intro pos
  exact (stmts_unjudged hoff hstmt steps).bind fun body => unjudged_pure _

theorem elseBlock_unjudged (steps : Nat) : Unjudged (elseBlock o stmt steps) := by
  unfold elseBlock
  apply (accept_unjudged (by decide)).bind
  intro isElse
  split
  · exact (block_unjudged hoff hstmt steps []).bind fun b => unjudged_pure (some b)
  · exact unjudged_pure none

theorem ifStmt_unjudged (steps : Nat) : Unjudged (ifStmt o stmt steps) := by
  unfold ifStmt
  apply advance_unjudged.bind
  intro t
  apply (expr_unjudged steps).bind
  intro cond
  apply (checking_unjudged hoff _).bind
  intro _
  apply (block_unjudged hoff hstmt steps []).bind
  intro then_
  apply (elseBlock_unjudged hoff hstmt steps).bind
  intro else_
  exact (word_unjudged _).bind fun _ => unjudged_pure _

theorem whileStmt_unjudged (steps : Nat) : Unjudged (whileStmt o stmt steps) := by
  unfold whileStmt
  apply advance_unjudged.bind
  intro t
  apply (expr_unjudged steps).bind
  intro cond
  apply (checking_unjudged hoff _).bind
  intro _
  apply (block_unjudged hoff hstmt steps []).bind
  intro body
  exact (word_unjudged _).bind fun _ => unjudged_pure _

/-- The tokens up to the colon are followed, as they tell where the type stands. -/
theorem forStmt_unjudged (steps : Nat) {s : State}
    (hhead : s.cursor.lexeme? = some (.word .for_)) : UnjudgedAt (forStmt o stmt steps) s := by
  unfold forStmt
  refine ends_bind.mpr (ends_lift.mpr ((advance_reaches hhead).mono ?_ fun _ _ h => h.elim))
  intro t c₁ h₁
  have hidentifier := ((viable_identifier (X := fun _ => False) .loopVariable).viableAt c₁).and
    ((identifier_rereads .loopVariable).unjudged c₁)
  refine ends_bind.mpr (ends_lift.mpr (hidentifier.mono ?_ fun _ _ h => h.2))
  intro var c₂ h₂
  obtain ⟨⟨_, h₂, rfl⟩, -⟩ := h₂
  have hcolon := ((viable_mark (X := fun _ => False) .colon).viableAt c₂).and
    ((mark_rereads .colon).unjudged c₂)
  refine ends_bind.mpr (ends_lift.mpr (hcolon.mono ?_ fun _ _ h => h.2))
  intro _ c₃ h₃
  obtain ⟨⟨_, h₃, rfl⟩, -⟩ := h₃
  have hbefore := (h₁.2.trans (h₂.trans h₃)).before
  apply Ends.bind (unjudgedAt_lift (loopType_unjudged steps var hbefore))
  intro _ s₄ _
  -- from here on no type is rejected
  refine Unjudged.bind (mark_unjudged _) (fun _ => ?_) s₄
  apply (expr_unjudged steps).bind
  intro start
  apply (mark_unjudged _).bind
  intro _
  apply (expr_unjudged steps).bind
  intro stop
  apply (checking_unjudged hoff _).bind
  intro _
  apply (block_unjudged hoff hstmt steps _).bind
  intro body
  exact (word_unjudged _).bind fun _ => unjudged_pure _

theorem fnStmt_unjudged (steps : Nat) : Unjudged (fnStmt o stmt steps) := by
  unfold fnStmt
  apply advance_unjudged.bind
  intro t
  apply (identifier_unjudged _).bind
  intro name
  apply (unjudged_lift (params_rereads steps steps).unjudged).bind
  intro ps
  apply (block_unjudged hoff hstmt steps ps).bind
  intro body
  exact (word_unjudged _).bind fun _ => unjudged_pure _

end

theorem letStmt_unjudged (steps : Nat) : Unjudged (letStmt o steps) := by
  unfold letStmt
  apply advance_unjudged.bind
  intro t
  apply (identifier_unjudged _).bind
  intro name
  apply (mark_unjudged _).bind
  intro _
  apply (type_unjudged steps).bind
  intro ty
  apply (mark_unjudged _).bind
  intro _
  apply (expr_unjudged steps).bind
  intro init
  exact (checking_unjudged hoff _).bind fun _ => unjudged_pure _

theorem printStmt_unjudged (steps : Nat) : Unjudged (printStmt o steps) := by
  unfold printStmt
  apply advance_unjudged.bind
  intro t
  apply (expr_unjudged steps).bind
  intro value
  exact (checking_unjudged hoff _).bind fun _ => unjudged_pure _

theorem returnStmt_unjudged (steps : Nat) : Unjudged (returnStmt o steps) := by
  have hends : Unjudged blockEnds := fun _ => ends_blockEnds.mpr trivial
  unfold returnStmt
  apply advance_unjudged.bind
  intro t
  apply (unjudged_lift hends).bind
  intro ends
  apply (look_unjudged (isAt_looks _)).bind
  intro semicolon
  split
  · exact unjudged_pure _
  · apply (expr_unjudged steps).bind
    intro value
    exact (checking_unjudged hoff _).bind fun _ => unjudged_pure _

theorem nameStmt_unjudged (steps : Nat) (name : Bytes) : Unjudged (nameStmt o steps name) := by
  unfold nameStmt
  apply advance_unjudged.bind
  intro t
  have hnamed := named_rereads (expr_rereads steps steps) steps steps t.pos name
  apply (unjudged_lift hnamed.unjudged).bind
  intro target
  apply (look_unjudged (isAt_looks _)).bind
  intro isStore
  split
  · split
    · apply (mark_unjudged _).bind
      intro _
      apply (expr_unjudged steps).bind
      intro value
      exact (updating_unjudged hoff _).bind fun _ => unjudged_pure _
    · exact unjudged_lift (rereads_unexpected _ 0 (unexpected .endOfStatement)).unjudged
  · exact (checking_unjudged hoff _).bind fun _ => unjudged_pure _

theorem bareStmt_unjudged {stmt : ParseM Stmt} (hstmt : Unjudged stmt) (steps : Nat) :
    Unjudged (bareStmt o stmt steps) := by
  intro s
  unfold bareStmt UnjudgedAt
  rw [ends_bind, ends_lift, ends_token?]
  split
  · exact .inl rfl
  · next t ht =>
    have hhead : s.cursor.lexeme? = some t.lexeme := congrArg (Option.map Token.lexeme) ht
    split
    · exact letStmt_unjudged hoff steps s
    · exact printStmt_unjudged hoff steps s
    · exact ifStmt_unjudged hoff hstmt steps s
    · exact whileStmt_unjudged hoff hstmt steps s
    · next hl => exact forStmt_unjudged hoff hstmt steps (hl ▸ hhead)
    · exact fnStmt_unjudged hoff hstmt steps s
    · exact returnStmt_unjudged hoff steps s
    · exact nameStmt_unjudged hoff steps _ s
    · exact .inl rfl
    · exact .inl rfl
    · exact .inl rfl

/-- No reader of statements rejects a type, but for that of a loop variable. -/
theorem stmt_unjudged (steps : Nat) : Unjudged (stmt o steps) := by
  induction steps with
  | zero => exact unjudged_throw rfl
  | succ steps ih =>
    rw [stmt_succ]
    apply (bareStmt_unjudged hoff ih (steps + 1)).bind
    intro a
    exact (accept_unjudged (by decide)).bind fun _ => unjudged_pure a

theorem topStmts_unjudged (n steps : Nat) : Unjudged (topStmts o n steps) := by
  induction steps with
  | zero => exact unjudged_throw rfl
  | succ steps ih =>
    unfold topStmts
    apply (look_unjudged token?_looks).bind
    intro t?
    split
    · exact unjudged_pure []
    · have hnote : ∀ e, Unjudged (note o e) := fun e s => ends_note fun _ => trivial
      apply (hnote _).bind
      intro _
      apply (stmt_unjudged hoff n).bind
      intro a
      rw [enactTop_off hoff]
      apply (unjudged_pure ()).bind
      intro _
      exact ih.bind fun p => unjudged_pure (a :: p)

end

/-! ## §4. Parses without checking -/

/-- A parse of which environments are bystanders: two runs of it, one of them next to any
    other environment, come to the same end at the same place and leave both
    environments as they were; and if they fail, it is for a reason of grammar. -/
def Bystanding {α : Type} (m m' : ParseM α) (s s' : State) : Prop :=
  EndAlike (fun a b => a = s.env ∧ b = s'.env) (fun a b => a = s.env ∧ b = s'.env) (m s) (m' s')
    ∧ Ends m s (fun _ _ => True) fun f t => ∃ e, f = .error e ∧ GrammarError t.cursor e

section
variable {α : Type} {s s' : State}

/-- There is a step more than what is left to read weighs. -/
theorem ends_withSteps {read : Nat → ParseM α} {Q : α → State → Prop} {E : Failure → State → Prop}
    (h : ∀ n, weighLexemes s.cursor.lexemes < n → Ends (read n) s Q E) :
    Ends (withSteps read) s Q E :=
  h (s.cursor.weight + 1) (Nat.lt_succ_of_le s.cursor.weighLexemes_lexemes_le)

theorem withSteps_unjudged {read : Nat → ParseM α} (h : ∀ n, Unjudged (read n)) :
    Unjudged (withSteps read) := fun s => h _ s

/-- What goes together next to any environments, and fails for grammar only. -/
theorem bystanding_of {m m' : ParseM α} (hpairs : ∀ R : Nat → Env → Env → Prop, Pairs R 0 0 m m')
    (hunjudged : Unjudged m)
    (hsound : Ends m s (fun _ _ => True) fun f _ => f.isSyntactic = true)
    (hcursor : s.cursor = s'.cursor) : Bystanding m m' s s' := by
  constructor
  · apply (hpairs (fun _ a b => a = s.env ∧ b = s'.env) s s' hcursor ⟨rfl, rfl⟩).weaken
    · exact fun _ _ h => h
    · intro a b h
      obtain ⟨_, h⟩ := h
      exact h
  · apply ((hunjudged s).and hsound).mono
    · exact fun _ _ _ => trivial
    · intro f t h
      obtain ⟨hstatic | hloop, hsyntactic⟩ := h
      · exact grammarError_of_not_static hsyntactic hstatic
      · exact hloop

end

/-- **Without checking, a parse is a matter of grammar.**  From the same place of the same
    tokens, next to any two environments, two parsers read the same or fail with the
    same error, come to the same place, and leave both environments as they were.  They
    fail only for a token that was not wanted, one that starts no statement, the end of
    a block that is not open, or the type of a loop variable that is not `int`. -/
theorem unchecked_runs {o o' : Options} (hoff : o.checked = false) (hoff' : o'.checked = false)
    {s s' : State} (hcursor : s.cursor = s'.cursor) :
    Bystanding (program o) (program o') s s'
      ∧ Bystanding (statement o) (statement o') s s'
      ∧ Bystanding (statements o) (statements o') s s'
      ∧ Bystanding expression expression s s'
      ∧ Bystanding typeName typeName s s' := by
  have hsame : o.checked = o'.checked := hoff.trans hoff'.symm
  have hpaired : ∀ R, o.checked = true → Paired R := by
    intro R hon
    rw [hoff] at hon
    cases hon
  have hnote : ∀ e, Unjudged (note o e) := fun e _ => ends_note fun _ => trivial
  -- each time: two runs go together, no type is judged, and a run that fails has read badly
  refine ⟨?_, ?_, ?_, ?_, ?_⟩
  · refine bystanding_of (fun R => program_pairs hsame (hpaired R)) ?_ ?_ hcursor
    · apply (withSteps_unjudged fun n => topStmts_unjudged hoff n n).bind
      intro p t
      exact hnote _ t |>.bind fun _ _ _ => trivial
    · exact (program_sound hoff s).weaken fun _ _ _ => trivial
  · refine bystanding_of (fun R => statement_pairs hsame (hpaired R)) ?_ ?_ hcursor
    · exact withSteps_unjudged (stmt_unjudged hoff)
    · exact ends_withSteps fun n hn => (stmt_sound hoff n s hn).weaken fun _ _ _ => trivial
  · refine bystanding_of (fun R => statements_pairs hsame (hpaired R)) ?_ ?_ hcursor
    · exact withSteps_unjudged fun n => block_unjudged hoff (stmt_unjudged hoff n) n []
    · exact ends_withSteps fun n hn =>
        (block_sound hoff (stmt_sound hoff n) n [] s hn hn).weaken fun _ _ _ => trivial
  · refine bystanding_of (fun R => expression_pairs) ?_ ?_ hcursor
    · exact withSteps_unjudged expr_unjudged
    · exact ends_withSteps fun n hn =>
        ends_lift.mpr ((expr_sound n s.cursor hn).weaken fun _ _ _ => trivial)
  · refine bystanding_of (fun R => typeName_pairs) ?_ ?_ hcursor
    · exact withSteps_unjudged type_unjudged
    · exact ends_withSteps fun n hn =>
        ends_lift.mpr ((type_sound n s.cursor hn).weaken fun _ _ _ => trivial)

/-- `for x: float = 1 .. 2 end` is rejected by the grammar, and no less so where `x` is
    already a string. -/
theorem unchecked_runs_floatLoop :
    let off : Options := { checked := false, trace := false }
    let env : Env := ⟨⟨[], [(ascii "x", ⟨.string, .unknown⟩)]⟩, []⟩
    off.checked = false ∧ ∃ e t t', whole off floatLoop = .error (.error e) t
      ∧ program off { cursor := .ofTokens floatLoop, env } = .error (.error e) t'
      ∧ t.env = .empty ∧ t'.env = env ∧ GrammarError t.cursor e := by
  intro off env
  obtain ⟨f, t, hrun⟩ : ∃ f t, whole off floatLoop = .error f t :=
    Ends.fails (by decide +kernel)
  obtain ⟨⟨halike, hends⟩, -⟩ := @unchecked_runs off off rfl rfl
    { cursor := .ofTokens floatLoop } { cursor := .ofTokens floatLoop, env } rfl
  obtain ⟨e, rfl, he⟩ := hends.of_error hrun
  refine ⟨rfl, e, t, ?_⟩
  have hwhole : program off { cursor := .ofTokens floatLoop } = .error (.error e) t := hrun
  rw [hwhole] at halike
  generalize hother : program off { cursor := .ofTokens floatLoop, env } = r at halike
  cases halike with
  | @error _ _ t' hcursor henv => exact ⟨t', hrun, rfl, henv.1, henv.2, he⟩

end Lumen.Parse
