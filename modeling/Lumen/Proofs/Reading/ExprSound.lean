/-
  Lumen.Proofs.Reading.ExprSound — expressions are read as they are written.

  Whatever a reader of expressions gives, the lexemes it has read are those of
  the result, and the result is levelled.  A reader that does not fail for a
  reason of grammar does not fail at all: there is one more step than the
  lexemes that are left weigh, and every step reads one.

  The readers of the levels are all built alike, so each is shown to read its
  level if the next one reads the next level.

  Main statements:
    * `JoinsAt` — a level is known by its operators;
    * `type_sound` — types;
    * `leftAssoc_sound` … `primary_sound` — level by level;
    * `expr_sound` — expressions.
-/
import Lumen.Parse.Ty
import Lumen.Parse.Expr
import Lumen.Proofs.Grammar.Spelling
import Lumen.Proofs.Reading.Ends

namespace Lumen

/-- Whether an error is one of grammar.  The type of a loop variable is part of
    the grammar. -/
def ParseError.isSyntactic : ParseError → Bool
  | unexpected _ _ | unknownStatement _ | strayTerminator _ | mismatch _ _ _ _ => true
  | _ => false

/-- A run that ended with an error of grammar. -/
def Failure.isSyntactic : Failure → Bool
  | error e => e.isSyntactic
  | _ => false

namespace Parse
open CursorM Cursor

/-! ## §1. The operators of a level -/

/-- Whether a class of operators is that of some level. -/
def JoinsAt (k : Nat) (join? : Lexeme → Option Join) : Prop :=
  ∀ l j, join? l = some j ↔
    ∃ op : Operator, op.level = k ∧ op.lexeme = l ∧ j = fun lhs rhs => op.node lhs.pos lhs rhs

theorem ofMark?_eq_some {m : Mark} {op : BinaryOp} :
    BinaryOp.ofMark? m = some op ↔ op.mark = m := by
  constructor
  · intro h
    unfold BinaryOp.ofMark? at h
    simpa using List.find?_some h
  · rintro rfl
    exact BinaryOp.ofMark?_mark op

theorem binaryJoin?_eq_some {ok : BinaryOp → Bool} {l : Lexeme} {j : Join} :
    binaryJoin? ok l = some j ↔
      ∃ op, ok op = true ∧ .mark op.mark = l ∧ j = fun lhs rhs => .binary lhs.pos op lhs rhs := by
  unfold binaryJoin?
  constructor
  · intro h
    split at h
    · next m =>
      obtain ⟨op, hop, rfl⟩ := Option.map_eq_some_iff.mp h
      obtain ⟨hmark, hok⟩ := Option.filter_eq_some_iff.mp hop
      exact ⟨op, hok, by rw [ofMark?_eq_some.mp hmark], rfl⟩
    · cases h
  · rintro ⟨op, hok, rfl, rfl⟩
    refine Option.map_eq_some_iff.mpr ⟨op, Option.filter_eq_some_iff.mpr ⟨?_, hok⟩, rfl⟩
    exact BinaryOp.ofMark?_mark op

theorem logicalJoin?_eq_some {op : LogicalOp} {l : Lexeme} {j : Join} :
    logicalJoin? op l = some j ↔
      .word op.word = l ∧ j = fun lhs rhs => .logical lhs.pos op lhs rhs := by
  unfold logicalJoin?
  constructor
  · intro h
    split at h
    · next w =>
      split at h
      · next hw =>
        cases h
        exact ⟨by rw [hw], rfl⟩
      · cases h
    · cases h
  · rintro ⟨rfl, rfl⟩
    exact if_pos rfl

/-- A class of binary operators is that of a level if it holds just those. -/
theorem binaryJoin?_joinsAt {ok : BinaryOp → Bool} {k : Nat}
    (hok : ∀ op, ok op = true ↔ (Operator.binary op).level = k)
    (hlogical : ∀ op, (Operator.logical op).level ≠ k) : JoinsAt k (binaryJoin? ok) := by
  intro l j
  rw [binaryJoin?_eq_some]
  constructor
  · rintro ⟨op, h, hl, hj⟩
    exact ⟨.binary op, (hok op).mp h, hl, hj⟩
  · rintro ⟨op | op, h, hl, hj⟩
    · exact ⟨op, (hok op).mpr h, hl, hj⟩
    · exact absurd h (hlogical op)

theorem logicalJoin?_joinsAt {op : LogicalOp} {k : Nat}
    (hlevel : ∀ op' : Operator, op'.level = k ↔ op' = .logical op) :
    JoinsAt k (logicalJoin? op) := by
  intro l j
  rw [logicalJoin?_eq_some]
  constructor
  · rintro ⟨hl, hj⟩
    exact ⟨.logical op, (hlevel _).mpr rfl, hl, hj⟩
  · rintro ⟨op', h, hl, hj⟩
    obtain rfl := (hlevel op').mp h
    exact ⟨hl, hj⟩

theorem or_joinsAt : JoinsAt 1 (logicalJoin? .or) :=
  logicalJoin?_joinsAt fun op => by rcases op with op | op <;> cases op <;> simp [Operator.level]

theorem and_joinsAt : JoinsAt 2 (logicalJoin? .and) :=
  logicalJoin?_joinsAt fun op => by rcases op with op | op <;> cases op <;> simp [Operator.level]

theorem comparison_joinsAt : JoinsAt 3 (binaryJoin? BinaryOp.isComparison) :=
  binaryJoin?_joinsAt (fun op => by cases op <;> decide) fun op => by cases op <;> decide

theorem additive_joinsAt : JoinsAt 4 (binaryJoin? BinaryOp.isAdditive) :=
  binaryJoin?_joinsAt (fun op => by cases op <;> decide) fun op => by cases op <;> decide

theorem multiplicative_joinsAt : JoinsAt 5 (binaryJoin? BinaryOp.isMultiplicative) :=
  binaryJoin?_joinsAt (fun op => by cases op <;> decide) fun op => by cases op <;> decide

section
variable {op : Operator} {k : Nat} {lhs rhs : Expr} (p : Pos)

/-- The operand on the left of an operator may have its level. -/
theorem levelled_left (hk : op.level = k) (hassoc : k ≠ 3) (hlhs : lhs.isLevelled = true)
    (hlevel : k ≤ lhs.level) (hrhs : rhs.isLevelled = true) (hrlevel : k + 1 ≤ rhs.level) :
    (op.node p lhs rhs).isLevelled = true ∧ k ≤ (op.node p lhs rhs).level := by
  have hleft : op.leftLevel = k := by rw [Operator.leftLevel, hk, if_neg hassoc]
  have hnode : (op.node p lhs rhs).level = k := (Expr.level_node op p lhs rhs).trans hk
  exact ⟨(Expr.isLevelled_node op p lhs rhs).mpr ⟨⟨hlhs, hleft ▸ hlevel⟩, hrhs, hk ▸ hrlevel⟩,
    Nat.le_of_eq hnode.symm⟩

/-- Both operands of a comparison are stronger. -/
theorem levelled_comparison (hop : op.level = 3) (hlhs : lhs.isLevelled = true)
    (hlevel : 4 ≤ lhs.level) (hrhs : rhs.isLevelled = true) (hrlevel : 4 ≤ rhs.level) :
    (op.node p lhs rhs).isLevelled = true ∧ 3 ≤ (op.node p lhs rhs).level := by
  have hleft : op.leftLevel = 4 := by rw [Operator.leftLevel, if_pos hop]
  have hnode : (op.node p lhs rhs).level = 3 := (Expr.level_node op p lhs rhs).trans hop
  exact ⟨(Expr.isLevelled_node op p lhs rhs).mpr ⟨⟨hlhs, hleft ▸ hlevel⟩, hrhs, hop ▸ hrlevel⟩,
    Nat.le_of_eq hnode.symm⟩

end

/-! ## §2. Types -/

/-- A type is read as it is written, or the `>=` that closes it has been split
    and the `=` is left. -/
theorem type_sound (steps : Nat) (c : Cursor) (hsteps : weighLexemes c.lexemes < steps) :
    Ends (type steps) c
      (fun t c' => t.isDeclarable = true ∧ (c.lexemes = t.lexemes ++ c'.lexemes
        ∨ ∃ elem rest, t = .list elem ∧ c'.lexemes = .mark .equal :: rest
          ∧ c.lexemes = .word .list :: .mark .lt :: (elem.lexemes ++ .mark .ge :: rest)))
      fun f _ => f.isSyntactic = true := by
  induction steps generalizing c with
  | zero => exact absurd hsteps (Nat.not_lt_zero _)
  | succ steps ih =>
    unfold type
    rw [ends_bind, ends_lexeme?]
    split
    -- a list type, the type of its elements, and what closes it
    · next hlist =>
      rw [ends_bind]
      refine ends_advance hlist ?_
      intro t c₁ _ h₁
      rw [ends_bind]
      refine ends_mark .lt (fun c₂ h₂ => ?_) fun _ => rfl
      have hweigh : weighLexemes c₂.lexemes < steps := by
        rw [h₁, h₂] at hsteps
        have := weighLexemes_lt_cons (.mark .lt) c₂.lexemes
        have := weighLexemes_lt_cons (.word .list) (.mark .lt :: c₂.lexemes)
        omega
      apply (ih c₂ hweigh).bind
      rintro elem c₃ ⟨hdecl, h₃⟩
      rw [ends_bind, ends_modify, ends_bind]
      refine ends_mark .gt (fun c₄ h₄ => ?_) fun _ => rfl
      rw [lexemes_splitGe] at h₄
      refine ⟨hdecl, ?_⟩
      rcases h₃ with h₃ | ⟨inner, rest, -, h₃, -⟩
      · split at h₄
        · next rest hge =>
          -- the `>=` closes this very type
          refine .inr ⟨elem, rest, rfl, (List.cons.inj h₄).2.symm, ?_⟩
          rw [h₁, h₂, h₃, hge]
        · refine .inl ?_
          rw [h₁, h₂, h₃, h₄, Ty.lexemes]
          simp
      -- an inner type has left an `=`, which closes nothing
      · rw [h₃] at h₄
        cases h₄
    · next l _ hl =>
      split
      · next t ht =>
        rw [ends_bind]
        refine ends_advance hl ?_
        intro _ c₁ _ h₁
        obtain ⟨hdecl, hlex⟩ := Ty.lexemes_of_ofLexeme? ht
        exact ⟨hdecl, .inl (by rw [h₁, hlex]; rfl)⟩
      · rfl
    · rfl

/-! ## §3. Levels

A reader of a level reads the lexemes of some levelled expression of that level
or a stronger one, provided that what is left to read weighs less than `n`. -/

/-- Whether a reader reads the expressions of a level. -/
def ReadsLevel (k n : Nat) (m : CursorM Expr) : Prop :=
  ∀ c, weighLexemes c.lexemes < n →
    Ends m c
      (fun e c' => c.lexemes = e.lexemes ++ c'.lexemes ∧ e.isLevelled = true ∧ k ≤ e.level)
      fun f _ => f.isSyntactic = true

section
variable {k n : Nat} {join? : Lexeme → Option Join} {operand : CursorM Expr}

/-- The operands that follow belong to the expression read so far. -/
theorem chain_sound (hjoin : JoinsAt k join?) (hassoc : k ≠ 3) (hop : ReadsLevel (k + 1) n operand)
    (steps : Nat) (lhs : Expr) (c : Cursor) (hlhs : lhs.isLevelled = true) (hlevel : k ≤ lhs.level)
    (hsteps : weighLexemes c.lexemes < steps) (hn : weighLexemes c.lexemes < n) :
    Ends (chain join? operand steps lhs) c
      (fun e c' => lhs.lexemes ++ c.lexemes = e.lexemes ++ c'.lexemes
        ∧ e.isLevelled = true ∧ k ≤ e.level)
      fun f _ => f.isSyntactic = true := by
  induction steps generalizing lhs c with
  | zero => exact absurd hsteps (Nat.not_lt_zero _)
  | succ steps ih =>
    unfold chain
    rw [ends_bind]
    refine ends_select? join? (fun l join c₁ h₁ hl => ?_) fun _ => ⟨rfl, hlhs, hlevel⟩
    -- the expression so far is the left operand of what is read on
    obtain ⟨op, hopk, rfl, rfl⟩ := (hjoin l join).mp hl
    have hlt₁ := weighLexemes_lt_of_cons h₁
    apply (hop c₁ (Nat.lt_trans hlt₁ hn)).bind
    rintro rhs c₂ ⟨h₂, hrhs, hrlevel⟩
    have hle₂ := weighLexemes_le_of_append h₂
    obtain ⟨hnode, hk⟩ := levelled_left lhs.pos hopk hassoc hlhs hlevel hrhs hrlevel
    apply (ih (op.node lhs.pos lhs rhs) c₂ hnode hk (by omega) (by omega)).weaken
    rintro e c' ⟨h', hpost⟩
    refine ⟨?_, hpost⟩
    rw [← h', Expr.lexemes_node, h₁, h₂]
    simp

theorem leftAssoc_sound (hjoin : JoinsAt k join?) (hassoc : k ≠ 3)
    (hop : ReadsLevel (k + 1) n operand) : ReadsLevel k n (leftAssoc join? operand n) := by
  intro c hn
  apply (hop c hn).bind
  rintro lhs c₁ ⟨h₁, hlhs, hlevel⟩
  have hle := weighLexemes_le_of_append h₁
  apply (chain_sound hjoin hassoc hop n lhs c₁ hlhs (by omega) (by omega) (by omega)).weaken
  rintro e c' ⟨h', hpost⟩
  refine ⟨?_, hpost⟩
  rw [h₁, h']

theorem nonAssoc_sound (hjoin : JoinsAt 3 join?) (hop : ReadsLevel 4 n operand) :
    ReadsLevel 3 n (nonAssoc join? operand) := by
  intro c hn
  apply (hop c hn).bind
  rintro lhs c₁ ⟨h₁, hlhs, hlevel⟩
  have hle := weighLexemes_le_of_append h₁
  rw [ends_bind]
  refine ends_select? join? (fun l join c₂ h₂ hl => ?_) fun _ => ⟨h₁, hlhs, by omega⟩
  obtain ⟨op, hop3, rfl, rfl⟩ := (hjoin l join).mp hl
  have hlt := weighLexemes_lt_of_cons h₂
  apply (hop c₂ (by omega)).bind
  rintro rhs c₃ ⟨h₃, hrhs, hrlevel⟩
  refine ⟨?_, levelled_comparison lhs.pos hop3 hlhs hlevel hrhs hrlevel⟩
  rw [h₁, h₂, h₃, Expr.lexemes_node]
  simp

theorem signed_sound (hop : ReadsLevel 7 n operand) (steps : Nat) (c : Cursor)
    (hsteps : weighLexemes c.lexemes < steps) (hn : weighLexemes c.lexemes < n) :
    Ends (signed operand steps) c
      (fun e c' => c.lexemes = e.lexemes ++ c'.lexemes ∧ e.isLevelled = true ∧ 6 ≤ e.level)
      fun f _ => f.isSyntactic = true := by
  induction steps generalizing c with
  | zero => exact absurd hsteps (Nat.not_lt_zero _)
  | succ steps ih =>
    unfold signed
    rw [ends_bind, ends_isAt]
    split
    · next hminus =>
      rw [ends_bind]
      refine ends_advance (eq_of_beq hminus) ?_
      intro t c₁ _ h₁
      have hlt := weighLexemes_lt_of_cons h₁
      apply (ih c₁ (by omega) (by omega)).bind
      rintro e c₂ ⟨h₂, he, hlevel⟩
      refine ⟨by rw [h₁, h₂]; rfl, ?_, Nat.le_refl 6⟩
      rw [Expr.isLevelled, he, decide_eq_true hlevel]
      rfl
    · apply (hop c hn).weaken
      rintro e c' ⟨h', he, hlevel⟩
      exact ⟨h', he, by omega⟩

end

/-! ## §4. What stands by itself -/

section
variable {n : Nat} {expr : CursorM Expr} (hexpr : ReadsLevel 1 n expr)
include hexpr

theorem listed_sound (close : Mark) (steps : Nat) (c : Cursor)
    (hsteps : weighLexemes c.lexemes < steps) (hn : weighLexemes c.lexemes < n) :
    Ends (listed close expr steps) c
      (fun es c' => c.lexemes = Expr.listLexemes es ++ .mark close :: c'.lexemes
        ∧ Expr.areLevelled es = true ∧ es ≠ [])
      fun f _ => f.isSyntactic = true := by
  induction steps generalizing c with
  | zero => exact absurd hsteps (Nat.not_lt_zero _)
  | succ steps ih =>
    unfold listed
    apply (hexpr c hn).bind
    rintro e c₁ ⟨h₁, he, _⟩
    have hle := weighLexemes_le_of_append h₁
    rw [ends_bind]
    refine ends_accept (.mark .comma) (fun c₂ h₂ => ?_) fun _ => ?_
    · have hlt := weighLexemes_lt_of_cons h₂
      rw [if_pos rfl, ends_bind, ends_isAt]
      split
      -- no comma stands before the closing mark
      · rfl
      · apply (ih c₂ (by omega) (by omega)).bind
        rintro es c₃ ⟨h₃, hes, hne⟩
        refine ⟨?_, by rw [Expr.areLevelled, he, hes]; rfl, List.cons_ne_nil e es⟩
        rw [h₁, h₂, h₃, Expr.listLexemes_cons e hne]
        simp
    · rw [if_neg Bool.false_ne_true, ends_bind]
      refine ends_mark close (fun c₂ h₂ => ?_) fun _ => rfl
      exact ⟨by rw [h₁, h₂]; rfl, by rw [Expr.areLevelled, he]; rfl, List.cons_ne_nil e []⟩

theorem arguments_sound (close : Mark) (steps : Nat) (c : Cursor)
    (hsteps : weighLexemes c.lexemes < steps) (hn : weighLexemes c.lexemes < n) :
    Ends (arguments close expr steps) c
      (fun es c' => c.lexemes = Expr.listLexemes es ++ .mark close :: c'.lexemes
        ∧ Expr.areLevelled es = true)
      fun f _ => f.isSyntactic = true := by
  unfold arguments
  rw [ends_bind]
  refine ends_accept (.mark close) (fun c₁ h₁ => ⟨h₁, rfl⟩) ?_
  intro _
  apply (listed_sound hexpr close steps c hsteps hn).weaken
  rintro es c' ⟨h', hes, -⟩
  exact ⟨h', hes⟩

theorem indices_sound (steps : Nat) (c : Cursor)
    (hsteps : weighLexemes c.lexemes < steps) (hn : weighLexemes c.lexemes < n) :
    Ends (indices expr steps) c
      (fun es c' => c.lexemes = Expr.indexLexemes es ++ c'.lexemes ∧ Expr.areLevelled es = true)
      fun f _ => f.isSyntactic = true := by
  induction steps generalizing c with
  | zero => exact absurd hsteps (Nat.not_lt_zero _)
  | succ steps ih =>
    unfold indices
    rw [ends_bind]
    refine ends_accept (.mark .lbracket) (fun c₁ h₁ => ?_) fun _ => ⟨rfl, rfl⟩
    have hlt₁ := weighLexemes_lt_of_cons h₁
    apply (hexpr c₁ (by omega)).bind
    rintro e c₂ ⟨h₂, he, _⟩
    have hle₂ := weighLexemes_le_of_append h₂
    rw [ends_bind]
    refine ends_mark .rbracket (fun c₃ h₃ => ?_) fun _ => rfl
    have hlt₃ := weighLexemes_lt_of_cons h₃
    apply (ih c₃ (by omega) (by omega)).bind
    rintro es c₄ ⟨h₄, hes⟩
    refine ⟨?_, by rw [Expr.areLevelled, he, hes]; rfl⟩
    rw [h₁, h₂, h₃, h₄, Expr.indexLexemes]
    simp

/-- What follows a name, read as a call, a method call or an element. -/
theorem named_sound (steps : Nat) (pos : Pos) (name : Bytes) (c : Cursor)
    (hsteps : weighLexemes c.lexemes < steps) (hn : weighLexemes c.lexemes < n) :
    Ends (named expr steps pos name) c
      (fun e c' => .ident name :: c.lexemes = e.lexemes ++ c'.lexemes
        ∧ e.isLevelled = true ∧ e.isNamed = true)
      fun f _ => f.isSyntactic = true := by
  unfold named
  rw [ends_bind]
  refine ends_accept (.mark .lparen) (fun c₁ h₁ => ?_) fun _ => ?_
  · have hlt := weighLexemes_lt_of_cons h₁
    rw [if_pos rfl]
    apply (arguments_sound hexpr .rparen steps c₁ (by omega) (by omega)).bind
    rintro args c₂ ⟨h₂, hargs⟩
    refine ⟨?_, hargs, rfl⟩
    rw [h₁, h₂, Expr.lexemes]
    simp
  · rw [if_neg Bool.false_ne_true]
    -- no call: a path of indices, and a method at the end of it if there is a dot
    apply (indices_sound hexpr steps c hsteps hn).bind
    rintro path c₁ ⟨h₁, hpath⟩
    have hle₁ := weighLexemes_le_of_append h₁
    rw [ends_bind]
    refine ends_accept (.mark .dot) (fun c₂ h₂ => ?_) fun _ => ⟨by rw [h₁]; rfl, hpath, rfl⟩
    have hlt₂ := weighLexemes_lt_of_cons h₂
    rw [if_pos rfl, ends_bind]
    refine ends_identifier .methodName (fun m c₃ h₃ => ?_) fun _ => rfl
    have hlt₃ := weighLexemes_lt_of_cons h₃
    rw [ends_bind]
    refine ends_mark .lparen (fun c₄ h₄ => ?_) fun _ => rfl
    have hlt₄ := weighLexemes_lt_of_cons h₄
    apply (arguments_sound hexpr .rparen steps c₄ (by omega) (by omega)).bind
    rintro args c₅ ⟨h₅, hargs⟩
    refine ⟨?_, by rw [Expr.isLevelled, hpath, hargs]; rfl, rfl⟩
    rw [h₁, h₂, h₃, h₄, h₅, Expr.lexemes]
    simp

theorem primary_sound (steps : Nat) (hsteps : n ≤ steps) :
    ReadsLevel 7 (n + 1) (primary expr steps) := by
  intro c hn
  unfold primary
  rw [ends_bind, ends_lexeme?]
  split
  · next v hl =>
    rw [ends_bind]
    refine ends_advance hl ?_
    intro t c₁ _ h₁
    exact ⟨h₁, rfl, Nat.le_refl 7⟩
  · next name hl =>
    rw [ends_bind]
    refine ends_advance hl ?_
    intro t c₁ _ h₁
    have hlt := weighLexemes_lt_of_cons h₁
    apply (named_sound hexpr steps t.pos name c₁ (by omega) (by omega)).weaken
    rintro e c' ⟨h', he, hnamed⟩
    exact ⟨h₁.trans h', he, Nat.le_of_eq (Expr.level_of_isNamed hnamed).symm⟩
  · next hl =>
    rw [ends_bind]
    refine ends_advance hl ?_
    intro t c₁ _ h₁
    have hlt := weighLexemes_lt_of_cons h₁
    apply (hexpr c₁ (by omega)).bind
    rintro inner c₂ ⟨h₂, hinner, _⟩
    rw [ends_bind]
    refine ends_mark .rparen (fun c₃ h₃ => ?_) fun _ => rfl
    refine ⟨?_, hinner, Nat.le_refl 7⟩
    rw [h₁, h₂, h₃, Expr.lexemes]
    simp
  · next hl =>
    rw [ends_bind]
    refine ends_advance hl ?_
    intro t c₁ _ h₁
    have hlt := weighLexemes_lt_of_cons h₁
    apply (arguments_sound hexpr .rbracket steps c₁ (by omega) (by omega)).bind
    rintro es c₂ ⟨h₂, hes⟩
    refine ⟨?_, hes, Nat.le_refl 7⟩
    rw [h₁, h₂, Expr.lexemes]
    simp
  · rfl

end

/-! ## §5. Expressions -/

theorem expr_sound (n : Nat) : ReadsLevel 1 n (expr n) := by
  induction n with
  | zero => exact fun c hn => absurd hn (Nat.not_lt_zero _)
  | succ n ih =>
    -- from the strongest level to the weakest
    have hprimary : ReadsLevel 7 (n + 1) (primary (expr n) (n + 1)) :=
      primary_sound ih (n + 1) (Nat.le_succ n)
    have hsigned : ReadsLevel 6 (n + 1) (signed (primary (expr n) (n + 1)) (n + 1)) :=
      fun c hn => signed_sound hprimary (n + 1) c hn hn
    have hmul := leftAssoc_sound multiplicative_joinsAt (by decide) hsigned
    have hadd := leftAssoc_sound additive_joinsAt (by decide) hmul
    have hcomp := nonAssoc_sound comparison_joinsAt hadd
    have hand := leftAssoc_sound and_joinsAt (by decide) hcomp
    exact leftAssoc_sound or_joinsAt (by decide) hand

end Parse
end Lumen
