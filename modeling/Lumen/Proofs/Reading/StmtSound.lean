/-
  Lumen.Proofs.Reading.StmtSound — programs are read as they are written.

  Without checking, a reader of statements moves the cursor and nothing else.
  As with expressions, what it has read is a spelling of what it gives, and it
  fails for a reason of grammar or not at all.

  A reader of blocks is given the reader of statements that is one step shorter;
  so the statements of a block are read by induction on the steps.

  Main statements:
    * `Stmt.weigh_lt_of_spells` — a statement is written with at least one lexeme;
    * `stmts_sound` / `block_sound` — blocks;
    * `letStmt_sound` … `nameStmt_sound` — the kinds of statements;
    * `stmt_sound` / `topStmts_sound` — statements and programs.
-/
import Lumen.Parse.Stmt
import Lumen.Proofs.Reading.ExprSound

namespace Lumen

open Cursor

/-! ## §1. Spellings get shorter -/

namespace Stmt

theorem weigh_le_of_allSpell_of {ss : List Stmt}
    (h : ∀ s ∈ ss, ∀ ls rest, s.Spells ls rest → weighLexemes rest < weighLexemes ls)
    {ls rest : List Lexeme} (hspell : AllSpell ss ls rest) :
    weighLexemes rest ≤ weighLexemes ls := by
  induction ss generalizing ls with
  | nil =>
    rw [AllSpell] at hspell
    exact Nat.le_of_eq (congrArg weighLexemes hspell.symm)
  | cons s ss ih =>
    obtain ⟨hhead, htail⟩ := List.forall_mem_cons.mp h
    rw [AllSpell] at hspell
    obtain ⟨mid, next, hs, hnext, hss⟩ := hspell
    have hlt := hhead ls mid hs
    have hle := ih htail hss
    rcases hnext with rfl | rfl
    · omega
    -- a semicolon after the statement weighs something too
    · have := weighLexemes_lt_cons (.mark .semicolon) next
      omega

/-- A statement is written with at least one lexeme. -/
theorem weigh_lt_of_spells (s : Stmt) (ls rest : List Lexeme) (h : s.Spells ls rest) :
    weighLexemes rest < weighLexemes ls := by
  induction s generalizing ls rest with
  | expr p e =>
    rw [Spells] at h
    obtain ⟨hnamed, rfl⟩ := h
    -- an expression by itself starts with a name
    obtain ⟨name, ls, hls⟩ := Expr.exists_lexemes_of_isNamed hnamed
    rw [hls]
    simp [weighLexemes_cons]
    omega
  | assign p name indices value =>
    rw [Spells] at h
    rw [h]
    simp [weighLexemes_cons]
    omega
  | let_ p name type init =>
    rw [Spells] at h
    obtain ⟨-, head, -, rfl⟩ := h
    simp [weighLexemes_cons]
    omega
  | print p value =>
    rw [Spells] at h
    rw [h]
    simp [weighLexemes_cons]
    omega
  | if_ p cond q ss else_ ih ih' =>
    rcases else_ with _ | ⟨q', others⟩
    · rw [Spells] at h
      obtain ⟨body, rfl, hbody⟩ := h
      have hle := weigh_le_of_allSpell_of ih hbody
      simp [weighLexemes_cons] at hle ⊢
      omega
    · rw [Spells] at h
      obtain ⟨body, other, rfl, hbody, hother⟩ := h
      have hle := weigh_le_of_allSpell_of ih hbody
      have hle' := weigh_le_of_allSpell_of (ih' _ rfl) hother
      simp [weighLexemes_cons] at hle hle' ⊢
      omega
  | while_ p cond q ss ih =>
    rw [Spells] at h
    obtain ⟨body, rfl, hbody⟩ := h
    have hle := weigh_le_of_allSpell_of ih hbody
    simp [weighLexemes_cons] at hle ⊢
    omega
  | for_ p var start stop q ss ih =>
    rw [Spells] at h
    obtain ⟨body, rfl, hbody⟩ := h
    have hle := weigh_le_of_allSpell_of ih hbody
    simp [weighLexemes_cons] at hle ⊢
    omega
  | fn p name params q ss ih =>
    rw [Spells] at h
    obtain ⟨-, body, rfl, hbody⟩ := h
    have hle := weigh_le_of_allSpell_of ih hbody
    simp [weighLexemes_cons] at hle ⊢
    omega
  | return_ p value =>
    cases value with
    | none =>
      rw [Spells] at h
      rw [h.2]
      exact weighLexemes_lt_cons _ _
    | some e =>
      rw [Spells] at h
      rw [h]
      simp [weighLexemes_cons]
      omega

/-- A statement and the semicolon after it are written with at least one
    lexeme. -/
theorem weigh_next_lt {s : Stmt} {ls mid next : List Lexeme} (h : s.Spells ls mid)
    (hnext : mid = next ∨ mid = .mark .semicolon :: next) :
    weighLexemes next < weighLexemes ls := by
  have hlt := s.weigh_lt_of_spells ls mid h
  rcases hnext with rfl | rfl
  · exact hlt
  · exact Nat.lt_trans (weighLexemes_lt_cons _ next) hlt

theorem weigh_le_of_allSpell {ss : List Stmt} {ls rest : List Lexeme} (h : AllSpell ss ls rest) :
    weighLexemes rest ≤ weighLexemes ls :=
  weigh_le_of_allSpell_of (fun s _ => s.weigh_lt_of_spells) h

end Stmt

namespace Parse
open CursorM

/-! ## §2. Blocks -/

/-- Whether a reader of statements reads a statement and the semicolon after it,
    if what is left to read weighs less than `n`. -/
def ReadsStmt (n : Nat) (m : ParseM Stmt) : Prop :=
  ∀ s, weighLexemes s.cursor.lexemes < n →
    Ends m s
      (fun a t => ∃ mid, a.Spells s.cursor.lexemes mid
        ∧ (mid = t.cursor.lexemes ∨ mid = .mark .semicolon :: t.cursor.lexemes)
        ∧ a.isLevelled = true)
      fun f _ => f.isSyntactic = true

/-- Whether a block ends where some lexemes are left. -/
def closes (ls : List Lexeme) : Bool :=
  match ls.head? with
  | none => true
  | some l => l == .word .end_ || l == .word .else_

theorem ends_blockEnds {Q : Bool → Cursor → Prop} {E : Failure → Cursor → Prop} {c : Cursor} :
    Ends blockEnds c Q E ↔ Q (closes c.lexemes) c := by
  unfold blockEnds closes
  rw [ends_bind, ends_lexeme?]
  cases c.lexemes.head? <;> exact Iff.rfl

section
variable {o : Options} (hoff : o.checked = false) {n : Nat} {stmt : ParseM Stmt}
  (hstmt : ReadsStmt n stmt)
include hoff hstmt

theorem stmts_sound (steps : Nat) (s : State) (hsteps : weighLexemes s.cursor.lexemes < steps)
    (hn : weighLexemes s.cursor.lexemes < n) :
    Ends (stmts o stmt steps) s
      (fun ss t => Stmt.AllSpell ss s.cursor.lexemes t.cursor.lexemes
        ∧ Stmt.areLevelled ss = true)
      fun f _ => f.isSyntactic = true := by
  induction steps generalizing s with
  | zero => exact absurd hsteps (Nat.not_lt_zero _)
  | succ steps ih =>
    unfold stmts
    rw [ends_bind, ends_lift, ends_blockEnds]
    split
    · exact ⟨rfl, rfl⟩
    · apply (hstmt s hn).bind
      rintro a t ⟨mid, hspell, hmid, hlevel⟩
      rw [ends_bind, ends_updating_off hoff]
      have hlt := Stmt.weigh_next_lt hspell hmid
      apply (ih t (by omega) (by omega)).bind
      rintro ss t' ⟨hss, hlevels⟩
      exact ⟨⟨mid, _, hspell, hmid, hss⟩, by rw [Stmt.areLevelled, hlevel, hlevels]; rfl⟩

theorem block_sound (steps : Nat) (locals : List Param) (s : State)
    (hsteps : weighLexemes s.cursor.lexemes < steps) (hn : weighLexemes s.cursor.lexemes < n) :
    Ends (block o stmt steps locals) s
      (fun b t => ∃ pos ss, b = .mk pos ss
        ∧ Stmt.AllSpell ss s.cursor.lexemes t.cursor.lexemes ∧ Stmt.areLevelled ss = true)
      fun f _ => f.isSyntactic = true := by
  unfold block
  rw [inScope_off hoff, ends_bind, ends_lift]
  apply (stmts_sound hoff hstmt steps s hsteps hn).bind
  rintro ss t ⟨hss, hlevels⟩
  exact ⟨_, ss, rfl, hss, hlevels⟩

end

/-! ## §3. Single lexemes

Reading one lexeme in the midst of a statement.  Of the state after it only the
lexemes that are left count. -/

/-- A reader of tokens as a step of a reader of statements. -/
theorem ends_read {α β : Type} {m : CursorM α} {k : α → ParseM β} {s : State}
    {P : α → Cursor → Prop} {Q : β → State → Prop} {F : Failure → Prop}
    (h : Ends m s.cursor P fun f _ => F f)
    (hk : ∀ a t, P a t.cursor → Ends (k a) t Q fun f _ => F f) :
    Ends (liftM m >>= k) s Q fun f _ => F f :=
  (ends_lift.mpr (h.mono (fun a c hp => hk a { s with cursor := c } hp) fun _ _ he => he)).bind
    fun _ _ he => he

section
variable {c : Cursor}

theorem advance_sound {l : Lexeme} (h : c.lexemes.head? = some l) :
    Ends advance c (fun _ c' => c.lexemes = l :: c'.lexemes) fun f _ => f.isSyntactic = true :=
  ends_advance h fun _ _ _ h' => h'

theorem mark_sound (m : Mark) :
    Ends (mark m) c (fun _ c' => c.lexemes = .mark m :: c'.lexemes)
      fun f _ => f.isSyntactic = true :=
  ends_mark m (fun _ h => h) fun _ => rfl

theorem word_sound (w : Word) :
    Ends (word w) c (fun _ c' => c.lexemes = .word w :: c'.lexemes)
      fun f _ => f.isSyntactic = true :=
  ends_word w (fun _ h => h) fun _ => rfl

theorem identifier_sound (expected : Expected) :
    Ends (identifier expected) c (fun name c' => c.lexemes = .ident name :: c'.lexemes)
      fun f _ => f.isSyntactic = true :=
  ends_identifier expected (fun _ _ h => h) fun _ => rfl

end

/-! ## §4. The kinds of statements

Each starts with the lexeme that tells it, and has one step more than the
statements of its blocks. -/

section
variable {o : Options} (hoff : o.checked = false) {n : Nat} {s : State}
include hoff

theorem letStmt_sound (hhead : s.cursor.lexemes.head? = some (.word .let_))
    (hn : weighLexemes s.cursor.lexemes < n) :
    Ends (letStmt o n) s
      (fun a t => a.Spells s.cursor.lexemes t.cursor.lexemes ∧ a.isLevelled = true)
      fun f _ => f.isSyntactic = true := by
  unfold letStmt
  refine ends_read (advance_sound hhead) ?_
  intro t s₁ h₁
  refine ends_read (identifier_sound _) ?_
  intro name s₂ h₂
  refine ends_read (mark_sound _) ?_
  intro _ s₃ h₃
  have hlt₁ := weighLexemes_lt_of_cons h₁
  have hlt₂ := weighLexemes_lt_of_cons h₂
  have hlt₃ := weighLexemes_lt_of_cons h₃
  refine ends_read (type_sound n _ (by omega)) ?_
  rintro ty s₄ ⟨hdecl, h₄⟩
  refine ends_read (mark_sound _) ?_
  intro _ s₅ h₅
  -- the type and the `=` after it, however they are written
  obtain ⟨head, hhead, h₅⟩ : ∃ head, ty.HeadsValue head
      ∧ s₃.cursor.lexemes = head ++ s₅.cursor.lexemes := by
    rcases h₄ with h₄ | ⟨elem, rest, rfl, h₄, h₃'⟩
    · exact ⟨_, .apart ty, by rw [h₄, h₅]; simp⟩
    · rw [h₅] at h₄
      obtain ⟨-, rfl⟩ := List.cons.inj h₄
      exact ⟨_, .joined elem, by rw [h₃']; simp⟩
  have hle₅ := weighLexemes_le_of_append h₅
  refine ends_read (expr_sound n _ (by omega)) ?_
  rintro init s₆ ⟨h₆, hinit, _⟩
  rw [ends_bind, ends_checking_off hoff]
  exact ⟨⟨hdecl, head, hhead, by rw [h₁, h₂, h₃, h₅, h₆]⟩, hinit⟩

theorem printStmt_sound (hhead : s.cursor.lexemes.head? = some (.word .print))
    (hn : weighLexemes s.cursor.lexemes < n) :
    Ends (printStmt o n) s
      (fun a t => a.Spells s.cursor.lexemes t.cursor.lexemes ∧ a.isLevelled = true)
      fun f _ => f.isSyntactic = true := by
  unfold printStmt
  refine ends_read (advance_sound hhead) ?_
  intro t s₁ h₁
  have hlt₁ := weighLexemes_lt_of_cons h₁
  refine ends_read (expr_sound n _ (by omega)) ?_
  rintro value s₂ ⟨h₂, hvalue, _⟩
  rw [ends_bind, ends_checking_off hoff]
  exact ⟨by rw [h₁, h₂]; rfl, hvalue⟩

theorem returnStmt_sound (hhead : s.cursor.lexemes.head? = some (.word .return_))
    (hn : weighLexemes s.cursor.lexemes < n) :
    Ends (returnStmt o n) s
      (fun a t => a.Spells s.cursor.lexemes t.cursor.lexemes ∧ a.isLevelled = true)
      fun f _ => f.isSyntactic = true := by
  unfold returnStmt
  refine ends_read (advance_sound hhead) ?_
  intro t s₁ h₁
  have hlt₁ := weighLexemes_lt_of_cons h₁
  rw [ends_bind, ends_lift, ends_blockEnds, ends_bind, ends_lift, ends_isAt]
  split
  -- where it visibly ends, no value is read
  · next hend =>
    refine ⟨⟨fun l hl => ?_, h₁⟩, rfl⟩
    have hl' : s₁.cursor.lexemes.head? = some l := hl
    simpa [closes, hl', or_assoc] using hend
  · refine ends_read (expr_sound n _ (by show weighLexemes s₁.cursor.lexemes < n; omega)) ?_
    rintro value s₂ ⟨h₂, hvalue, _⟩
    rw [ends_bind, ends_checking_off hoff]
    exact ⟨by rw [h₁, Stmt.Spells]; exact congrArg _ h₂, hvalue⟩

/-- A statement that starts with a name is an assignment or an expression. -/
theorem nameStmt_sound {name : Bytes} (hhead : s.cursor.lexemes.head? = some (.ident name))
    (hn : weighLexemes s.cursor.lexemes < n) :
    Ends (nameStmt o n name) s
      (fun a t => a.Spells s.cursor.lexemes t.cursor.lexemes ∧ a.isLevelled = true)
      fun f _ => f.isSyntactic = true := by
  unfold nameStmt
  refine ends_read (advance_sound hhead) ?_
  intro t s₁ h₁
  have hlt₁ := weighLexemes_lt_of_cons h₁
  refine ends_read (named_sound (expr_sound n) n t.pos name _ (by omega) (by omega)) ?_
  rintro target s₂ ⟨h₂, htarget, hnamed⟩
  rw [ends_bind, ends_lift, ends_isAt]
  split
  -- an `=` makes it an assignment, if what stands before is an element
  · split
    · next p name' path =>
      refine ends_read (mark_sound _) ?_
      intro _ s₃ h₃
      have hle₂ := weighLexemes_le_of_append h₂
      have hlt₂ := weighLexemes_lt_of_cons h₃
      have hlt : weighLexemes s₃.cursor.lexemes < n := by
        rw [← h₁] at hle₂
        exact Nat.lt_trans hlt₂ (Nat.lt_of_le_of_lt hle₂ hn)
      refine ends_read (expr_sound n _ hlt) ?_
      rintro value s₄ ⟨h₄, hvalue, _⟩
      rw [ends_bind, ends_updating_off hoff]
      refine ⟨?_, by rw [Stmt.isLevelled, hvalue]; exact (Bool.and_true _).trans htarget⟩
      have h₃' : s₂.cursor.lexemes = .mark .equal :: s₃.cursor.lexemes := h₃
      rw [h₁, h₂, h₃', h₄]
      rfl
    · exact rfl
  · rw [ends_bind, ends_checking_off hoff]
    exact ⟨⟨hnamed, by rw [h₁, h₂]⟩, htarget⟩

end

/-- The type of a loop variable is `int`, or the loop is rejected. -/
theorem loopType_sound (steps : Nat) (var : Bytes) {c : Cursor}
    (hsteps : weighLexemes c.lexemes < steps) :
    Ends (loopType steps var) c (fun _ c' => c.lexemes = .word .int :: c'.lexemes)
      fun f _ => f.isSyntactic = true := by
  unfold loopType
  rw [ends_bind, ends_token?]
  split
  -- any other type is read, and then rejected
  · next pos ht =>
    have hhead : c.lexemes.head? = some (.word .int) := by rw [← map_token?, ht]; rfl
    rw [ends_bind]
    exact ends_advance hhead fun _ _ _ h => h
  · split
    · exact (type_sound steps c hsteps).bind fun _ _ _ => rfl
    · rfl
  · rfl

/-- Parameters are read as they are written, unless a type was closed by the
    first half of a `>=`; then the other half is left, and nobody wants it. -/
theorem paramList_sound (m steps : Nat) (c : Cursor) (hsteps : weighLexemes c.lexemes < steps)
    (hm : weighLexemes c.lexemes < m) :
    Ends (paramList m steps) c
      (fun ps c' => (∀ p ∈ ps, p.type.isDeclarable = true) ∧ ps ≠ []
        ∧ (c.lexemes = paramLexemes ps ++ c'.lexemes ∨ c'.lexemes.head? = some (.mark .equal)))
      fun f _ => f.isSyntactic = true := by
  induction steps generalizing c with
  | zero => exact absurd hsteps (Nat.not_lt_zero _)
  | succ steps ih =>
    unfold paramList
    apply (identifier_sound _).bind
    intro name c₁ h₁
    apply (mark_sound _).bind
    intro _ c₂ h₂
    have hlt₁ := weighLexemes_lt_of_cons h₁
    have hlt₂ := weighLexemes_lt_of_cons h₂
    apply (type_sound m c₂ (by omega)).bind
    rintro ty c₃ ⟨hdecl, h₃⟩
    rw [ends_bind]
    refine ends_accept _ (fun c₄ h₄ => ?_) fun _ => ?_
    · rw [if_pos rfl, ends_bind, ends_isAt]
      split
      · rfl
      -- a comma follows the type, so no `>=` was split
      · have h₃ : c₂.lexemes = ty.lexemes ++ c₃.lexemes := by
          rcases h₃ with h₃ | ⟨_, _, -, h₃, -⟩
          · exact h₃
          · rw [h₃] at h₄
            cases h₄
        have hle₃ := weighLexemes_le_of_append h₃
        have hlt₄ := weighLexemes_lt_of_cons h₄
        apply (ih c₄ (by omega) (by omega)).bind
        rintro ps c₅ ⟨hps, hne, h₅⟩
        refine ⟨List.forall_mem_cons.mpr ⟨hdecl, hps⟩, List.cons_ne_nil _ ps, ?_⟩
        refine h₅.imp (fun h₅ => ?_) id
        rw [h₁, h₂, h₃, h₄, h₅, paramLexemes_cons _ hne]
        simp
    · rw [if_neg Bool.false_ne_true]
      refine ⟨List.forall_mem_singleton.mpr hdecl, List.cons_ne_nil _ _, ?_⟩
      rcases h₃ with h₃ | ⟨_, _, -, h₃, -⟩
      · exact .inl (by rw [h₁, h₂, h₃]; rfl)
      · exact .inr (by rw [h₃]; rfl)

theorem params_sound (m : Nat) (c : Cursor) (hm : weighLexemes c.lexemes < m) :
    Ends (params m) c
      (fun ps c' => (∀ p ∈ ps, p.type.isDeclarable = true)
        ∧ c.lexemes = .mark .lparen :: (paramLexemes ps ++ .mark .rparen :: c'.lexemes))
      fun f _ => f.isSyntactic = true := by
  unfold params
  apply (mark_sound _).bind
  intro _ c₁ h₁
  have hlt₁ := weighLexemes_lt_of_cons h₁
  rw [ends_bind, ends_isAt]
  split
  · apply (mark_sound _).bind
    intro _ c₂ h₂
    exact ⟨List.forall_mem_nil _, by rw [h₁, h₂]; rfl⟩
  · apply (paramList_sound m m c₁ (by omega) (by omega)).bind
    rintro ps c₂ ⟨hps, _, h₂⟩
    refine (mark_sound _).bind fun _ c₃ h₃ => ⟨hps, ?_⟩
    rcases h₂ with h₂ | h₂
    · rw [h₁, h₂, h₃]
    · rw [h₃] at h₂
      cases h₂

section
variable {o : Options} (hoff : o.checked = false) {n : Nat} {stmt : ParseM Stmt}
  (hstmt : ReadsStmt n stmt) {s : State}
include hoff hstmt

theorem elseBlock_sound (steps : Nat) (hsteps : weighLexemes s.cursor.lexemes < steps)
    (hn : weighLexemes s.cursor.lexemes < n) :
    Ends (elseBlock o stmt steps) s
      (fun b t => (b = none ∧ t.cursor.lexemes = s.cursor.lexemes)
        ∨ ∃ pos ss other, b = some (.mk pos ss) ∧ s.cursor.lexemes = .word .else_ :: other
          ∧ Stmt.AllSpell ss other t.cursor.lexemes ∧ Stmt.areLevelled ss = true)
      fun f _ => f.isSyntactic = true := by
  unfold elseBlock
  rw [ends_bind, ends_lift]
  refine ends_accept _ (fun c₁ h₁ => ?_) fun _ => .inl ⟨rfl, rfl⟩
  have hlt₁ := weighLexemes_lt_of_cons h₁
  rw [if_pos rfl]
  refine (block_sound hoff hstmt steps [] { s with cursor := c₁ } (Nat.lt_trans hlt₁ hsteps)
    (Nat.lt_trans hlt₁ hn)).bind ?_
  rintro b t ⟨pos, ss, hb, hss, hlevels⟩
  exact .inr ⟨pos, ss, _, congrArg some hb, h₁, hss, hlevels⟩

theorem ifStmt_sound (hhead : s.cursor.lexemes.head? = some (.word .if_))
    (hn : weighLexemes s.cursor.lexemes < n + 1) :
    Ends (ifStmt o stmt (n + 1)) s
      (fun a t => a.Spells s.cursor.lexemes t.cursor.lexemes ∧ a.isLevelled = true)
      fun f _ => f.isSyntactic = true := by
  unfold ifStmt
  refine ends_read (advance_sound hhead) ?_
  intro t s₁ h₁
  have hlt₁ := weighLexemes_lt_of_cons h₁
  refine ends_read (expr_sound (n + 1) _ (by omega)) ?_
  rintro cond s₂ ⟨h₂, hcond, _⟩
  have hle₂ := weighLexemes_le_of_append h₂
  rw [ends_bind, ends_checking_off hoff]
  apply (block_sound hoff hstmt (n + 1) [] s₂ (by omega) (by omega)).bind
  rintro b s₃ ⟨pos, ss, hb, hss, hlevels⟩
  subst hb
  -- the block may be empty, so it may weigh nothing
  have hle₃ := Stmt.weigh_le_of_allSpell hss
  apply (elseBlock_sound hoff hstmt (n + 1) (by omega) (by omega)).bind
  intro else_ s₄ h₄
  refine ends_read (word_sound _) ?_
  intro _ s₅ h₅
  rcases h₄ with ⟨rfl, h₄⟩ | ⟨pos', others, other, rfl, h₄, hothers, hlevels'⟩
  · refine ⟨⟨s₂.cursor.lexemes, by rw [h₁, h₂], ?_⟩, ?_⟩
    · rw [← h₅, h₄]
      exact hss
    · rw [Stmt.isLevelled, hcond, hlevels]
      rfl
  · refine ⟨⟨s₂.cursor.lexemes, other, by rw [h₁, h₂], h₄ ▸ hss, h₅ ▸ hothers⟩, ?_⟩
    rw [Stmt.isLevelled, hcond, hlevels, hlevels']
    rfl

theorem whileStmt_sound (hhead : s.cursor.lexemes.head? = some (.word .while_))
    (hn : weighLexemes s.cursor.lexemes < n + 1) :
    Ends (whileStmt o stmt (n + 1)) s
      (fun a t => a.Spells s.cursor.lexemes t.cursor.lexemes ∧ a.isLevelled = true)
      fun f _ => f.isSyntactic = true := by
  unfold whileStmt
  refine ends_read (advance_sound hhead) ?_
  intro t s₁ h₁
  have hlt₁ := weighLexemes_lt_of_cons h₁
  refine ends_read (expr_sound (n + 1) _ (by omega)) ?_
  rintro cond s₂ ⟨h₂, hcond, _⟩
  have hle₂ := weighLexemes_le_of_append h₂
  rw [ends_bind, ends_checking_off hoff]
  apply (block_sound hoff hstmt (n + 1) [] s₂ (by omega) (by omega)).bind
  rintro b s₃ ⟨pos, ss, hb, hss, hlevels⟩
  subst hb
  refine ends_read (word_sound _) ?_
  intro _ s₄ h₄
  refine ⟨⟨s₂.cursor.lexemes, by rw [h₁, h₂], h₄ ▸ hss⟩, ?_⟩
  rw [Stmt.isLevelled, hcond, hlevels]
  rfl

theorem forStmt_sound (hhead : s.cursor.lexemes.head? = some (.word .for_))
    (hn : weighLexemes s.cursor.lexemes < n + 1) :
    Ends (forStmt o stmt (n + 1)) s
      (fun a t => a.Spells s.cursor.lexemes t.cursor.lexemes ∧ a.isLevelled = true)
      fun f _ => f.isSyntactic = true := by
  unfold forStmt
  refine ends_read (advance_sound hhead) ?_
  intro t s₁ h₁
  refine ends_read (identifier_sound _) ?_
  intro var s₂ h₂
  refine ends_read (mark_sound _) ?_
  intro _ s₃ h₃
  have hlt₁ := weighLexemes_lt_of_cons h₁
  have hlt₂ := weighLexemes_lt_of_cons h₂
  have hlt₃ := weighLexemes_lt_of_cons h₃
  refine ends_read (loopType_sound (n + 1) var (by omega)) ?_
  intro _ s₄ h₄
  refine ends_read (mark_sound _) ?_
  intro _ s₅ h₅
  have hlt₄ := weighLexemes_lt_of_cons h₄
  have hlt₅ := weighLexemes_lt_of_cons h₅
  refine ends_read (expr_sound (n + 1) _ (by omega)) ?_
  rintro start s₆ ⟨h₆, hstart, _⟩
  refine ends_read (mark_sound _) ?_
  intro _ s₇ h₇
  have hle₆ := weighLexemes_le_of_append h₆
  have hlt₇ := weighLexemes_lt_of_cons h₇
  refine ends_read (expr_sound (n + 1) _ (by omega)) ?_
  rintro stop s₈ ⟨h₈, hstop, _⟩
  have hle₈ := weighLexemes_le_of_append h₈
  rw [ends_bind, ends_checking_off hoff]
  apply (block_sound hoff hstmt (n + 1) _ s₈ (by omega) (by omega)).bind
  rintro b s₉ ⟨pos, ss, hb, hss, hlevels⟩
  subst hb
  refine ends_read (word_sound _) ?_
  intro _ s₁₀ h₁₀
  refine ⟨⟨s₈.cursor.lexemes, by rw [h₁, h₂, h₃, h₄, h₅, h₆, h₇, h₈], h₁₀ ▸ hss⟩, ?_⟩
  rw [Stmt.isLevelled, hstart, hstop, hlevels]
  rfl

theorem fnStmt_sound (hhead : s.cursor.lexemes.head? = some (.word .fn))
    (hn : weighLexemes s.cursor.lexemes < n + 1) :
    Ends (fnStmt o stmt (n + 1)) s
      (fun a t => a.Spells s.cursor.lexemes t.cursor.lexemes ∧ a.isLevelled = true)
      fun f _ => f.isSyntactic = true := by
  unfold fnStmt
  refine ends_read (advance_sound hhead) ?_
  intro t s₁ h₁
  refine ends_read (identifier_sound _) ?_
  intro name s₂ h₂
  have hlt₁ := weighLexemes_lt_of_cons h₁
  have hlt₂ := weighLexemes_lt_of_cons h₂
  refine ends_read (params_sound (n + 1) _ (by omega)) ?_
  rintro ps s₃ ⟨hps, h₃⟩
  have hlt₃ : weighLexemes s₃.cursor.lexemes < weighLexemes s₂.cursor.lexemes := by
    rw [h₃]
    simp [weighLexemes_cons]
    omega
  apply (block_sound hoff hstmt (n + 1) _ s₃ (by omega) (by omega)).bind
  rintro b s₄ ⟨pos, ss, hb, hss, hlevels⟩
  subst hb
  refine ends_read (word_sound _) ?_
  intro _ s₅ h₅
  exact ⟨⟨hps, s₃.cursor.lexemes, by rw [h₁, h₂, h₃], h₅ ▸ hss⟩, hlevels⟩

/-! ## §5. Statements and programs -/

theorem bareStmt_sound (hn : weighLexemes s.cursor.lexemes < n + 1) :
    Ends (bareStmt o stmt (n + 1)) s
      (fun a t => a.Spells s.cursor.lexemes t.cursor.lexemes ∧ a.isLevelled = true)
      fun f _ => f.isSyntactic = true := by
  unfold bareStmt
  rw [ends_bind, ends_lift, ends_token?]
  split
  · rfl
  · next t ht =>
    have hhead : s.cursor.lexemes.head? = some t.lexeme := by rw [← map_token?, ht]; rfl
    split
    · next hl => exact letStmt_sound hoff (hl ▸ hhead) hn
    · next hl => exact printStmt_sound hoff (hl ▸ hhead) hn
    · next hl => exact ifStmt_sound hoff hstmt (hl ▸ hhead) hn
    · next hl => exact whileStmt_sound hoff hstmt (hl ▸ hhead) hn
    · next hl => exact forStmt_sound hoff hstmt (hl ▸ hhead) hn
    · next hl => exact fnStmt_sound hoff hstmt (hl ▸ hhead) hn
    · next hl => exact returnStmt_sound hoff (hl ▸ hhead) hn
    · next name hl => exact nameStmt_sound hoff (hl ▸ hhead) hn
    · rfl
    · rfl
    · rfl

end

theorem stmt_sound {o : Options} (hoff : o.checked = false) (n : Nat) : ReadsStmt n (stmt o n) := by
  induction n with
  | zero => exact fun s hn => absurd hn (Nat.not_lt_zero _)
  | succ n ih =>
    intro s hn
    rw [stmt_succ]
    -- the statements of its blocks have one step less
    apply (bareStmt_sound hoff ih hn).bind
    rintro a t ⟨hspell, hlevel⟩
    rw [ends_bind, ends_lift]
    exact ends_accept _ (fun c h => ⟨_, hspell, .inr h, hlevel⟩)
      fun _ => ⟨_, hspell, .inl rfl, hlevel⟩

theorem topStmts_sound {o : Options} (hoff : o.checked = false) (n steps : Nat) (s : State)
    (hsteps : weighLexemes s.cursor.lexemes < steps) (hn : weighLexemes s.cursor.lexemes < n) :
    Ends (topStmts o n steps) s
      (fun p _ => p.Spells s.cursor.lexemes ∧ p.isLevelled = true)
      fun f _ => f.isSyntactic = true := by
  induction steps generalizing s with
  | zero => exact absurd hsteps (Nat.not_lt_zero _)
  | succ steps ih =>
    unfold topStmts
    rw [ends_bind, ends_lift, ends_token?]
    split
    · next ht =>
      refine ⟨?_, rfl⟩
      rcases s.cursor.token?_cases with ⟨-, hl⟩ | ⟨t, ht', -⟩
      · exact hl
      · rw [ht] at ht'
        cases ht'
    · rw [ends_bind]
      refine ends_note ?_
      intro trace
      apply (stmt_sound hoff n { s with trace } hn).bind
      rintro a t ⟨mid, hspell, hmid, hlevel⟩
      -- each statement takes something, so there are steps enough for the others
      have hlt := Stmt.weigh_next_lt hspell hmid
      have hle : weighLexemes t.cursor.lexemes < weighLexemes s.cursor.lexemes := hlt
      rw [enactTop_off hoff, ends_bind, ends_pure]
      apply (ih t (by omega) (by omega)).bind
      rintro p t' ⟨hp, hlevels⟩
      refine ⟨⟨mid, _, hspell, hmid, hp⟩, ?_⟩
      show (a.isLevelled && Program.isLevelled p) = true
      rw [hlevel, hlevels]
      rfl

/-- A program is read as it is written; where there is none to read, the reason
    is one of grammar. -/
theorem program_sound {o : Options} (hoff : o.checked = false) (s : State) :
    Ends (program o) s
      (fun p _ => p.Spells s.cursor.lexemes ∧ p.isLevelled = true)
      fun f _ => f.isSyntactic = true := by
  have hsteps : weighLexemes s.cursor.lexemes < s.cursor.weight + 1 :=
    Nat.lt_succ_of_le s.cursor.weighLexemes_lexemes_le
  unfold program withSteps
  rw [ends_bind, ends_bind, ends_get]
  apply (topStmts_sound hoff _ _ s hsteps hsteps).weaken
  intro p t hp
  rw [ends_bind, ends_get, ends_bind]
  exact ends_note fun trace => hp

end Parse
end Lumen
