/-
  Lumen.Proofs.Reading.StmtComplete — the readers accept the grammar and nothing
  else.

  Where the lexemes that are left start with a spelling of a statement, the
  reader of statements gives that statement back.  What follows is the start of
  a statement, the end of a block, a semicolon or nothing; none of these goes on
  an expression, so nothing is read too far.

  With the converse, a reader accepts just the spellings of levelled programs, and
  no text is a spelling of two programs.

  Main statements:
    * `type_finds` / `params_finds` — types and parameters;
    * `stmts_finds` / `block_finds` — blocks;
    * `letStmt_finds` … `fnStmt_finds` — the kinds of statements;
    * `program_finds` — programs;
    * `program_accepts_iff` — without checking, the reader accepts the grammar.
-/
import Lumen.Proofs.Reading.StmtSound
import Lumen.Proofs.Reading.ExprComplete

namespace Lumen

/-! ## §1. What follows a statement -/

namespace Lexeme

/-- Whether a statement can start with a lexeme. -/
def startsStmt : Lexeme → Bool
  | ident _ | word .let_ | word .print | word .if_ | word .while_ | word .for_ | word .fn
  | word .return_ => true
  | _ => false

/-- Whether a lexeme ends a block. -/
def endsBlock : Lexeme → Bool
  | word .end_ | word .else_ => true
  | _ => false

end Lexeme

/-- Whether some lexemes may follow a statement and its semicolon. -/
def Resumes (rest : List Lexeme) : Prop :=
  ∀ l ∈ rest.head?, l.startsStmt = true ∨ l.endsBlock = true

/-- Whether some lexemes may follow a statement. -/
def Stops (rest : List Lexeme) : Prop :=
  ∀ l ∈ rest.head?, (l.startsStmt = true ∨ l.endsBlock = true) ∨ l = .mark .semicolon

theorem resumes_nil : Resumes [] := by
  intro l hl
  cases hl

theorem Resumes.stops {rest : List Lexeme} (h : Resumes rest) : Stops rest :=
  fun l hl => .inl (h l hl)

theorem resumes_cons {l : Lexeme} {rest : List Lexeme}
    (h : l.startsStmt = true ∨ l.endsBlock = true) : Resumes (l :: rest) := by
  intro l' hl
  cases hl
  exact h

/-- What follows a statement does not go on an expression. -/
theorem Stops.weaker {rest : List Lexeme} (h : Stops rest) : Weaker 1 rest := by
  intro l hl
  rcases h l hl with (h | h) | rfl
  · cases l with
    | word w => cases w <;> first | decide | cases h
    | ident => exact Nat.zero_lt_one
    | _ => cases h
  · cases l with
    | word w => cases w <;> first | decide | cases h
    | _ => cases h
  · decide

theorem Stops.head?_ne {rest : List Lexeme} (h : Stops rest) {m : Mark} (hm : m ≠ .semicolon) :
    rest.head? ≠ some (.mark m) := by
  intro heq
  rcases h _ heq with (h | h) | h
  · cases h
  · cases h
  · cases h
    exact hm rfl

namespace Stmt

/-- A statement starts as a statement can. -/
theorem exists_of_spells {s : Stmt} {ls rest : List Lexeme} (h : s.Spells ls rest) :
    ∃ l ls', ls = l :: ls' ∧ l.startsStmt = true := by
  cases s with
  | expr p e =>
    obtain ⟨hnamed, rfl⟩ := h
    obtain ⟨name, ls, hls⟩ := Expr.exists_lexemes_of_isNamed hnamed
    exact ⟨.ident name, ls ++ rest, by rw [hls]; rfl, rfl⟩
  | assign => exact ⟨_, _, h, rfl⟩
  | let_ =>
    obtain ⟨-, head, -, rfl⟩ := h
    exact ⟨_, _, rfl, rfl⟩
  | print => exact ⟨_, _, h, rfl⟩
  | if_ p cond b else_ =>
    obtain ⟨q, ss⟩ := b
    rcases else_ with _ | ⟨q', others⟩
    · obtain ⟨body, rfl, -⟩ := h
      exact ⟨_, _, rfl, rfl⟩
    · obtain ⟨body, other, rfl, -⟩ := h
      exact ⟨_, _, rfl, rfl⟩
  | while_ p cond b =>
    obtain ⟨q, ss⟩ := b
    obtain ⟨body, rfl, -⟩ := h
    exact ⟨_, _, rfl, rfl⟩
  | for_ p var start stop b =>
    obtain ⟨q, ss⟩ := b
    obtain ⟨body, rfl, -⟩ := h
    exact ⟨_, _, rfl, rfl⟩
  | fn p name params b =>
    obtain ⟨q, ss⟩ := b
    obtain ⟨-, body, rfl, -⟩ := h
    exact ⟨_, _, rfl, rfl⟩
  | return_ p value =>
    cases value with
    | none => exact ⟨_, _, h.2, rfl⟩
    | some e => exact ⟨_, _, h, rfl⟩

/-- Where statements are written, a statement starts or what follows does. -/
theorem resumes_of_allSpell {ss : List Stmt} {ls rest : List Lexeme} (h : AllSpell ss ls rest)
    (hrest : Resumes rest) : Resumes ls := by
  cases ss with
  | nil =>
    have heq : ls = rest := h
    exact heq ▸ hrest
  | cons s ss =>
    obtain ⟨mid, next, hs, -⟩ := h
    obtain ⟨l, ls', rfl, hl⟩ := exists_of_spells hs
    exact resumes_cons (.inl hl)

end Stmt

namespace Parse
open CursorM Cursor

/-! ## §2. Types and parameters -/

/-- A list type whose element type is found is found, if the `>` after it is there,
    be it as one half of a `>=`. -/
theorem listType_finds {steps : Nat} {elem : Ty} {tail rest : List Lexeme} {c : Cursor}
    (helem : ∀ c : Cursor, c.lexemes = elem.lexemes ++ tail →
      Ends (type steps) c (fun t c' => t = elem ∧ c'.lexemes = tail) fun f _ => f = .outOfSteps)
    (h : c.lexemes = .word .list :: .mark .lt :: (elem.lexemes ++ tail))
    (htail : tail = .mark .gt :: rest
      ∨ ∃ rest', tail = .mark .ge :: rest' ∧ rest = .mark .equal :: rest') :
    Ends (type (steps + 1)) c (fun t c' => t = .list elem ∧ c'.lexemes = rest)
      fun f _ => f = .outOfSteps := by
  unfold type
  rw [ends_bind, ends_lexeme?, h, List.head?_cons]
  apply (advance_finds h).bind
  rintro _ c₁ ⟨_, h₁⟩
  apply (mark_finds h₁).bind
  intro _ c₂ h₂
  apply (helem c₂ h₂).bind
  rintro t c₃ ⟨ht, h₃⟩
  rw [ends_bind, ends_modify]
  have hsplit : c₃.splitGe.lexemes = .mark .gt :: rest := by
    rw [lexemes_splitGe, h₃]
    rcases htail with rfl | ⟨rest', rfl, rfl⟩ <;> rfl
  exact (mark_finds hsplit).bind fun _ c₄ h₄ => ⟨by rw [ht], h₄⟩

theorem type_finds (steps : Nat) {t : Ty} (ht : t.isDeclarable = true) (rest : List Lexeme)
    (c : Cursor) (h : c.lexemes = t.lexemes ++ rest) :
    Ends (type steps) c (fun t' c' => t' = t ∧ c'.lexemes = rest)
      fun f _ => f = .outOfSteps := by
  induction steps generalizing t rest c with
  | zero => rfl
  | succ steps ih =>
    -- a scalar type is one word, and that word is not `list`
    have hscalar : ∀ l, t.lexemes = [l] → l ≠ .word .list → Ty.ofLexeme? l = some t →
        Ends (type (steps + 1)) c (fun t' c' => t' = t ∧ c'.lexemes = rest)
          fun f _ => f = .outOfSteps := by
      intro l hl hne hof
      rw [hl] at h
      unfold type
      rw [ends_bind, ends_lexeme?, h, List.singleton_append, List.head?_cons]
      split
      · next heq => exact absurd (Option.some.inj heq) hne
      · next l' _ heq =>
        cases heq
        rw [hof]
        apply (advance_finds h).bind
        rintro _ c₁ ⟨_, h₁⟩
        exact ⟨rfl, h₁⟩
      · next heq => cases heq
    cases t with
    | list elem =>
      have helem : elem.isDeclarable = true := ht
      refine listType_finds (fun c' h' => ih helem _ c' h') ?_ (.inl rfl)
      rw [h, Ty.lexemes]
      simp
    | any => cases ht
    | int => exact hscalar (.word .int) rfl (by decide) rfl
    | float => exact hscalar (.word .float) rfl (by decide) rfl
    | string => exact hscalar (.word .string) rfl (by decide) rfl
    | bool => exact hscalar (.word .bool) rfl (by decide) rfl

/-- The type of a `let` is found, however it is written; the `=` is left. -/
theorem headType_finds (steps : Nat) {t : Ty} (ht : t.isDeclarable = true) {head : List Lexeme}
    (hhead : t.HeadsValue head) (rest : List Lexeme) (c : Cursor) (h : c.lexemes = head ++ rest) :
    Ends (type steps) c (fun t' c' => t' = t ∧ c'.lexemes = .mark .equal :: rest)
      fun f _ => f = .outOfSteps := by
  cases hhead with
  | apart => exact type_finds steps ht _ c (by rw [h, List.append_assoc]; rfl)
  | joined elem =>
    have helem : elem.isDeclarable = true := ht
    cases steps with
    | zero => rfl
    | succ steps =>
      refine listType_finds (fun c' h' => type_finds steps helem _ c' h') ?_
        (.inr ⟨rest, rfl, rfl⟩)
      rw [h]
      simp

/-- A parameter is found, and what comes after it is read on. -/
theorem param_finds_bind {α : Type} {m : Nat} {p : Param} (hp : p.type.isDeclarable = true)
    {k : Bytes → Ty → CursorM α} {Q : α → Cursor → Prop} {rest : List Lexeme} {c : Cursor}
    (h : c.lexemes = .ident p.name :: .mark .colon :: (p.type.lexemes ++ rest))
    (hk : ∀ c' : Cursor, c'.lexemes = rest →
      Ends (k p.name p.type) c' Q fun f _ => f = .outOfSteps) :
    Ends (identifier .parameterName >>= fun name => mark .colon >>= fun _ =>
      type m >>= fun ty => k name ty) c Q fun f _ => f = .outOfSteps := by
  apply (identifier_finds h _).bind
  rintro name c₁ ⟨rfl, h₁⟩
  apply (mark_finds h₁).bind
  intro _ c₂ h₂
  apply (type_finds m hp rest c₂ h₂).bind
  rintro ty c₃ ⟨rfl, h₃⟩
  exact hk c₃ h₃

theorem paramList_finds (m steps : Nat) (ps : List Param) (hne : ps ≠ [])
    (hps : ∀ p ∈ ps, p.type.isDeclarable = true) (rest : List Lexeme) (c : Cursor)
    (h : c.lexemes = paramLexemes ps ++ .mark .rparen :: rest) :
    Ends (paramList m steps) c
      (fun ps' c' => ps' = ps ∧ c'.lexemes = .mark .rparen :: rest)
      fun f _ => f = .outOfSteps := by
  induction steps generalizing ps c with
  | zero => rfl
  | succ steps ih =>
    unfold paramList
    cases ps with
    | nil => exact absurd rfl hne
    | cons p ps =>
      obtain ⟨hp, hps⟩ := List.forall_mem_cons.mp hps
      cases ps with
      | nil =>
        have h' : c.lexemes = .ident p.name :: .mark .colon
            :: (p.type.lexemes ++ .mark .rparen :: rest) := h
        apply param_finds_bind hp h'
        intro c₁ h₁
        apply accept_passes_bind (by rw [h₁]; simp)
        exact ⟨rfl, h₁⟩
      | cons p₂ ps =>
        have h' : c.lexemes = .ident p.name :: .mark .colon
            :: (p.type.lexemes ++ .mark .comma
              :: (paramLexemes (p₂ :: ps) ++ .mark .rparen :: rest)) := by
          rw [h, paramLexemes_cons p (List.cons_ne_nil p₂ ps)]
          simp
        apply param_finds_bind hp h'
        intro c₁ h₁
        apply accept_finds_bind h₁
        intro c₂ h₂
        rw [if_pos rfl, ends_bind, ends_isAt, if_neg]
        · apply (ih (p₂ :: ps) (List.cons_ne_nil p₂ ps) hps c₂ h₂).bind
          rintro ps' c₃ ⟨rfl, h₃⟩
          exact ⟨rfl, h₃⟩
        -- after the comma comes a name, so no closing parenthesis
        · rw [h₂, head?_paramLexemes_append]
          intro heq
          cases eq_of_beq heq

theorem params_finds (m : Nat) (ps : List Param) (hps : ∀ p ∈ ps, p.type.isDeclarable = true)
    (rest : List Lexeme) (c : Cursor)
    (h : c.lexemes = .mark .lparen :: (paramLexemes ps ++ .mark .rparen :: rest)) :
    Ends (params m) c (fun ps' c' => ps' = ps ∧ c'.lexemes = rest)
      fun f _ => f = .outOfSteps := by
  unfold params
  apply (mark_finds h).bind
  intro _ c₁ h₁
  rw [ends_bind, ends_isAt, h₁]
  cases ps with
  | nil =>
    rw [if_pos (by rfl)]
    exact (mark_finds h₁).bind fun _ c₂ h₂ => ⟨rfl, h₂⟩
  | cons p ps =>
    rw [head?_paramLexemes_append, if_neg]
    · apply (paramList_finds m m _ (List.cons_ne_nil p ps) hps rest c₁ h₁).bind
      rintro ps' c₂ ⟨hps', h₂⟩
      exact (mark_finds h₂).bind fun _ c₃ h₃ => ⟨hps', h₃⟩
    · intro heq
      cases eq_of_beq heq

/-! ## §3. Blocks -/

/-- Whether a reader of statements finds a statement and the semicolon after it. -/
def FindsStmt (m : ParseM Stmt) : Prop :=
  ∀ (a : Stmt) (s : State) (mid rest : List Lexeme), a.isLevelled = true →
    a.Spells s.cursor.lexemes mid → (mid = rest ∨ mid = .mark .semicolon :: rest) →
    Resumes rest →
    Ends m s (fun a' t => a'.erase = a.erase ∧ t.cursor.lexemes = rest)
      fun f _ => f = .outOfSteps

theorem closes_of_startsStmt {l : Lexeme} {ls : List Lexeme} (h : l.startsStmt = true) :
    closes (l :: ls) = false := by
  cases l with
  | word w => cases w <;> first | rfl | cases h
  | _ => rfl

theorem resumes_of_closes {rest : List Lexeme} (h : closes rest = true) : Resumes rest := by
  intro l hl
  have hl' : rest.head? = some l := hl
  have hor : l = .word .end_ ∨ l = .word .else_ := by simpa [closes, hl'] using h
  rcases hor with rfl | rfl
  · exact .inr rfl
  · exact .inr rfl

section
variable {o : Options} (hoff : o.checked = false) {stmt : ParseM Stmt} (hstmt : FindsStmt stmt)
include hoff hstmt

theorem stmts_finds (steps : Nat) (ss : List Stmt) (rest : List Lexeme) (s : State)
    (hlevel : Stmt.areLevelled ss = true) (h : Stmt.AllSpell ss s.cursor.lexemes rest)
    (hrest : closes rest = true) :
    Ends (stmts o stmt steps) s
      (fun ss' t => Stmt.eraseAll ss' = Stmt.eraseAll ss ∧ t.cursor.lexemes = rest)
      fun f _ => f = .outOfSteps := by
  induction steps generalizing ss s with
  | zero => rfl
  | succ steps ih =>
    unfold stmts
    rw [ends_bind, ends_lift, ends_blockEnds]
    cases ss with
    | nil =>
      have heq : s.cursor.lexemes = rest := h
      rw [heq, hrest]
      exact ⟨rfl, heq⟩
    | cons a ss =>
      obtain ⟨mid, next, ha, hnext, hss⟩ := h
      rw [Stmt.areLevelled, Bool.and_eq_true] at hlevel
      obtain ⟨l, ls, hl, hstarts⟩ := Stmt.exists_of_spells ha
      rw [hl, closes_of_startsStmt hstarts, if_neg Bool.false_ne_true]
      -- the next statement starts here, or the block ends
      have hres : Resumes next := Stmt.resumes_of_allSpell hss (resumes_of_closes hrest)
      apply (hstmt a s mid next hlevel.1 ha hnext hres).bind
      rintro a' t ⟨ha', ht⟩
      rw [ends_bind, ends_updating_off hoff]
      apply (ih ss t hlevel.2 (ht ▸ hss)).bind
      rintro ss' t' ⟨hss', ht'⟩
      refine ⟨?_, ht'⟩
      rw [Stmt.eraseAll, Stmt.eraseAll, ha', hss']

theorem block_finds (steps : Nat) (locals : List Param) (ss : List Stmt) (rest : List Lexeme)
    (s : State) (hlevel : Stmt.areLevelled ss = true)
    (h : Stmt.AllSpell ss s.cursor.lexemes rest) (hrest : closes rest = true) :
    Ends (block o stmt steps locals) s
      (fun b t => ∃ pos ss', b = .mk pos ss' ∧ Stmt.eraseAll ss' = Stmt.eraseAll ss
        ∧ t.cursor.lexemes = rest)
      fun f _ => f = .outOfSteps := by
  unfold block
  rw [inScope_off hoff, ends_bind, ends_lift]
  apply (stmts_finds hoff hstmt steps ss rest s hlevel h hrest).bind
  rintro ss' t ⟨hss', ht⟩
  exact ⟨_, ss', rfl, hss', ht⟩

end

/-! ## §4. The kinds of statements -/

section
variable {o : Options} (hoff : o.checked = false) {steps : Nat} {s : State} {rest : List Lexeme}
  (hrest : Stops rest)
include hoff hrest

theorem letStmt_finds {p : Pos} {name : Bytes} {type : Ty} {init : Expr}
    (hlevel : (Stmt.let_ p name type init).isLevelled = true)
    (h : (Stmt.let_ p name type init).Spells s.cursor.lexemes rest) :
    Ends (letStmt o steps) s
      (fun a t => a.erase = (Stmt.let_ p name type init).erase ∧ t.cursor.lexemes = rest)
      fun f _ => f = .outOfSteps := by
  obtain ⟨hdecl, head, hhead, h⟩ := h
  unfold letStmt
  refine ends_read (advance_finds h) ?_
  rintro _ s₁ ⟨_, h₁⟩
  refine ends_read (identifier_finds h₁ _) ?_
  rintro name' s₂ ⟨hname, h₂⟩
  refine ends_read (mark_finds h₂) ?_
  intro _ s₃ h₃
  refine ends_read (headType_finds steps hdecl hhead _ _ h₃) ?_
  rintro ty s₄ ⟨hty, h₄⟩
  refine ends_read (mark_finds h₄) ?_
  intro _ s₅ h₅
  refine ends_read (expr_finds steps init rest _ hlevel init.level_pos hrest.weaker h₅) ?_
  rintro init' s₆ ⟨hinit, h₆⟩
  rw [ends_bind, ends_checking_off hoff]
  refine ⟨?_, h₆⟩
  rw [Stmt.erase, Stmt.erase, hname, hty, hinit]

theorem printStmt_finds {p : Pos} {value : Expr}
    (hlevel : (Stmt.print p value).isLevelled = true)
    (h : (Stmt.print p value).Spells s.cursor.lexemes rest) :
    Ends (printStmt o steps) s
      (fun a t => a.erase = (Stmt.print p value).erase ∧ t.cursor.lexemes = rest)
      fun f _ => f = .outOfSteps := by
  unfold printStmt
  refine ends_read (advance_finds h) ?_
  rintro _ s₁ ⟨_, h₁⟩
  refine ends_read (expr_finds steps value rest _ hlevel value.level_pos hrest.weaker h₁) ?_
  rintro value' s₂ ⟨hvalue, h₂⟩
  rw [ends_bind, ends_checking_off hoff]
  refine ⟨?_, h₂⟩
  rw [Stmt.erase, Stmt.erase, hvalue]

theorem returnStmt_finds {p : Pos} {value : Option Expr}
    (hlevel : (Stmt.return_ p value).isLevelled = true)
    (h : (Stmt.return_ p value).Spells s.cursor.lexemes rest) :
    Ends (returnStmt o steps) s
      (fun a t => a.erase = (Stmt.return_ p value).erase ∧ t.cursor.lexemes = rest)
      fun f _ => f = .outOfSteps := by
  unfold returnStmt
  cases value with
  | none =>
    -- without a value it is written only where the statement visibly ends
    obtain ⟨hends, h⟩ := h
    refine ends_read (advance_finds h) ?_
    rintro _ s₁ ⟨_, h₁⟩
    rw [ends_bind, ends_lift, ends_blockEnds, ends_bind, ends_lift, ends_isAt, if_pos]
    · exact ⟨rfl, h₁⟩
    · show (closes s₁.cursor.lexemes || s₁.cursor.lexemes.head? == some (.mark .semicolon)) = true
      rw [h₁]
      cases hhead : rest.head? with
      | none => rw [closes, hhead]; rfl
      | some l =>
        rcases hends l hhead with rfl | rfl | rfl <;> rw [closes, hhead] <;> rfl
  | some e =>
    -- an expression starts, so the statement does not end here
    refine ends_read (advance_finds h) ?_
    rintro _ s₁ ⟨_, h₁⟩
    rw [ends_bind, ends_lift, ends_blockEnds, ends_bind, ends_lift, ends_isAt, if_neg]
    · refine ends_read (expr_finds steps e rest _ hlevel e.level_pos hrest.weaker h₁) ?_
      rintro e' s₂ ⟨he, h₂⟩
      rw [ends_bind, ends_checking_off hoff]
      refine ⟨?_, h₂⟩
      rw [Stmt.erase, Stmt.erase, he]
    · show ¬ (closes s₁.cursor.lexemes || s₁.cursor.lexemes.head? == some (.mark .semicolon)) = true
      obtain ⟨l, ls, hl, hstarts⟩ := e.exists_lexemes
      rw [h₁, hl]
      cases l with
      | mark m => cases m <;> first | exact Bool.false_ne_true | cases hstarts
      | word => cases hstarts
      | eof => cases hstarts
      | _ => exact Bool.false_ne_true

omit hoff hrest in
theorem eq_access_of_erase {e : Expr} {p : Pos} {name : Bytes} {indices : List Expr}
    (h : e.erase = (Expr.access p name indices).erase) :
    ∃ p' indices', e = .access p' name indices'
      ∧ Expr.eraseAll indices' = Expr.eraseAll indices := by
  cases e with
  | access p' name' indices' =>
    rw [Expr.erase, Expr.erase] at h
    obtain ⟨-, rfl, hindices⟩ := Expr.access.inj h
    exact ⟨p', indices', rfl, hindices⟩
  | _ => rw [Expr.erase, Expr.erase] at h; cases h

theorem assign_finds {p : Pos} {name : Bytes} {indices : List Expr} {value : Expr}
    (hlevel : (Stmt.assign p name indices value).isLevelled = true)
    (h : (Stmt.assign p name indices value).Spells s.cursor.lexemes rest) :
    Ends (nameStmt o steps name) s
      (fun a t => a.erase = (Stmt.assign p name indices value).erase ∧ t.cursor.lexemes = rest)
      fun f _ => f = .outOfSteps := by
  rw [Stmt.isLevelled, Bool.and_eq_true] at hlevel
  unfold nameStmt
  refine ends_read (advance_finds h) ?_
  rintro tok s₁ ⟨_, h₁⟩
  -- the target is read as an expression, which the `=` ends
  have hequal : Weaker 7 (.mark .equal :: (value.lexemes ++ rest)) := weaker_cons (by decide)
  refine ends_read (named_finds (expr_finds steps) steps tok.pos name (.access p name indices) _ _
    hlevel.1 rfl hequal (by rw [h₁]; rfl)) ?_
  rintro target s₂ ⟨htarget, h₂⟩
  obtain ⟨p', path, rfl, hpath⟩ := eq_access_of_erase htarget
  rw [ends_bind, ends_lift, ends_isAt, h₂, if_pos (by rfl)]
  refine ends_read (mark_finds h₂) ?_
  intro _ s₃ h₃
  refine ends_read (expr_finds steps value rest _ hlevel.2 value.level_pos hrest.weaker h₃) ?_
  rintro value' s₄ ⟨hvalue, h₄⟩
  rw [ends_bind, ends_updating_off hoff]
  refine ⟨?_, h₄⟩
  rw [Stmt.erase, Stmt.erase, hpath, hvalue]

theorem exprStmt_finds {p : Pos} {e : Expr} (hlevel : (Stmt.expr p e).isLevelled = true)
    (h : (Stmt.expr p e).Spells s.cursor.lexemes rest) {name : Bytes} {ls : List Lexeme}
    (hname : e.lexemes = .ident name :: ls) :
    Ends (nameStmt o steps name) s
      (fun a t => a.erase = (Stmt.expr p e).erase ∧ t.cursor.lexemes = rest)
      fun f _ => f = .outOfSteps := by
  obtain ⟨hnamed, h⟩ := h
  rw [hname] at h
  unfold nameStmt
  refine ends_read (advance_finds h) ?_
  rintro tok s₁ ⟨_, h₁⟩
  refine ends_read (named_finds (expr_finds steps) steps tok.pos name e rest _ hlevel hnamed
    (hrest.weaker.mono (by decide)) (by rw [h₁, hname]; rfl)) ?_
  rintro e' s₂ ⟨he', h₂⟩
  have hequal : rest.head? ≠ some (.mark .equal) := hrest.head?_ne (by decide)
  rw [ends_bind, ends_lift, ends_isAt, h₂, if_neg (by simpa using hequal), ends_bind,
    ends_checking_off hoff]
  refine ⟨?_, h₂⟩
  rw [Stmt.erase, Stmt.erase, he']

end

section
variable {o : Options} (hoff : o.checked = false) {steps : Nat} {stmt : ParseM Stmt}
  (hstmt : FindsStmt stmt) {s : State} {rest : List Lexeme}
include hoff hstmt

/-- What follows the first block of an `if` is found: `else` with another block,
    or nothing. -/
theorem elseBlock_finds {else_ : Option Block}
    (h : (else_ = none ∧ s.cursor.lexemes = .word .end_ :: rest)
      ∨ ∃ pos others other, else_ = some (.mk pos others) ∧ Stmt.areLevelled others = true
        ∧ s.cursor.lexemes = .word .else_ :: other
        ∧ Stmt.AllSpell others other (.word .end_ :: rest)) :
    Ends (elseBlock o stmt steps) s
      (fun b t => b.map Stmt.eraseBlock = else_.map Stmt.eraseBlock
        ∧ t.cursor.lexemes = .word .end_ :: rest)
      fun f _ => f = .outOfSteps := by
  unfold elseBlock
  rcases h with ⟨rfl, h⟩ | ⟨pos, others, other, rfl, hlevel, h, hothers⟩
  · refine ends_read (accept_passes (by rw [h]; simp)) ?_
    rintro b s₁ ⟨rfl, hc⟩
    exact ⟨rfl, by rw [hc, h]⟩
  · refine ends_read (accept_finds h) ?_
    rintro b s₁ ⟨rfl, h₁⟩
    rw [if_pos rfl]
    apply (block_finds hoff hstmt steps [] others _ s₁ hlevel (h₁ ▸ hothers) rfl).bind
    rintro b s₂ ⟨pos', others', hb, hothers', h₂⟩
    refine ⟨?_, h₂⟩
    subst hb
    simp only [Option.map_some, Stmt.eraseBlock, hothers']

theorem ifStmt_finds {p : Pos} {cond : Expr} {then_ : Block} {else_ : Option Block}
    (hlevel : (Stmt.if_ p cond then_ else_).isLevelled = true)
    (h : (Stmt.if_ p cond then_ else_).Spells s.cursor.lexemes rest) :
    Ends (ifStmt o stmt steps) s
      (fun a t => a.erase = (Stmt.if_ p cond then_ else_).erase ∧ t.cursor.lexemes = rest)
      fun f _ => f = .outOfSteps := by
  obtain ⟨q, ss⟩ := then_
  -- with or without `else`, a condition and a block come first
  obtain ⟨hcond, hss, body, tail, h, hbody, htail, helse⟩ :
      cond.isLevelled = true ∧ Stmt.areLevelled ss = true ∧ ∃ body tail,
        s.cursor.lexemes = .word .if_ :: (cond.lexemes ++ body) ∧ Stmt.AllSpell ss body tail
          ∧ closes tail = true
          ∧ ((else_ = none ∧ tail = .word .end_ :: rest)
            ∨ ∃ pos others other, else_ = some (.mk pos others) ∧ Stmt.areLevelled others = true
              ∧ tail = .word .else_ :: other
              ∧ Stmt.AllSpell others other (.word .end_ :: rest)) := by
    rcases else_ with _ | ⟨q', others⟩
    · obtain ⟨body, h, hbody⟩ := h
      rw [Stmt.isLevelled, Bool.and_eq_true] at hlevel
      exact ⟨hlevel.1, hlevel.2, body, _, h, hbody, rfl, .inl ⟨rfl, rfl⟩⟩
    · obtain ⟨body, other, h, hbody, hother⟩ := h
      rw [Stmt.isLevelled, Bool.and_eq_true, Bool.and_eq_true] at hlevel
      exact ⟨hlevel.1.1, hlevel.1.2, body, _, h, hbody, rfl,
        .inr ⟨q', others, other, rfl, hlevel.2, rfl, hother⟩⟩
  have hweak : Weaker 1 body :=
    (Stmt.resumes_of_allSpell hbody (resumes_of_closes htail)).stops.weaker
  unfold ifStmt
  refine ends_read (advance_finds h) ?_
  rintro _ s₁ ⟨_, h₁⟩
  refine ends_read (expr_finds steps cond body _ hcond cond.level_pos hweak h₁) ?_
  rintro cond' s₂ ⟨hcond', h₂⟩
  rw [ends_bind, ends_checking_off hoff]
  apply (block_finds hoff hstmt steps [] ss _ s₂ hss (h₂ ▸ hbody) htail).bind
  rintro b s₃ ⟨pos, ss', hb, hss', h₃⟩
  subst hb
  apply (elseBlock_finds hoff hstmt (h₃ ▸ helse)).bind
  rintro else' s₄ ⟨helse', h₄⟩
  refine ends_read (word_finds h₄) fun _ s₅ h₅ => ⟨?_, h₅⟩
  rw [Stmt.erase_if, Stmt.erase_if, hcond', helse', Stmt.eraseBlock, Stmt.eraseBlock, hss']

theorem whileStmt_finds {p : Pos} {cond : Expr} {body : Block}
    (hlevel : (Stmt.while_ p cond body).isLevelled = true)
    (h : (Stmt.while_ p cond body).Spells s.cursor.lexemes rest) :
    Ends (whileStmt o stmt steps) s
      (fun a t => a.erase = (Stmt.while_ p cond body).erase ∧ t.cursor.lexemes = rest)
      fun f _ => f = .outOfSteps := by
  obtain ⟨q, ss⟩ := body
  obtain ⟨inside, h, hbody⟩ := h
  rw [Stmt.isLevelled, Bool.and_eq_true] at hlevel
  have hweak : Weaker 1 inside :=
    (Stmt.resumes_of_allSpell hbody (resumes_cons (.inr rfl))).stops.weaker
  unfold whileStmt
  refine ends_read (advance_finds h) ?_
  rintro _ s₁ ⟨_, h₁⟩
  refine ends_read (expr_finds steps cond inside _ hlevel.1 cond.level_pos hweak h₁) ?_
  rintro cond' s₂ ⟨hcond', h₂⟩
  rw [ends_bind, ends_checking_off hoff]
  apply (block_finds hoff hstmt steps [] ss _ s₂ hlevel.2 (h₂ ▸ hbody) rfl).bind
  rintro b s₃ ⟨pos, ss', hb, hss', h₃⟩
  subst hb
  refine ends_read (word_finds h₃) fun _ s₄ h₄ => ⟨?_, h₄⟩
  rw [Stmt.erase, Stmt.erase, hcond', hss']

omit hoff hstmt in
theorem loopType_finds (var : Bytes) {c : Cursor} (h : c.lexemes = .word .int :: rest) :
    Ends (loopType steps var) c (fun _ c' => c'.lexemes = rest) fun f _ => f = .outOfSteps := by
  unfold loopType
  rw [ends_bind, ends_token?]
  obtain ⟨⟨l, pos⟩, ht, hl⟩ := exists_token? h
  obtain rfl : l = .word .int := hl
  rw [ht]
  apply (advance_finds h).bind
  rintro _ c₁ ⟨_, h₁⟩
  exact h₁

theorem forStmt_finds {p : Pos} {var : Bytes} {start stop : Expr} {body : Block}
    (hlevel : (Stmt.for_ p var start stop body).isLevelled = true)
    (h : (Stmt.for_ p var start stop body).Spells s.cursor.lexemes rest) :
    Ends (forStmt o stmt steps) s
      (fun a t => a.erase = (Stmt.for_ p var start stop body).erase ∧ t.cursor.lexemes = rest)
      fun f _ => f = .outOfSteps := by
  obtain ⟨q, ss⟩ := body
  obtain ⟨inside, h, hbody⟩ := h
  rw [Stmt.isLevelled, Bool.and_eq_true, Bool.and_eq_true] at hlevel
  have hweak : Weaker 1 inside :=
    (Stmt.resumes_of_allSpell hbody (resumes_cons (.inr rfl))).stops.weaker
  unfold forStmt
  refine ends_read (advance_finds h) ?_
  rintro _ s₁ ⟨_, h₁⟩
  refine ends_read (identifier_finds h₁ _) ?_
  rintro var' s₂ ⟨hvar, h₂⟩
  refine ends_read (mark_finds h₂) ?_
  intro _ s₃ h₃
  refine ends_read (loopType_finds var' h₃) ?_
  intro _ s₄ h₄
  refine ends_read (mark_finds h₄) ?_
  intro _ s₅ h₅
  refine ends_read (expr_finds steps start _ _ hlevel.1.1 start.level_pos
    (weaker_cons (by decide)) h₅) ?_
  rintro start' s₆ ⟨hstart, h₆⟩
  refine ends_read (mark_finds h₆) ?_
  intro _ s₇ h₇
  refine ends_read (expr_finds steps stop inside _ hlevel.1.2 stop.level_pos hweak h₇) ?_
  rintro stop' s₈ ⟨hstop, h₈⟩
  rw [ends_bind, ends_checking_off hoff]
  apply (block_finds hoff hstmt steps _ ss _ s₈ hlevel.2 (h₈ ▸ hbody) rfl).bind
  rintro b s₉ ⟨pos, ss', hb, hss', h₉⟩
  subst hb
  refine ends_read (word_finds h₉) fun _ s₁₀ h₁₀ => ⟨?_, h₁₀⟩
  rw [Stmt.erase, Stmt.erase, hvar, hstart, hstop, hss']

theorem fnStmt_finds {p : Pos} {name : Bytes} {ps : List Param} {body : Block}
    (hlevel : (Stmt.fn p name ps body).isLevelled = true)
    (h : (Stmt.fn p name ps body).Spells s.cursor.lexemes rest) :
    Ends (fnStmt o stmt steps) s
      (fun a t => a.erase = (Stmt.fn p name ps body).erase ∧ t.cursor.lexemes = rest)
      fun f _ => f = .outOfSteps := by
  obtain ⟨q, ss⟩ := body
  obtain ⟨hps, inside, h, hbody⟩ := h
  unfold fnStmt
  refine ends_read (advance_finds h) ?_
  rintro _ s₁ ⟨_, h₁⟩
  refine ends_read (identifier_finds h₁ _) ?_
  rintro name' s₂ ⟨hname, h₂⟩
  refine ends_read (params_finds steps ps hps inside _ h₂) ?_
  rintro ps' s₃ ⟨hps', h₃⟩
  apply (block_finds hoff hstmt steps _ ss _ s₃ hlevel (h₃ ▸ hbody) rfl).bind
  rintro b s₄ ⟨pos, ss', hb, hss', h₄⟩
  subst hb
  refine ends_read (word_finds h₄) fun _ s₅ h₅ => ⟨?_, h₅⟩
  rw [Stmt.erase, Stmt.erase, hname, hps', hss']

/-! ## §5. Statements and programs -/

/-- The kind of a statement is told by its first lexeme. -/
theorem bareStmt_finds {a : Stmt} (hlevel : a.isLevelled = true)
    (h : a.Spells s.cursor.lexemes rest) (hrest : Stops rest) :
    Ends (bareStmt o stmt steps) s (fun a' t => a'.erase = a.erase ∧ t.cursor.lexemes = rest)
      fun f _ => f = .outOfSteps := by
  obtain ⟨l, ls, hl, hstarts⟩ := Stmt.exists_of_spells h
  obtain ⟨t, ht, rfl⟩ := exists_token? hl
  unfold bareStmt
  rw [ends_bind, ends_lift, ends_token?, ht]
  -- each kind is spelled with a first lexeme of its own
  have hfirst : ∀ l' ls', s.cursor.lexemes = l' :: ls' → t.lexeme = l' := by
    intro l' ls' h'
    rw [hl] at h'
    exact (List.cons.inj h').1
  cases a with
  | expr p e =>
    obtain ⟨name, ls', hls⟩ := Expr.exists_lexemes_of_isNamed h.1
    have hlex : t.lexeme = .ident name := hfirst _ (ls' ++ rest) (by rw [h.2, hls]; rfl)
    simp only [hlex]
    exact exprStmt_finds hoff hrest hlevel h hls
  | assign p name indices value =>
    simp only [hfirst _ _ h]
    exact assign_finds hoff hrest hlevel h
  | let_ p name type init =>
    obtain ⟨-, head, -, h'⟩ := id h
    simp only [hfirst _ _ h']
    exact letStmt_finds hoff hrest hlevel h
  | print p value =>
    simp only [hfirst _ _ h]
    exact printStmt_finds hoff hrest hlevel h
  | if_ p cond then_ else_ =>
    have hlex : t.lexeme = .word .if_ := by
      obtain ⟨q, ss⟩ := then_
      rcases else_ with _ | ⟨q', others⟩
      · obtain ⟨body, h', -⟩ := id h
        exact hfirst _ _ h'
      · obtain ⟨body, other, h', -⟩ := id h
        exact hfirst _ _ h'
    simp only [hlex]
    exact ifStmt_finds hoff hstmt hlevel h
  | while_ p cond body =>
    obtain ⟨q, ss⟩ := body
    obtain ⟨inside, h', -⟩ := id h
    simp only [hfirst _ _ h']
    exact whileStmt_finds hoff hstmt hlevel h
  | for_ p var start stop body =>
    obtain ⟨q, ss⟩ := body
    obtain ⟨inside, h', -⟩ := id h
    simp only [hfirst _ _ h']
    exact forStmt_finds hoff hstmt hlevel h
  | fn p name ps body =>
    obtain ⟨q, ss⟩ := body
    obtain ⟨-, inside, h', -⟩ := id h
    simp only [hfirst _ _ h']
    exact fnStmt_finds hoff hstmt hlevel h
  | return_ p value =>
    have hlex : t.lexeme = .word .return_ := by
      cases value with
      | none => exact hfirst _ _ h.2
      | some e => exact hfirst _ _ h
    simp only [hlex]
    exact returnStmt_finds hoff hrest hlevel h

end

theorem stmt_finds {o : Options} (hoff : o.checked = false) (steps : Nat) :
    FindsStmt (stmt o steps) := by
  induction steps with
  | zero => exact fun _ _ _ _ _ _ _ _ => rfl
  | succ steps ih =>
    intro a s mid rest hlevel h hmid hrest
    rw [stmt_succ]
    have hstops : Stops mid := by
      rcases hmid with rfl | rfl
      · exact hrest.stops
      · intro l hl
        cases hl
        exact .inr rfl
    apply (bareStmt_finds hoff ih hlevel h hstops).bind
    rintro a' t ⟨ha', ht⟩
    -- a semicolon after the statement is read too
    rcases hmid with rfl | rfl
    · have hne : t.cursor.lexemes.head? ≠ some (.mark .semicolon) := by
        rw [ht]
        intro heq
        rcases hrest _ heq with h | h <;> cases h
      refine ends_read (accept_passes hne) ?_
      rintro b t' ⟨_, hc⟩
      refine ⟨ha', ?_⟩
      rw [hc, ht]
    · refine ends_read (accept_finds ht) ?_
      rintro b t' ⟨_, ht'⟩
      exact ⟨ha', ht'⟩

theorem topStmts_finds {o : Options} (hoff : o.checked = false) (n steps : Nat) (p : Program)
    (s : State) (hlevel : p.isLevelled = true) (h : p.Spells s.cursor.lexemes) :
    Ends (topStmts o n steps) s (fun p' _ => p'.erase = p.erase) fun f _ => f = .outOfSteps := by
  induction steps generalizing p s with
  | zero => rfl
  | succ steps ih =>
    unfold topStmts
    rw [ends_bind, ends_lift, ends_token?]
    cases p with
    | nil =>
      have hnil : s.cursor.lexemes = [] := h
      have hhead : s.cursor.token?.map Token.lexeme = none := by rw [map_token?, hnil]; rfl
      rw [Option.map_eq_none_iff.mp hhead]
      rfl
    | cons a p =>
      obtain ⟨mid, next, ha, hnext, hp⟩ := h
      have hlevel' : a.isLevelled = true ∧ Stmt.areLevelled p = true := by
        rw [← Bool.and_eq_true]
        exact hlevel
      obtain ⟨l, ls, hl, -⟩ := Stmt.exists_of_spells ha
      obtain ⟨t, ht, -⟩ := exists_token? hl
      rw [ht]
      -- what comes next starts a statement, or the text has ended
      have hres : Resumes next := Stmt.resumes_of_allSpell hp resumes_nil
      show Ends (note o _ >>= _) _ _ _
      rw [ends_bind]
      refine ends_note ?_
      intro trace
      apply (stmt_finds hoff n a { s with trace } mid next hlevel'.1 ha hnext hres).bind
      rintro a' s₁ ⟨ha', h₁⟩
      rw [enactTop_off hoff, ends_bind, ends_pure]
      apply (ih p s₁ hlevel'.2 (h₁ ▸ hp)).bind
      intro p' _ hp'
      show Stmt.eraseAll (a' :: p') = Stmt.eraseAll (a :: p)
      rw [Stmt.eraseAll, Stmt.eraseAll, ha']
      exact congrArg _ hp'

/-- Every spelling of a levelled program is read back. -/
theorem program_finds {o : Options} (hoff : o.checked = false) (p : Program) (s : State)
    (hlevel : p.isLevelled = true) (h : p.Spells s.cursor.lexemes) :
    Ends (program o) s (fun p' _ => p'.erase = p.erase) fun f _ => f = .outOfSteps := by
  unfold program withSteps
  rw [ends_bind, ends_bind, ends_get]
  apply (topStmts_finds hoff _ _ p s hlevel h).weaken
  intro p' t hp'
  rw [ends_bind, ends_get, ends_bind]
  exact ends_note fun trace => hp'

/-- Without checking, the reader accepts just the spellings of levelled programs,
    and gives the program that was written. -/
theorem program_accepts_iff (tokens : List Token) (trace : Bool) (p : Program) :
    (∃ p' s, whole { checked := false, trace } tokens = .ok p' s ∧ p'.erase = p.erase)
      ↔ p.isLevelled = true ∧ p.Spells (Token.lexemes tokens) := by
  have hsound := program_sound (o := { checked := false, trace }) rfl { cursor := .ofTokens tokens }
  constructor
  -- the program that was read is spelled so, and places do not matter
  · rintro ⟨p', s, hrun, heq⟩
    obtain ⟨hspells, hlevel⟩ := hsound.of_ok hrun
    rw [← p.isLevelled_erase, ← heq, p'.isLevelled_erase, ← p.spells_erase, ← heq, p'.spells_erase]
    exact ⟨hlevel, hspells⟩
  · rintro ⟨hlevel, hspells⟩
    have hfinds := program_finds (o := { checked := false, trace }) rfl p
      { cursor := .ofTokens tokens } hlevel hspells
    -- out of steps is no error of grammar
    refine ((hsound.and hfinds).mono (fun _ _ h => h.2) ?_).exists_ok
    rintro f _ ⟨hsyn, hout⟩
    rw [hout] at hsyn
    cases hsyn

end Parse
end Lumen
