/-
  Lumen.Proofs.Grammar.Loops — the type of a loop variable in the text of a program.

  The word `for` stands nowhere but at the start of a loop, for no expression and no
  type has it.  So wherever it stands in the text of a program, a name, a colon and
  `int` come after it.

  Main statements:
    * `Expr.for_notMem_lexemes`, `for_notMem_paramLexemes` — no expression and no
      parameter has `for`;
    * `Stmt.loopsOverInt_of_spells` — statements;
    * `Program.loopsOverInt_of_spells` — programs.
-/
import Lumen.Proofs.Grammar.Balance

namespace Lumen

/-! ## §1. Expressions and types -/

theorem Expr.for_notMem_lexemes (e : Expr) : .word .for_ ∉ e.lexemes :=
  notMem_lexemes_of_not_flat rfl e

theorem Expr.for_notMem_indexLexemes (es : List Expr) : .word .for_ ∉ indexLexemes es :=
  notMem_indexLexemes (fun e _ => e.for_notMem_lexemes) (by decide) (by decide)

theorem Ty.HeadsValue.for_notMem {t : Ty} {head : List Lexeme} (h : t.HeadsValue head) :
    .word .for_ ∉ head := by
  have htype : ∀ t : Ty, .word .for_ ∉ t.lexemes := fun t => t.notMem_lexemes_of_not_flat rfl
  cases h with
  | apart t => simp [htype]
  | joined elem => simp [htype]

theorem for_notMem_paramLexemes (ps : List Param) : .word .for_ ∉ paramLexemes ps :=
  notMem_paramLexemes_of_not_flat rfl ps

/-! ## §2. Statements -/

/-- Wherever `for` stands in some lexemes, the third one after it is `int`. -/
def LoopsOverInt (ls : List Lexeme) : Prop :=
  ∀ front name colon l rest,
    ls = front ++ .word .for_ :: name :: colon :: l :: rest → l = .word .int

theorem loopsOverInt_nil : LoopsOverInt [] := by
  intro front name colon l rest h
  simp at h

theorem LoopsOverInt.cons {first : Lexeme} {ls : List Lexeme} (h : LoopsOverInt ls)
    (hfirst : first ≠ .word .for_) : LoopsOverInt (first :: ls) := by
  intro front name colon l rest heq
  cases front with
  | nil => exact absurd (List.cons.inj heq).1 hfirst
  | cons _ front => exact h front name colon l rest (List.cons.inj heq).2

/-- What has no `for` may stand in front. -/
theorem LoopsOverInt.append {ls ms : List Lexeme} (h : LoopsOverInt ms)
    (hls : .word .for_ ∉ ls) : LoopsOverInt (ls ++ ms) := by
  induction ls with
  | nil => exact h
  | cons first ls ih =>
    rw [List.mem_cons, not_or] at hls
    exact (ih hls.2).cons fun heq => hls.1 heq.symm

/-- A loop over `int` may stand in front. -/
theorem LoopsOverInt.loop {var : Bytes} {ls : List Lexeme} (h : LoopsOverInt ls) :
    LoopsOverInt (.word .for_ :: .ident var :: .mark .colon :: .word .int :: ls) := by
  have htail : LoopsOverInt (.ident var :: .mark .colon :: .word .int :: ls) :=
    ((h.cons (by decide)).cons (by decide)).cons (by simp)
  intro front name colon l rest heq
  -- it is the `for` of this loop, or one that comes later
  cases front with
  | nil => exact (List.cons.inj (List.cons.inj (List.cons.inj (List.cons.inj heq).2).2).2).1.symm
  | cons _ front => exact htail front name colon l rest (List.cons.inj heq).2

namespace Stmt

theorem loopsOverInt_of_allSpell_of {ss : List Stmt}
    (h : ∀ s ∈ ss, ∀ ls rest, s.Spells ls rest → LoopsOverInt rest → LoopsOverInt ls)
    {ls rest : List Lexeme} (hspell : AllSpell ss ls rest) (hrest : LoopsOverInt rest) :
    LoopsOverInt ls := by
  induction ss generalizing ls with
  | nil =>
    obtain rfl : ls = rest := hspell
    exact hrest
  | cons s ss ih =>
    obtain ⟨hhead, htail⟩ := List.forall_mem_cons.mp h
    obtain ⟨mid, next, hs, hnext, hss⟩ := hspell
    apply hhead ls mid hs
    rcases hnext with rfl | rfl
    · exact ih htail hss
    · exact (ih htail hss).cons (by decide)

/-- Whatever comes after a statement, nothing but a loop starts with `for`. -/
theorem loopsOverInt_of_spells (s : Stmt) (ls rest : List Lexeme) (h : s.Spells ls rest)
    (hrest : LoopsOverInt rest) : LoopsOverInt ls := by
  induction s generalizing ls rest with
  | expr p e =>
    obtain ⟨-, rfl⟩ := h
    exact hrest.append e.for_notMem_lexemes
  | assign p name indices value =>
    obtain rfl := h
    have hvalue : LoopsOverInt (.mark .equal :: (value.lexemes ++ rest)) :=
      (hrest.append value.for_notMem_lexemes).cons (by decide)
    exact (hvalue.append (Expr.for_notMem_indexLexemes indices)).cons (by simp)
  | let_ p name type init =>
    obtain ⟨-, head, hhead, rfl⟩ := h
    have hinit := (hrest.append init.for_notMem_lexemes).append hhead.for_notMem
    exact ((hinit.cons (by decide)).cons (by simp)).cons (by decide)
  | print p value =>
    obtain rfl := h
    exact (hrest.append value.for_notMem_lexemes).cons (by decide)
  | if_ p cond q ss else_ ih ih' =>
    have hend : LoopsOverInt (.word .end_ :: rest) := hrest.cons (by decide)
    rcases else_ with _ | ⟨q', others⟩
    · obtain ⟨body, rfl, hbody⟩ := h
      have hbody := loopsOverInt_of_allSpell_of ih hbody hend
      exact (hbody.append cond.for_notMem_lexemes).cons (by decide)
    · obtain ⟨body, other, rfl, hbody, hother⟩ := h
      have hother := loopsOverInt_of_allSpell_of (ih' _ rfl) hother hend
      have hbody := loopsOverInt_of_allSpell_of ih hbody (hother.cons (by decide))
      exact (hbody.append cond.for_notMem_lexemes).cons (by decide)
  | while_ p cond q ss ih =>
    obtain ⟨body, rfl, hbody⟩ := h
    have hbody := loopsOverInt_of_allSpell_of ih hbody (hrest.cons (by decide))
    exact (hbody.append cond.for_notMem_lexemes).cons (by decide)
  | for_ p var start stop q ss ih =>
    obtain ⟨body, rfl, hbody⟩ := h
    have hbody := loopsOverInt_of_allSpell_of ih hbody (hrest.cons (by decide))
    have hstop : LoopsOverInt (.mark .dotDot :: (stop.lexemes ++ body)) :=
      (hbody.append stop.for_notMem_lexemes).cons (by decide)
    exact ((hstop.append start.for_notMem_lexemes).cons (by decide)).loop
  | fn p name params q ss ih =>
    obtain ⟨-, body, rfl, hbody⟩ := h
    have hbody := loopsOverInt_of_allSpell_of ih hbody (hrest.cons (by decide))
    have hclose : LoopsOverInt (.mark .rparen :: body) := hbody.cons (by decide)
    have hparams := hclose.append (for_notMem_paramLexemes params)
    exact ((hparams.cons (by decide)).cons (by simp)).cons (by decide)
  | return_ p value =>
    cases value with
    | none =>
      obtain ⟨-, rfl⟩ := h
      exact hrest.cons (by decide)
    | some e =>
      obtain rfl := h
      exact (hrest.append e.for_notMem_lexemes).cons (by decide)

end Stmt

/-- In the text of a program every loop is over `int`. -/
theorem Program.loopsOverInt_of_spells {p : Program} {ls : List Lexeme} (h : p.Spells ls) :
    LoopsOverInt ls :=
  Stmt.loopsOverInt_of_allSpell_of (fun s _ => s.loopsOverInt_of_spells) h loopsOverInt_nil

end Lumen
