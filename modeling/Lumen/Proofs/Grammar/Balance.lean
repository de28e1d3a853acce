/-
  Lumen.Proofs.Grammar.Balance — blocks are opened and closed in pairs.

  `if`, `while`, `for` and `fn` open a block, and `end` closes one; `else` goes on with
  the one that is open.  No expression and no type has one of these words.  So the text of
  a statement closes the blocks that it opens, each after it is opened, and so does the
  text of a program.

  Main statements:
    * `Balanced` — as many blocks are closed as are opened, and none too early;
    * `Balanced.append`, `Balanced.enclosed` — how balanced texts are put together;
    * `Stmt.balanced_of_spells` — statements;
    * `Program.balanced_of_spells` — programs.
-/
import Lumen.Proofs.Grammar.Spelling

namespace Lumen

/-! ## §1. Balanced texts -/

namespace Lexeme

/-- Whether a block starts with a word. -/
def opensBlock : Lexeme → Bool
  | word .if_ | word .while_ | word .for_ | word .fn => true
  | _ => false

/-- Whether a word closes the block that was opened last. -/
def closesBlock : Lexeme → Bool
  | word .end_ => true
  | _ => false

/-- Whether a lexeme neither opens nor closes a block. -/
def isFlat (l : Lexeme) : Bool := !l.opensBlock && !l.closesBlock

end Lexeme

/-- How many blocks are opened in some lexemes. -/
def openings (ls : List Lexeme) : Nat := ls.countP Lexeme.opensBlock

/-- How many blocks are closed in some lexemes. -/
def closings (ls : List Lexeme) : Nat := ls.countP Lexeme.closesBlock

/-- Up to any place no more blocks are closed than are opened, and as many in all. -/
structure Balanced (ls : List Lexeme) : Prop where
  covered : ∀ us, us <+: ls → closings us ≤ openings us
  even : closings ls = openings ls

section
variable {l : Lexeme} {ls ms : List Lexeme}

@[simp] theorem openings_append (ls ms : List Lexeme) :
    openings (ls ++ ms) = openings ls + openings ms := List.countP_append

@[simp] theorem closings_append (ls ms : List Lexeme) :
    closings (ls ++ ms) = closings ls + closings ms := List.countP_append

/-- Where nothing is opened or closed, there is nothing to be balanced. -/
theorem balanced_of_flat (h : ∀ l ∈ ls, l.isFlat = true) : Balanced ls := by
  have hflat : ∀ us, us <+: ls → closings us = 0 ∧ openings us = 0 := by
    intro us hus
    have hall : ∀ l ∈ us, l.opensBlock = false ∧ l.closesBlock = false := by
      intro l hl
      simpa [Lexeme.isFlat] using h l (hus.subset hl)
    refine ⟨List.countP_eq_zero.mpr fun l hl => ?_, List.countP_eq_zero.mpr fun l hl => ?_⟩
    · rw [(hall l hl).2]
      exact Bool.false_ne_true
    · rw [(hall l hl).1]
      exact Bool.false_ne_true
  refine ⟨fun us hus => ?_, ?_⟩
  · rw [(hflat us hus).1]
    exact Nat.zero_le _
  · rw [(hflat ls (List.prefix_refl ls)).1, (hflat ls (List.prefix_refl ls)).2]

/-- One balanced text after the other. -/
theorem Balanced.append (h : Balanced ls) (h' : Balanced ms) : Balanced (ls ++ ms) := by
  refine ⟨fun us hus => ?_, ?_⟩
  · rcases List.prefix_or_prefix_of_prefix hus (List.prefix_append ls ms) with hleft | ⟨vs, rfl⟩
    · exact h.covered us hleft
    · have hright : vs <+: ms := (List.prefix_append_right_inj ls).mp hus
      rw [closings_append, openings_append, h.even]
      exact Nat.add_le_add_left (h'.covered vs hright) _
  · rw [closings_append, openings_append, h.even, h'.even]

theorem Balanced.cons (hl : l.isFlat = true) (h : Balanced ls) : Balanced (l :: ls) :=
  (balanced_of_flat (List.forall_mem_singleton.mpr hl)).append h

/-- A block around a balanced text. -/
theorem Balanced.enclosed (h : Balanced ls) (hl : l.opensBlock = true) :
    Balanced (l :: (ls ++ [.word .end_])) := by
  have hcloses : l.closesBlock = false := by
    cases l with
    | word w => cases w <;> first | rfl | cases hl
    | _ => rfl
  have hopenings : ∀ us, openings (l :: us) = openings us + 1 :=
    fun us => List.countP_cons_of_pos hl
  have hclosings : ∀ us, closings (l :: us) = closings us :=
    fun us => List.countP_cons_of_neg (by simp [hcloses])
  -- the word at the end closes one more, and the word in front has opened one more
  have hall : closings (ls ++ [.word .end_]) = openings (ls ++ [.word .end_]) + 1 := by
    rw [closings_append, openings_append, h.even]
    rfl
  refine ⟨fun us hus => ?_, ?_⟩
  · cases us with
    | nil => exact Nat.le_refl 0
    | cons l' us =>
      obtain ⟨rfl, hrest⟩ := List.cons_prefix_cons.mp hus
      rw [hopenings, hclosings]
      -- a start of it is the whole, or the word in front and a start of what is inside
      rcases List.prefix_concat_iff.mp hrest with rfl | hinner
      · exact Nat.le_of_eq hall
      · exact Nat.le_succ_of_le (h.covered us hinner)
  · rw [hopenings, hclosings, hall]

end

/-! ## §2. Expressions and types -/

namespace Expr

section
variable {l : Lexeme} {es : List Expr} (h : ∀ e ∈ es, l ∉ e.lexemes)
include h

theorem notMem_indexLexemes (hopen : l ≠ .mark .lbracket) (hclose : l ≠ .mark .rbracket) :
    l ∉ indexLexemes es := by
  induction es with
  | nil => exact List.not_mem_nil
  | cons e rest ih =>
    obtain ⟨hhead, htail⟩ := List.forall_mem_cons.mp h
    simp [indexLexemes, hopen, hclose, hhead, ih htail]

theorem notMem_listLexemes (hcomma : l ≠ .mark .comma) : l ∉ listLexemes es := by
  induction es with
  | nil => exact List.not_mem_nil
  | cons e rest ih =>
    obtain ⟨hhead, htail⟩ := List.forall_mem_cons.mp h
    by_cases hrest : rest = []
    · rw [hrest]
      exact hhead
    · rw [listLexemes_cons e hrest]
      simp [hcomma, hhead, ih htail]

end

end Expr

section
variable {l : Lexeme} (hl : l.isFlat = false)
include hl

theorem ne_mark_of_not_flat (m : Mark) : l ≠ .mark m := by
  rintro rfl
  cases hl

theorem ne_ident_of_not_flat (name : Bytes) : l ≠ .ident name := by
  rintro rfl
  cases hl

theorem Expr.notMem_lexemes_of_not_flat (e : Expr) : l ∉ e.lexemes := by
  have hmark := ne_mark_of_not_flat hl
  have hident := ne_ident_of_not_flat hl
  have hliteral : ∀ v, l ≠ .literal v := by
    rintro v rfl
    cases hl
  have hop : ∀ op : LogicalOp, l ≠ .word op.word := by
    rintro op rfl
    cases op <;> cases hl
  induction e with
  | literal p v => simp [lexemes, hliteral]
  | access p name indices ih => simp [lexemes, hident, notMem_indexLexemes ih, hmark]
  | neg p e ih => simp [lexemes, hmark, ih]
  | binary p op lhs rhs ihl ihr => simp [lexemes, hmark, ihl, ihr]
  | logical p op lhs rhs ihl ihr => simp [lexemes, hop, ihl, ihr]
  | group p inner ih => simp [lexemes, hmark, ih]
  | list p elements ih => simp [lexemes, hmark, notMem_listLexemes ih]
  | call p name args ih => simp [lexemes, hident, hmark, notMem_listLexemes ih]
  | method p name indices m args ihi iha =>
    simp [lexemes, hident, hmark, notMem_indexLexemes ihi, notMem_listLexemes iha]

theorem Ty.notMem_lexemes_of_not_flat (t : Ty) : l ∉ t.lexemes := by
  have hmark := ne_mark_of_not_flat hl
  have hword : ∀ w, (Lexeme.word w).isFlat = true → l ≠ .word w := by
    rintro w hw rfl
    rw [hw] at hl
    cases hl
  induction t with
  | list elem ih => simp [lexemes, hmark, ih, hword .list rfl]
  | int => simp [lexemes, hword .int rfl]
  | float => simp [lexemes, hword .float rfl]
  | string => simp [lexemes, hword .string rfl]
  | bool => simp [lexemes, hword .bool rfl]
  | any => simp [lexemes]

theorem notMem_paramLexemes_of_not_flat (ps : List Param) : l ∉ paramLexemes ps := by
  have hmark := ne_mark_of_not_flat hl
  have hident := ne_ident_of_not_flat hl
  induction ps with
  | nil => exact List.not_mem_nil
  | cons p rest ih =>
    have htype := Ty.notMem_lexemes_of_not_flat hl p.type
    by_cases hrest : rest = []
    · simp [hrest, paramLexemes, hmark, hident, htype]
    · rw [paramLexemes_cons p hrest]
      simp [hmark, hident, htype, ih]

end

theorem balanced_of_notMem {ls : List Lexeme} (h : ∀ {l : Lexeme}, l.isFlat = false → l ∉ ls) :
    Balanced ls := by
  apply balanced_of_flat
  intro l hl
  cases hflat : l.isFlat with
  | true => rfl
  | false => exact absurd hl (h hflat)

theorem Expr.balanced (e : Expr) : Balanced e.lexemes :=
  balanced_of_notMem fun hl => notMem_lexemes_of_not_flat hl e

theorem Expr.balanced_indexLexemes (es : List Expr) : Balanced (indexLexemes es) :=
  balanced_of_notMem fun hl => notMem_indexLexemes (fun e _ => notMem_lexemes_of_not_flat hl e)
    (ne_mark_of_not_flat hl _) (ne_mark_of_not_flat hl _)

theorem Ty.balanced (t : Ty) : Balanced t.lexemes :=
  balanced_of_notMem fun hl => notMem_lexemes_of_not_flat hl t

theorem Ty.HeadsValue.balanced {t : Ty} {head : List Lexeme} (h : t.HeadsValue head) :
    Balanced head := by
  cases h with
  | apart t => exact t.balanced.append (balanced_of_flat (by decide))
  | joined elem =>
    exact ((elem.balanced.append (balanced_of_flat (by decide))).cons rfl).cons rfl

theorem balanced_paramLexemes (ps : List Param) : Balanced (paramLexemes ps) :=
  balanced_of_notMem fun hl => notMem_paramLexemes_of_not_flat hl ps

/-! ## §3. Statements -/

namespace Stmt

/-- Whether some lexemes start with a balanced text, and end with others. -/
def BalancedBefore (ls rest : List Lexeme) : Prop := ∃ body, ls = body ++ rest ∧ Balanced body

section
variable {ls ms rest : List Lexeme}

theorem balancedBefore_refl (rest : List Lexeme) : BalancedBefore rest rest :=
  ⟨[], rfl, balanced_of_flat (List.forall_mem_nil _)⟩

theorem BalancedBefore.append (h : BalancedBefore ms rest) (hls : Balanced ls) :
    BalancedBefore (ls ++ ms) rest := by
  obtain ⟨body, rfl, hbody⟩ := h
  exact ⟨ls ++ body, (List.append_assoc _ _ _).symm, hls.append hbody⟩

theorem BalancedBefore.cons {l : Lexeme} (h : BalancedBefore ms rest) (hl : l.isFlat = true) :
    BalancedBefore (l :: ms) rest :=
  h.append (balanced_of_flat (List.forall_mem_singleton.mpr hl))

theorem BalancedBefore.trans (h : BalancedBefore ls ms) (h' : BalancedBefore ms rest) :
    BalancedBefore ls rest := by
  obtain ⟨body, rfl, hbody⟩ := h
  exact h'.append hbody

/-- What stands between the word that opens a block and the `end` of it. -/
theorem BalancedBefore.enclosed {l : Lexeme} (h : BalancedBefore ls (.word .end_ :: rest))
    (hl : l.opensBlock = true) : BalancedBefore (l :: ls) rest := by
  obtain ⟨body, rfl, hbody⟩ := h
  exact ⟨l :: (body ++ [.word .end_]), by simp, hbody.enclosed hl⟩

theorem balanced_of_allSpell_of {ss : List Stmt}
    (h : ∀ s ∈ ss, ∀ ls rest, s.Spells ls rest → BalancedBefore ls rest)
    (hspell : AllSpell ss ls rest) : BalancedBefore ls rest := by
  induction ss generalizing ls with
  | nil =>
    obtain rfl : ls = rest := hspell
    exact balancedBefore_refl ls
  | cons s ss ih =>
    obtain ⟨hhead, htail⟩ := List.forall_mem_cons.mp h
    obtain ⟨mid, next, hs, hnext, hss⟩ := hspell
    apply (hhead ls mid hs).trans
    rcases hnext with rfl | rfl
    · exact ih htail hss
    · exact (ih htail hss).cons rfl

end

/-- A statement closes the blocks that it opens, whatever comes after it. -/
theorem balanced_of_spells (s : Stmt) (ls rest : List Lexeme) (h : s.Spells ls rest) :
    BalancedBefore ls rest := by
  have hrefl := balancedBefore_refl
  induction s generalizing ls rest with
  | expr p e =>
    obtain ⟨-, rfl⟩ := h
    exact (hrefl rest).append e.balanced
  | assign p name indices value =>
    obtain rfl := h
    exact ((((hrefl rest).append value.balanced).cons rfl).append
      (Expr.balanced_indexLexemes indices)).cons rfl
  | let_ p name type init =>
    obtain ⟨-, head, hhead, rfl⟩ := h
    have hinit := ((hrefl rest).append init.balanced).append hhead.balanced
    exact ((hinit.cons rfl).cons rfl).cons rfl
  | print p value =>
    obtain rfl := h
    exact ((hrefl rest).append value.balanced).cons rfl
  | if_ p cond q ss else_ ih ih' =>
    rcases else_ with _ | ⟨q', others⟩
    · obtain ⟨body, rfl, hbody⟩ := h
      exact ((balanced_of_allSpell_of ih hbody).append cond.balanced).enclosed rfl
    · obtain ⟨body, other, rfl, hbody, hother⟩ := h
      have hothers := balanced_of_allSpell_of (ih' _ rfl) hother
      have hboth := (balanced_of_allSpell_of ih hbody).trans (hothers.cons rfl)
      exact (hboth.append cond.balanced).enclosed rfl
  | while_ p cond q ss ih =>
    obtain ⟨body, rfl, hbody⟩ := h
    exact ((balanced_of_allSpell_of ih hbody).append cond.balanced).enclosed rfl
  | for_ p var start stop q ss ih =>
    obtain ⟨body, rfl, hbody⟩ := h
    have hstop := (balanced_of_allSpell_of ih hbody).append stop.balanced
    have hrange : BalancedBefore (.mark .dotDot :: (stop.lexemes ++ body)) (.word .end_ :: rest) :=
      hstop.cons rfl
    have hstart := hrange.append start.balanced
    exact ((((hstart.cons rfl).cons rfl).cons rfl).cons rfl).enclosed rfl
  | fn p name params q ss ih =>
    obtain ⟨-, body, rfl, hbody⟩ := h
    have hclose : BalancedBefore (.mark .rparen :: body) (.word .end_ :: rest) :=
      (balanced_of_allSpell_of ih hbody).cons rfl
    have hparams := hclose.append (balanced_paramLexemes params)
    exact ((hparams.cons rfl).cons rfl).enclosed rfl
  | return_ p value =>
    cases value with
    | none =>
      obtain ⟨-, rfl⟩ := h
      exact (hrefl rest).cons rfl
    | some e =>
      obtain rfl := h
      exact ((hrefl rest).append e.balanced).cons rfl

end Stmt

/-- **Blocks are balanced.**  In the text of a program no block is closed that is not open,
    and none is left open. -/
theorem Program.balanced_of_spells {p : Program} {ls : List Lexeme} (h : p.Spells ls) :
    Balanced ls := by
  obtain ⟨body, rfl, hbody⟩ :=
    Stmt.balanced_of_allSpell_of (fun s _ => s.balanced_of_spells) h
  rwa [List.append_nil]

end Lumen
