/-
  Lumen.Proofs.Reading.ExprComplete — every levelled expression is read back.

  Where the lexemes that are left start with those of a levelled expression, a
  reader gives that expression and leaves the rest, unless it runs out of steps.
  What follows must not go on the expression: each lexeme binds with some
  strength, and what follows an expression that is read at a level must bind
  less.

  A left-associative operator is read from its innermost left operand outwards.
  So the law of `chain` is told in terms of what is still to be read once the
  expression so far is complete.

  Main statements:
    * `Lexeme.binding`, `Weaker` — what goes on an expression, and what does not;
    * `leftAssoc_finds` … `primary_finds` — level by level;
    * `expr_finds` — expressions.
-/
import Lumen.Proofs.Reading.ExprSound

namespace Lumen

/-! ## §1. What may follow and what may come first -/

namespace Lexeme

/-- How strongly a lexeme binds to the expression before it: as strongly as the
    operator it is, most strongly if it opens what follows a name, and not at
    all otherwise. -/
def binding : Lexeme → Nat
  | word .or => 1
  | word .and => 2
  | mark .plus | mark .minus => 4
  | mark .star | mark .slash => 5
  | mark .lparen | mark .lbracket | mark .dot => 7
  | mark m => if m.isComparison then 3 else 0
  | _ => 0

/-- Whether an expression can start with a lexeme. -/
def startsExpr : Lexeme → Bool
  | literal _ | ident _ | mark .minus | mark .lparen | mark .lbracket => true
  | _ => false

end Lexeme

theorem Operator.binding_lexeme (op : Operator) : op.lexeme.binding = op.level := by
  rcases op with op | op <;> cases op <;> rfl

/-- Whether some lexemes do not go on an expression of level `k`. -/
def Weaker (k : Nat) (rest : List Lexeme) : Prop := ∀ l ∈ rest.head?, l.binding < k

theorem Weaker.mono {j k : Nat} {rest : List Lexeme} (h : Weaker j rest) (hle : j ≤ k) :
    Weaker k rest := fun l hl => Nat.lt_of_lt_of_le (h l hl) hle

theorem weaker_cons {k : Nat} {l : Lexeme} {rest : List Lexeme} (h : l.binding < k) :
    Weaker k (l :: rest) := by
  intro l' hl
  cases hl
  exact h

namespace Expr

/-- An expression is written with at least one lexeme, which can start one. -/
theorem exists_lexemes (e : Expr) : ∃ l ls, e.lexemes = l :: ls ∧ l.startsExpr = true := by
  induction e with
  | binary p op lhs rhs ih _ =>
    obtain ⟨l, ls, hl, hstarts⟩ := ih
    exact ⟨l, _, by rw [lexemes, hl]; rfl, hstarts⟩
  | logical p op lhs rhs ih _ =>
    obtain ⟨l, ls, hl, hstarts⟩ := ih
    exact ⟨l, _, by rw [lexemes, hl]; rfl, hstarts⟩
  | literal => exact ⟨_, _, rfl, rfl⟩
  | access => exact ⟨_, _, rfl, rfl⟩
  | neg => exact ⟨_, _, rfl, rfl⟩
  | group => exact ⟨_, _, rfl, rfl⟩
  | list => exact ⟨_, _, rfl, rfl⟩
  | call => exact ⟨_, _, rfl, rfl⟩
  | method => exact ⟨_, _, rfl, rfl⟩

theorem exists_listLexemes (e : Expr) (es : List Expr) :
    ∃ l ls, listLexemes (e :: es) = l :: ls ∧ l.startsExpr = true := by
  obtain ⟨l, ls, hl, hstarts⟩ := e.exists_lexemes
  cases es with
  | nil => exact ⟨l, ls, hl, hstarts⟩
  | cons e₂ es =>
    rw [listLexemes_cons e (List.cons_ne_nil e₂ es), hl]
    exact ⟨l, _, rfl, hstarts⟩

/-- Only a sign starts with a sign, unless an operator follows. -/
theorem head?_ne_minus {e : Expr} (h : 7 ≤ e.level) (rest : List Lexeme) :
    (e.lexemes ++ rest).head? ≠ some (.mark .minus) := by
  cases e with
  | binary p op =>
    exact absurd (Operator.binary op).level_lt_six (by simp only [level] at h; omega)
  | logical p op =>
    exact absurd (Operator.logical op).level_lt_six (by simp only [level] at h; omega)
  | neg => exact absurd h (by simp [level])
  | _ => simp [lexemes]

/-- Induction along the left operands of the operators of one level. -/
theorem ind_left {k : Nat} (hk : k < 6) {motive : Expr → Prop}
    (other : ∀ e, e.level ≠ k → motive e)
    (node : ∀ (op : Operator) p lhs rhs, op.level = k → motive lhs → motive (op.node p lhs rhs))
    (e : Expr) : motive e := by
  induction e with
  | binary p op lhs rhs ih _ =>
    by_cases h : (Operator.binary op).level = k
    · exact node (.binary op) p lhs rhs h ih
    · exact other _ h
  | logical p op lhs rhs ih _ =>
    by_cases h : (Operator.logical op).level = k
    · exact node (.logical op) p lhs rhs h ih
    · exact other _ h
  | _ => exact other _ (by simp only [level]; omega)

end Expr

namespace Parse
open CursorM Cursor

/-! ## §2. Single lexemes

A lexeme that is there is read, so a failure need not be considered. -/

section
variable {c : Cursor} {l : Lexeme} {rest : List Lexeme} {E : Failure → Cursor → Prop}

theorem advance_finds (h : c.lexemes = l :: rest) :
    Ends advance c (fun t c' => t.lexeme = l ∧ c'.lexemes = rest) E := by
  refine ends_advance (by rw [h]; rfl) fun t c' ht h' => ⟨ht, ?_⟩
  rw [h] at h'
  exact (List.cons.inj h').2.symm

theorem accept_finds (h : c.lexemes = l :: rest) :
    Ends (accept l) c (fun b c' => b = true ∧ c'.lexemes = rest) E := by
  refine ends_accept l (fun c' h' => ⟨rfl, ?_⟩) fun hno => absurd (by rw [h]; rfl) hno
  rw [h] at h'
  exact (List.cons.inj h').2.symm

theorem accept_passes (h : c.lexemes.head? ≠ some l) :
    Ends (accept l) c (fun b c' => b = false ∧ c' = c) E :=
  ends_accept l (fun c' h' => absurd (by rw [h']; rfl) h) fun _ => ⟨rfl, rfl⟩

/-- The two ways to go on after a lexeme that may be there. -/
theorem accept_finds_bind {α : Type} {k : Bool → CursorM α} {Q : α → Cursor → Prop}
    (h : c.lexemes = l :: rest) (hk : ∀ c' : Cursor, c'.lexemes = rest → Ends (k true) c' Q E) :
    Ends (accept l >>= k) c Q E := by
  apply (accept_finds h).bind
  rintro b c' ⟨rfl, h'⟩
  exact hk c' h'

theorem accept_passes_bind {α : Type} {k : Bool → CursorM α} {Q : α → Cursor → Prop}
    (h : c.lexemes.head? ≠ some l) (hk : Ends (k false) c Q E) :
    Ends (accept l >>= k) c Q E := by
  apply (accept_passes h).bind
  rintro b c' ⟨rfl, rfl⟩
  exact hk

theorem mark_finds {m : Mark} (h : c.lexemes = .mark m :: rest) :
    Ends (mark m) c (fun _ c' => c'.lexemes = rest) E := by
  refine ends_mark m (fun c' h' => ?_) fun hno => absurd (by rw [h]; rfl) hno
  rw [h] at h'
  exact (List.cons.inj h').2.symm

theorem word_finds {w : Word} (h : c.lexemes = .word w :: rest) :
    Ends (word w) c (fun _ c' => c'.lexemes = rest) E := by
  refine ends_word w (fun c' h' => ?_) fun hno => absurd (by rw [h]; rfl) hno
  rw [h] at h'
  exact (List.cons.inj h').2.symm

theorem identifier_finds {name : Bytes} (h : c.lexemes = .ident name :: rest)
    (expected : Expected) :
    Ends (identifier expected) c (fun name' c' => name' = name ∧ c'.lexemes = rest) E := by
  refine ends_identifier expected (fun name' c' h' => ?_)
    fun hno => absurd (by rw [h]; rfl) (hno name)
  rw [h] at h'
  obtain ⟨hname, hrest⟩ := List.cons.inj h'
  cases hname
  exact ⟨rfl, hrest.symm⟩

end

/-! ## §3. Levels -/

/-- Whether a reader finds the expressions of a level. -/
def FindsLevel (k : Nat) (m : CursorM Expr) : Prop :=
  ∀ (e : Expr) (rest : List Lexeme) (c : Cursor), e.isLevelled = true → k ≤ e.level →
    Weaker k rest → c.lexemes = e.lexemes ++ rest →
    Ends m c (fun e' c' => e'.erase = e.erase ∧ c'.lexemes = rest) fun f _ => f = .outOfSteps

section
variable {k : Nat} {join? : Lexeme → Option Join} {operand : CursorM Expr}

theorem JoinsAt.eq_none (hjoin : JoinsAt k join?) {l : Lexeme} (hl : l.binding < k) :
    join? l = none := by
  cases h : join? l with
  | none => rfl
  | some join =>
    obtain ⟨op, hop, rfl, -⟩ := (hjoin l join).mp h
    rw [op.binding_lexeme, hop] at hl
    exact absurd hl (Nat.lt_irrefl k)

/-- An operator of the level is found. -/
theorem select?_finds (hjoin : JoinsAt k join?) {op : Operator} (hop : op.level = k) {c : Cursor}
    {rest : List Lexeme} (h : c.lexemes = op.lexeme :: rest) {E : Failure → Cursor → Prop} :
    Ends (select? join?) c
      (fun j c' => j = some (fun lhs rhs => op.node lhs.pos lhs rhs) ∧ c'.lexemes = rest) E := by
  have hsome : join? op.lexeme = some fun lhs rhs => op.node lhs.pos lhs rhs :=
    (hjoin _ _).mpr ⟨op, hop, rfl, rfl⟩
  refine ends_select? join? (fun l j c' h' hj => ?_) fun hno => ?_
  · rw [h] at h'
    obtain ⟨rfl, hrest⟩ := List.cons.inj h'
    exact ⟨hj.symm.trans hsome, hrest.symm⟩
  · have := hno op.lexeme (by rw [h]; rfl)
    rw [hsome] at this
    cases this

/-- Where nothing goes on an expression, no operator is found. -/
theorem select?_passes (hjoin : JoinsAt k join?) {c : Cursor} (h : Weaker k c.lexemes)
    {E : Failure → Cursor → Prop} :
    Ends (select? join?) c (fun j c' => j = none ∧ c' = c) E := by
  refine ends_select? join? (fun l j c' h' hj => ?_) fun _ => ⟨rfl, rfl⟩
  rw [hjoin.eq_none (h l (by rw [h']; rfl))] at hj
  cases hj

/-- To read an expression of a left-associative level and what follows, it is
    enough to go on from the expression. -/
theorem leftAssoc_finds_of (hjoin : JoinsAt k join?) (hk : k < 6) (hassoc : k ≠ 3)
    (hop : FindsLevel (k + 1) operand) {Q : Expr → Cursor → Prop} {steps : Nat} (e : Expr)
    (rest : List Lexeme) (c : Cursor) (he : e.isLevelled = true) (hlevel : k ≤ e.level)
    (hrest : Weaker (k + 1) rest) (h : c.lexemes = e.lexemes ++ rest)
    (hgo : ∀ e' c' m, e'.erase = e.erase → c'.lexemes = rest →
      Ends (chain join? operand m e') c' Q fun f _ => f = .outOfSteps) :
    Ends (leftAssoc join? operand steps) c Q fun f _ => f = .outOfSteps := by
  -- along the left operands; what is to be read after them grows on the way in
  induction e using Expr.ind_left hk generalizing rest c with
  | other e hne =>
    apply (hop e rest c he (by omega) hrest h).bind
    rintro e' c' ⟨he', h'⟩
    exact hgo e' c' steps he' h'
  | node op p lhs rhs hopk ih =>
    obtain ⟨⟨hlhs, hleft⟩, hrhs, hright⟩ := (Expr.isLevelled_node op p lhs rhs).mp he
    rw [Operator.leftLevel, hopk, if_neg hassoc] at hleft
    rw [hopk] at hright
    rw [Expr.lexemes_node, List.append_assoc, List.cons_append] at h
    have hop' : op.lexeme.binding < k + 1 := by
      rw [op.binding_lexeme, hopk]
      exact Nat.lt_succ_self k
    refine ih (op.lexeme :: (rhs.lexemes ++ rest)) c hlhs hleft (weaker_cons hop') h ?_
    intro lhs' c₁ m hlhs' h₁
    -- the left operand is complete: read the operator and the right one
    cases m with
    | zero => rfl
    | succ m =>
      unfold chain
      apply (select?_finds hjoin hopk h₁).bind
      rintro j c₂ ⟨rfl, h₂⟩
      apply (hop rhs rest c₂ hrhs hright hrest h₂).bind
      rintro rhs' c₃ ⟨hrhs', h₃⟩
      refine hgo _ c₃ m ?_ h₃
      rw [Expr.erase_node, Expr.erase_node, hlhs', hrhs']

theorem leftAssoc_finds (hjoin : JoinsAt k join?) (hk : k < 6) (hassoc : k ≠ 3)
    (hop : FindsLevel (k + 1) operand) (steps : Nat) :
    FindsLevel k (leftAssoc join? operand steps) := by
  intro e rest c he hlevel hrest h
  refine leftAssoc_finds_of hjoin hk hassoc hop e rest c he hlevel (hrest.mono (Nat.le_succ k)) h ?_
  intro e' c' m he' h'
  cases m with
  | zero => rfl
  | succ m =>
    unfold chain
    apply (select?_passes hjoin (h'.symm ▸ hrest)).bind
    rintro j c₁ ⟨rfl, hc₁⟩
    exact ⟨he', hc₁ ▸ h'⟩

theorem nonAssoc_finds (hjoin : JoinsAt 3 join?) (hop : FindsLevel 4 operand) :
    FindsLevel 3 (nonAssoc join? operand) := by
  intro e rest c he hlevel hrest h
  unfold nonAssoc
  -- a comparison, or one operand and nothing else
  by_cases h3 : e.level = 3
  · obtain ⟨op, p, lhs, rhs, rfl⟩ := Expr.eq_node_of_level_lt (by omega : e.level < 6)
    rw [Expr.level_node] at h3
    obtain ⟨⟨hlhs, hleft⟩, hrhs, hright⟩ := (Expr.isLevelled_node op p lhs rhs).mp he
    rw [Operator.leftLevel, h3, if_pos rfl] at hleft
    rw [h3] at hright
    rw [Expr.lexemes_node, List.append_assoc, List.cons_append] at h
    have hop3 : op.lexeme.binding < 4 := by rw [op.binding_lexeme, h3]; decide
    apply (hop lhs _ c hlhs hleft (weaker_cons hop3) h).bind
    rintro lhs' c₁ ⟨hlhs', h₁⟩
    apply (select?_finds hjoin h3 h₁).bind
    rintro j c₂ ⟨rfl, h₂⟩
    apply (hop rhs rest c₂ hrhs hright (hrest.mono (by decide)) h₂).bind
    rintro rhs' c₃ ⟨hrhs', h₃⟩
    refine ⟨?_, h₃⟩
    rw [Expr.erase_node, Expr.erase_node, hlhs', hrhs']
  · apply (hop e rest c he (by omega) (hrest.mono (by decide)) h).bind
    rintro e' c₁ ⟨he', h₁⟩
    apply (select?_passes hjoin (h₁.symm ▸ hrest)).bind
    rintro j c₂ ⟨rfl, hc₂⟩
    exact ⟨he', hc₂ ▸ h₁⟩

theorem signed_finds (hop : FindsLevel 7 operand) (steps : Nat) :
    FindsLevel 6 (signed operand steps) := by
  intro e rest c he hlevel hrest h
  induction steps generalizing e c with
  | zero => rfl
  | succ steps ih =>
    unfold signed
    rw [ends_bind, ends_isAt]
    -- the level of the sign holds nothing but signs
    by_cases h6 : e.level = 6
    · obtain ⟨p, e₁, rfl⟩ := Expr.eq_neg_of_level_eq h6
      rw [Expr.isLevelled, Bool.and_eq_true, decide_eq_true_eq] at he
      have h' : c.lexemes = .mark .minus :: (e₁.lexemes ++ rest) := h
      rw [h', List.head?_cons, if_pos (beq_self_eq_true _)]
      apply (advance_finds h').bind
      rintro t c₁ ⟨_, h₁⟩
      apply (ih e₁ c₁ he.1 he.2 h₁).bind
      rintro e' c₂ ⟨he', h₂⟩
      refine ⟨?_, h₂⟩
      rw [Expr.erase, Expr.erase, he']
    · rw [if_neg (by rw [h]; simpa using Expr.head?_ne_minus (by omega : 7 ≤ e.level) rest)]
      exact hop e rest c he (by omega) (hrest.mono (by decide)) h

end

/-! ## §4. What stands by itself -/

section
variable {expr : CursorM Expr} (hexpr : FindsLevel 1 expr)
include hexpr

/-- Expressions between commas are found up to a closing mark, with which no
    expression starts. -/
theorem listed_finds {close : Mark} (hclose : close = .rparen ∨ close = .rbracket) (steps : Nat)
    (es : List Expr) (hne : es ≠ []) (rest : List Lexeme) (c : Cursor)
    (hes : Expr.areLevelled es = true)
    (h : c.lexemes = Expr.listLexemes es ++ .mark close :: rest) :
    Ends (listed close expr steps) c
      (fun es' c' => Expr.eraseAll es' = Expr.eraseAll es ∧ c'.lexemes = rest)
      fun f _ => f = .outOfSteps := by
  induction steps generalizing es c with
  | zero => rfl
  | succ steps ih =>
    cases es with
    | nil => exact absurd rfl hne
    | cons e es =>
      rw [Expr.areLevelled, Bool.and_eq_true] at hes
      unfold listed
      cases es with
      -- the last expression ends where the closing mark is
      | nil =>
        have hweak : Weaker 1 (.mark close :: rest) :=
          weaker_cons (by rcases hclose with rfl | rfl <;> decide)
        apply (hexpr e _ c hes.1 e.level_pos hweak h).bind
        rintro e' c₁ ⟨he', h₁⟩
        have hcomma : c₁.lexemes.head? ≠ some (.mark .comma) := by
          rw [h₁]
          rcases hclose with rfl | rfl <;> simp
        apply accept_passes_bind hcomma
        rw [if_neg Bool.false_ne_true]
        refine (mark_finds h₁).bind fun _ c₃ h₃ => ⟨?_, h₃⟩
        show [e'.erase] = [e.erase]
        rw [he']
      | cons e₂ es =>
        rw [Expr.listLexemes_cons e (List.cons_ne_nil e₂ es), List.append_assoc] at h
        apply (hexpr e _ c hes.1 e.level_pos (weaker_cons (by decide)) h).bind
        rintro e' c₁ ⟨he', h₁⟩
        apply accept_finds_bind h₁
        intro c₂ h₂
        rw [if_pos rfl, ends_bind, ends_isAt, if_neg]
        · apply (ih (e₂ :: es) (List.cons_ne_nil e₂ es) c₂ hes.2 h₂).bind
          rintro es' c₃ ⟨hes', h₃⟩
          refine ⟨?_, h₃⟩
          rw [Expr.eraseAll, Expr.eraseAll, he', hes']
        -- after the comma comes an expression, so no closing mark
        · obtain ⟨l, ls, hl, hstarts⟩ := Expr.exists_listLexemes e₂ es
          rw [h₂, hl]
          rcases hclose with rfl | rfl <;> intro heq <;> cases eq_of_beq heq <;> cases hstarts

theorem arguments_finds {close : Mark} (hclose : close = .rparen ∨ close = .rbracket) (steps : Nat)
    (es : List Expr) (rest : List Lexeme) (c : Cursor) (hes : Expr.areLevelled es = true)
    (h : c.lexemes = Expr.listLexemes es ++ .mark close :: rest) :
    Ends (arguments close expr steps) c
      (fun es' c' => Expr.eraseAll es' = Expr.eraseAll es ∧ c'.lexemes = rest)
      fun f _ => f = .outOfSteps := by
  unfold arguments
  cases es with
  | nil =>
    apply accept_finds_bind h
    intro c₁ h₁
    exact ⟨rfl, h₁⟩
  | cons e es =>
    -- an expression starts with no closing mark, so the list is not empty
    have hhead : c.lexemes.head? ≠ some (.mark close) := by
      obtain ⟨l, ls, hl, hstarts⟩ := Expr.exists_listLexemes e es
      rw [h, hl]
      rcases hclose with rfl | rfl <;> intro heq <;> cases heq <;> cases hstarts
    apply accept_passes_bind hhead
    exact listed_finds hexpr hclose steps _ (List.cons_ne_nil e es) rest _ hes h

theorem indices_finds (steps : Nat) (es : List Expr) (rest : List Lexeme) (c : Cursor)
    (hes : Expr.areLevelled es = true) (hrest : rest.head? ≠ some (.mark .lbracket))
    (h : c.lexemes = Expr.indexLexemes es ++ rest) :
    Ends (indices expr steps) c
      (fun es' c' => Expr.eraseAll es' = Expr.eraseAll es ∧ c'.lexemes = rest)
      fun f _ => f = .outOfSteps := by
  induction steps generalizing es c with
  | zero => rfl
  | succ steps ih =>
    unfold indices
    cases es with
    | nil =>
      apply accept_passes_bind (h.symm ▸ hrest)
      exact ⟨rfl, h⟩
    | cons e es =>
      rw [Expr.areLevelled, Bool.and_eq_true] at hes
      have h' : c.lexemes
          = .mark .lbracket
            :: (e.lexemes ++ .mark .rbracket :: (Expr.indexLexemes es ++ rest)) := by
        rw [h, Expr.indexLexemes]
        simp
      apply accept_finds_bind h'
      intro c₁ h₁
      rw [if_pos rfl]
      apply (hexpr e _ c₁ hes.1 e.level_pos (weaker_cons (by decide)) h₁).bind
      rintro e' c₂ ⟨he', h₂⟩
      apply (mark_finds h₂).bind
      intro _ c₃ h₃
      apply (ih es c₃ hes.2 h₃).bind
      rintro es' c₄ ⟨hes', h₄⟩
      refine ⟨?_, h₄⟩
      rw [Expr.eraseAll, Expr.eraseAll, he', hes']

/-- After a name, a parenthesis opens a call. -/
theorem call_finds (steps : Nat) (pos : Pos) (name : Bytes) (args : List Expr)
    (rest : List Lexeme) (c : Cursor) (hargs : Expr.areLevelled args = true)
    (h : c.lexemes = .mark .lparen :: (Expr.listLexemes args ++ .mark .rparen :: rest)) :
    Ends (named expr steps pos name) c
      (fun e' c' => e'.erase = .call {} name (Expr.eraseAll args) ∧ c'.lexemes = rest)
      fun f _ => f = .outOfSteps := by
  unfold named
  apply accept_finds_bind h
  intro c₁ h₁
  rw [if_pos rfl]
  apply (arguments_finds hexpr (.inl rfl) steps args rest c₁ hargs h₁).bind
  rintro args' c₂ ⟨hargs', h₂⟩
  refine ⟨?_, h₂⟩
  rw [Expr.erase, hargs']

/-- After a name and its indices, whatever binds less than a dot ends an access. -/
theorem access_finds (steps : Nat) (pos : Pos) (name : Bytes) (path : List Expr)
    (rest : List Lexeme) (c : Cursor) (hpath : Expr.areLevelled path = true)
    (hrest : Weaker 7 rest) (h : c.lexemes = Expr.indexLexemes path ++ rest) :
    Ends (named expr steps pos name) c
      (fun e' c' => e'.erase = .access {} name (Expr.eraseAll path) ∧ c'.lexemes = rest)
      fun f _ => f = .outOfSteps := by
  unfold named
  have hparen : c.lexemes.head? ≠ some (.mark .lparen) := by
    rw [h]
    cases path with
    | nil => exact fun heq => absurd (hrest _ heq) (by decide)
    | cons => simp [Expr.indexLexemes]
  apply accept_passes_bind hparen
  rw [if_neg Bool.false_ne_true]
  have hbracket : rest.head? ≠ some (.mark .lbracket) :=
    fun heq => absurd (hrest _ heq) (by decide)
  apply (indices_finds hexpr steps path rest c hpath hbracket h).bind
  rintro path' c₂ ⟨hpath', h₂⟩
  have hdot : c₂.lexemes.head? ≠ some (.mark .dot) := by
    rw [h₂]
    exact fun heq => absurd (hrest _ heq) (by decide)
  apply accept_passes_bind hdot
  exact ⟨by rw [Expr.erase, hpath'], h₂⟩

/-- After a name and its indices, a dot opens the call of a method. -/
theorem method_finds (steps : Nat) (pos : Pos) (name : Bytes) (path : List Expr) (m : Bytes)
    (args : List Expr) (rest : List Lexeme) (c : Cursor) (hpath : Expr.areLevelled path = true)
    (hargs : Expr.areLevelled args = true)
    (h : c.lexemes = Expr.indexLexemes path ++ .mark .dot :: .ident m :: .mark .lparen
      :: (Expr.listLexemes args ++ .mark .rparen :: rest)) :
    Ends (named expr steps pos name) c
      (fun e' c' => e'.erase = .method {} name (Expr.eraseAll path) m (Expr.eraseAll args)
        ∧ c'.lexemes = rest)
      fun f _ => f = .outOfSteps := by
  unfold named
  have hparen : c.lexemes.head? ≠ some (.mark .lparen) := by
    rw [h]
    cases path <;> simp [Expr.indexLexemes]
  apply accept_passes_bind hparen
  rw [if_neg Bool.false_ne_true]
  apply (indices_finds hexpr steps path _ c hpath (by simp) h).bind
  rintro path' c₂ ⟨hpath', h₂⟩
  apply accept_finds_bind h₂
  intro c₃ h₃
  rw [if_pos rfl]
  apply (identifier_finds h₃ _).bind
  rintro m' c₄ ⟨rfl, h₄⟩
  apply (mark_finds h₄).bind
  intro _ c₅ h₅
  apply (arguments_finds hexpr (.inl rfl) steps args rest c₅ hargs h₅).bind
  rintro args' c₆ ⟨hargs', h₆⟩
  refine ⟨?_, h₆⟩
  rw [Expr.erase, hpath', hargs']

/-- What follows a name is found: the lexemes after the name tell a call, a method
    call and an element apart. -/
theorem named_finds (steps : Nat) (pos : Pos) (name : Bytes) (e : Expr) (rest : List Lexeme)
    (c : Cursor) (he : e.isLevelled = true) (hnamed : e.isNamed = true) (hrest : Weaker 7 rest)
    (h : .ident name :: c.lexemes = e.lexemes ++ rest) :
    Ends (named expr steps pos name) c (fun e' c' => e'.erase = e.erase ∧ c'.lexemes = rest)
      fun f _ => f = .outOfSteps := by
  cases e with
  | call p name' args =>
    rw [Expr.lexemes] at h
    obtain rfl : name = name' := by simpa using (List.cons.inj h).1
    rw [Expr.erase]
    exact call_finds hexpr steps pos name args rest c he (by simpa using (List.cons.inj h).2)
  | access p name' path =>
    obtain rfl : name = name' := by simpa using (List.cons.inj h).1
    rw [Expr.erase]
    exact access_finds hexpr steps pos name path rest c he hrest (List.cons.inj h).2
  | method p name' path m args =>
    rw [Expr.isLevelled, Bool.and_eq_true] at he
    rw [Expr.lexemes] at h
    obtain rfl : name = name' := by simpa using (List.cons.inj h).1
    rw [Expr.erase]
    exact method_finds hexpr steps pos name path m args rest c he.1 he.2
      (by simpa using (List.cons.inj h).2)
  | _ => cases hnamed

theorem primary_finds (steps : Nat) : FindsLevel 7 (primary expr steps) := by
  intro e rest c he hlevel hrest h
  unfold primary
  rw [ends_bind, ends_lexeme?]
  by_cases hnamed : e.isNamed = true
  · obtain ⟨name, ls, hls⟩ := Expr.exists_lexemes_of_isNamed hnamed
    have h' : c.lexemes = .ident name :: (ls ++ rest) := by rw [h, hls]; rfl
    rw [h', List.head?_cons]
    apply (advance_finds h').bind
    rintro t c₁ ⟨_, h₁⟩
    refine named_finds hexpr steps t.pos name e rest c₁ he hnamed hrest ?_
    rw [h₁, hls]
    rfl
  -- of the other expressions, no operator and no sign is of this level
  · cases e with
    | literal p v =>
      have h' : c.lexemes = .literal v :: rest := h
      rw [h', List.head?_cons]
      apply (advance_finds h').bind
      rintro t c₁ ⟨_, h₁⟩
      exact ⟨rfl, h₁⟩
    | group p inner =>
      have h' : c.lexemes = .mark .lparen :: (inner.lexemes ++ .mark .rparen :: rest) := by
        rw [h, Expr.lexemes]
        simp
      rw [h', List.head?_cons]
      apply (advance_finds h').bind
      rintro t c₁ ⟨_, h₁⟩
      apply (hexpr inner _ c₁ he inner.level_pos (weaker_cons (by decide)) h₁).bind
      rintro inner' c₂ ⟨hinner', h₂⟩
      refine (mark_finds h₂).bind fun _ c₃ h₃ => ⟨?_, h₃⟩
      rw [Expr.erase, Expr.erase, hinner']
    | list p elements =>
      have h' : c.lexemes
          = .mark .lbracket :: (Expr.listLexemes elements ++ .mark .rbracket :: rest) := by
        rw [h, Expr.lexemes]
        simp
      rw [h', List.head?_cons]
      apply (advance_finds h').bind
      rintro t c₁ ⟨_, h₁⟩
      apply (arguments_finds hexpr (.inr rfl) steps elements rest c₁ he h₁).bind
      rintro elements' c₂ ⟨helements', h₂⟩
      refine ⟨?_, h₂⟩
      rw [Expr.erase, Expr.erase, helements']
    | binary p op =>
      have hlt := (Operator.binary op).level_lt_six
      exact absurd hlevel (by simp only [Expr.level]; omega)
    | logical p op =>
      have hlt := (Operator.logical op).level_lt_six
      exact absurd hlevel (by simp only [Expr.level]; omega)
    | neg => exact absurd hlevel (by simp [Expr.level])
    | _ => exact absurd rfl hnamed

end

/-! ## §5. Expressions -/

/-- A levelled expression is read back, whatever follows that does not go on
    it. -/
theorem expr_finds (steps : Nat) : FindsLevel 1 (expr steps) := by
  induction steps with
  | zero => exact fun _ _ _ _ _ _ _ => rfl
  | succ steps ih =>
    have hsigned := signed_finds (primary_finds ih (steps + 1)) (steps + 1)
    have hmul := leftAssoc_finds multiplicative_joinsAt (by decide) (by decide) hsigned (steps + 1)
    have hadd := leftAssoc_finds additive_joinsAt (by decide) (by decide) hmul (steps + 1)
    have hcomp := nonAssoc_finds comparison_joinsAt hadd
    have hand := leftAssoc_finds and_joinsAt (by decide) (by decide) hcomp (steps + 1)
    exact leftAssoc_finds or_joinsAt (by decide) (by decide) hand (steps + 1)

end Parse
end Lumen
