/-
  Lumen.Proofs.Grammar.Spelling — how a program is written.

  An expression is written in one way only: its lexemes follow from the tree.
  What the tree has to satisfy in return is that no operand is weaker than its
  place allows, for nothing but a `group` node writes parentheses.

  A statement is written in several ways.  One semicolon may follow it, and the
  `>` that closes the type of a `let` may be one lexeme with the `=` after it.
  A `return` without a value is written as such only where the statement
  visibly ends, so a spelling is a relation with what comes after it.

  Main statements:
    * `Expr.lexemes`, `Stmt.Spells`, `Program.Spells` — the grammar;
    * `Expr.isLevelled`, `Program.isLevelled` — trees that need no further
      parentheses;
    * `lexemes_node` … `isLevelled_node` — one law for all binary operators;
    * `lexemes_erase`, `spells_erase` — places do not matter.
-/
import Lumen.Program

namespace Lumen

/-! ## §1. Levels -/

/-- An operator between two operands. -/
inductive Operator where
  | binary (op : BinaryOp)
  | logical (op : LogicalOp)

namespace Operator

/-- What an operator is written as. -/
def lexeme : Operator → Lexeme
  | binary op => .mark op.mark
  | logical op => .word op.word

/-- The level of an operator: `or`, `and`, comparisons, `+` and `-`, `*` and
    `/`, from the weakest to the strongest. -/
def level : Operator → Nat
  | logical .or => 1
  | logical .and => 2
  | binary .add | binary .sub => 4
  | binary .mul | binary .div => 5
  | binary _ => 3

/-- The least level of a left operand.  All operators but the comparisons
    associate to the left. -/
def leftLevel (op : Operator) : Nat := if op.level = 3 then 4 else op.level

theorem level_pos (op : Operator) : 1 ≤ op.level := by
  rcases op with op | op <;> cases op <;> decide

theorem level_lt_six (op : Operator) : op.level < 6 := by
  rcases op with op | op <;> cases op <;> decide

/-- An operator with its operands. -/
def node : Operator → Pos → Expr → Expr → Expr
  | binary op, p, lhs, rhs => .binary p op lhs rhs
  | logical op, p, lhs, rhs => .logical p op lhs rhs

end Operator

namespace Expr

/-- The level of an expression: that of its outermost operator; the sign has the
    level above all operators, and what stands by itself that above the sign. -/
def level : Expr → Nat
  | binary _ op _ _ => (Operator.binary op).level
  | logical _ op _ _ => (Operator.logical op).level
  | neg _ _ => 6
  | _ => 7

mutual
/-- Whether every operand is as strong as its place demands. -/
def isLevelled : Expr → Bool
  | literal _ _ => true
  | access _ _ indices => areLevelled indices
  | neg _ e => e.isLevelled && decide (6 ≤ e.level)
  | binary _ op lhs rhs =>
    lhs.isLevelled && rhs.isLevelled && decide ((Operator.binary op).leftLevel ≤ lhs.level)
      && decide ((Operator.binary op).level < rhs.level)
  | logical _ op lhs rhs =>
    lhs.isLevelled && rhs.isLevelled && decide ((Operator.logical op).leftLevel ≤ lhs.level)
      && decide ((Operator.logical op).level < rhs.level)
  | group _ inner => inner.isLevelled
  | list _ elements => areLevelled elements
  | call _ _ args => areLevelled args
  | method _ _ indices _ args => areLevelled indices && areLevelled args

/-- Whether every operand in some expressions is as strong as its place
    demands. -/
def areLevelled : List Expr → Bool
  | [] => true
  | e :: rest => e.isLevelled && areLevelled rest
end

/-- Whether an expression starts with a name, and so can be a statement. -/
def isNamed : Expr → Bool
  | access _ _ _ | call _ _ _ | method _ _ _ _ _ => true
  | _ => false

theorem level_of_isNamed {e : Expr} (h : e.isNamed = true) : e.level = 7 := by
  cases e <;> first | rfl | cases h

/-! ## §2. Expressions as lexemes -/

mutual
/-- An expression as lexemes. -/
def lexemes : Expr → List Lexeme
  | literal _ v => [.literal v]
  | access _ name indices => .ident name :: indexLexemes indices
  | neg _ e => .mark .minus :: e.lexemes
  | binary _ op lhs rhs => lhs.lexemes ++ .mark op.mark :: rhs.lexemes
  | logical _ op lhs rhs => lhs.lexemes ++ .word op.word :: rhs.lexemes
  | group _ inner => .mark .lparen :: (inner.lexemes ++ [.mark .rparen])
  | list _ elements => .mark .lbracket :: (listLexemes elements ++ [.mark .rbracket])
  | call _ name args => .ident name :: .mark .lparen :: (listLexemes args ++ [.mark .rparen])
  | method _ name indices m args =>
    .ident name :: (indexLexemes indices
      ++ .mark .dot :: .ident m :: .mark .lparen :: (listLexemes args ++ [.mark .rparen]))

/-- Indices as lexemes, each in brackets. -/
def indexLexemes : List Expr → List Lexeme
  | [] => []
  | e :: rest => .mark .lbracket :: (e.lexemes ++ .mark .rbracket :: indexLexemes rest)

/-- Expressions as lexemes, with a comma between each two. -/
def listLexemes : List Expr → List Lexeme
  | [] => []
  | [e] => e.lexemes
  | e :: rest => e.lexemes ++ .mark .comma :: listLexemes rest
end

theorem listLexemes_cons (e : Expr) {es : List Expr} (h : es ≠ []) :
    listLexemes (e :: es) = e.lexemes ++ .mark .comma :: listLexemes es := by
  rw [listLexemes]
  exact h

theorem exists_lexemes_of_isNamed {e : Expr} (h : e.isNamed = true) :
    ∃ name ls, e.lexemes = .ident name :: ls := by
  cases e with
  | access p name indices => exact ⟨name, _, rfl⟩
  | call p name args => exact ⟨name, _, rfl⟩
  | method p name indices m args => exact ⟨name, _, rfl⟩
  | _ => cases h

mutual
/-- The same expression with all places forgotten. -/
def erase : Expr → Expr
  | literal _ v => literal {} v
  | access _ name indices => access {} name (eraseAll indices)
  | neg _ e => neg {} e.erase
  | binary _ op lhs rhs => binary {} op lhs.erase rhs.erase
  | logical _ op lhs rhs => logical {} op lhs.erase rhs.erase
  | group _ inner => group {} inner.erase
  | list _ elements => list {} (eraseAll elements)
  | call _ name args => call {} name (eraseAll args)
  | method _ name indices m args => method {} name (eraseAll indices) m (eraseAll args)

/-- The same expressions with all places forgotten. -/
def eraseAll : List Expr → List Expr
  | [] => []
  | e :: rest => e.erase :: eraseAll rest
end

/-! ### Operators

The binary and the logical operators obey one law each. -/

section
variable (op : Operator) (p : Pos) (lhs rhs : Expr)

@[simp] theorem lexemes_node :
    (op.node p lhs rhs).lexemes = lhs.lexemes ++ op.lexeme :: rhs.lexemes := by
  cases op <;> exact lexemes.eq_def _

@[simp] theorem level_node : (op.node p lhs rhs).level = op.level := by
  cases op <;> rfl

@[simp] theorem erase_node :
    (op.node p lhs rhs).erase = op.node {} lhs.erase rhs.erase := by
  cases op <;> exact erase.eq_def _

theorem isLevelled_node :
    (op.node p lhs rhs).isLevelled = true ↔
      (lhs.isLevelled = true ∧ op.leftLevel ≤ lhs.level)
        ∧ rhs.isLevelled = true ∧ op.level < rhs.level := by
  cases op <;> rw [Operator.node, isLevelled] <;> simp only [Bool.and_eq_true, decide_eq_true_eq]
    <;> rw [and_assoc, and_and_and_comm]

/-- An expression below the level of the sign is an operator with its
    operands. -/
theorem eq_node_of_level_lt {e : Expr} (h : e.level < 6) :
    ∃ op p lhs rhs, e = Operator.node op p lhs rhs := by
  cases e with
  | binary p op lhs rhs => exact ⟨.binary op, p, lhs, rhs, rfl⟩
  | logical p op lhs rhs => exact ⟨.logical op, p, lhs, rhs, rfl⟩
  | _ => exact absurd h (by simp [level])

theorem level_pos (e : Expr) : 1 ≤ e.level := by
  cases e with
  | binary p op => exact (Operator.binary op).level_pos
  | logical p op => exact (Operator.logical op).level_pos
  | _ => simp [level]

theorem eq_neg_of_level_eq {e : Expr} (h : e.level = 6) : ∃ p operand, e = neg p operand := by
  cases e with
  | neg p operand => exact ⟨p, operand, rfl⟩
  | binary p op => exact absurd h (Nat.ne_of_lt (Operator.binary op).level_lt_six)
  | logical p op => exact absurd h (Nat.ne_of_lt (Operator.logical op).level_lt_six)
  | _ => exact absurd h (by simp [level])

end

/-! ### Places

Forgetting the places changes neither the lexemes nor the levels. -/

@[simp] theorem level_erase (e : Expr) : e.erase.level = e.level := by
  cases e <;> rw [erase] <;> rfl

@[simp] theorem isNamed_erase (e : Expr) : e.erase.isNamed = e.isNamed := by
  cases e <;> rw [erase] <;> rfl

section
variable {es : List Expr}

theorem indexLexemes_eraseAll_of (h : ∀ e ∈ es, e.erase.lexemes = e.lexemes) :
    indexLexemes (eraseAll es) = indexLexemes es := by
  induction es with
  | nil => rfl
  | cons e rest ih =>
    obtain ⟨hhead, htail⟩ := List.forall_mem_cons.mp h
    rw [eraseAll, indexLexemes, indexLexemes, hhead, ih htail]

theorem listLexemes_eraseAll_of (h : ∀ e ∈ es, e.erase.lexemes = e.lexemes) :
    listLexemes (eraseAll es) = listLexemes es := by
  induction es with
  | nil => rfl
  | cons e rest ih =>
    obtain ⟨hhead, htail⟩ := List.forall_mem_cons.mp h
    cases rest with
    | nil => exact hhead
    | cons e' rest =>
      show e.erase.lexemes ++ .mark .comma :: listLexemes (eraseAll (e' :: rest)) = _
      rw [hhead, ih htail]
      rfl

theorem areLevelled_eraseAll_of (h : ∀ e ∈ es, e.erase.isLevelled = e.isLevelled) :
    areLevelled (eraseAll es) = areLevelled es := by
  induction es with
  | nil => rfl
  | cons e rest ih =>
    obtain ⟨hhead, htail⟩ := List.forall_mem_cons.mp h
    rw [eraseAll, areLevelled, areLevelled, hhead, ih htail]

end

@[simp] theorem lexemes_erase (e : Expr) : e.erase.lexemes = e.lexemes := by
  induction e with
  | literal => rfl
  | access p name indices ih => rw [erase, lexemes, lexemes, indexLexemes_eraseAll_of ih]
  | neg p e ih => rw [erase, lexemes, lexemes, ih]
  | binary p op lhs rhs ihl ihr => rw [erase, lexemes, lexemes, ihl, ihr]
  | logical p op lhs rhs ihl ihr => rw [erase, lexemes, lexemes, ihl, ihr]
  | group p inner ih => rw [erase, lexemes, lexemes, ih]
  | list p elements ih => rw [erase, lexemes, lexemes, listLexemes_eraseAll_of ih]
  | call p name args ih => rw [erase, lexemes, lexemes, listLexemes_eraseAll_of ih]
  | method p name indices m args ihi iha =>
    rw [erase, lexemes, lexemes, indexLexemes_eraseAll_of ihi, listLexemes_eraseAll_of iha]

@[simp] theorem isLevelled_erase (e : Expr) : e.erase.isLevelled = e.isLevelled := by
  induction e with
  | literal => rfl
  | access p name indices ih => rw [erase, isLevelled, isLevelled, areLevelled_eraseAll_of ih]
  | neg p e ih => rw [erase, isLevelled, isLevelled, ih, level_erase]
  | binary p op lhs rhs ihl ihr =>
    rw [erase, isLevelled, isLevelled, ihl, ihr, level_erase, level_erase]
  | logical p op lhs rhs ihl ihr =>
    rw [erase, isLevelled, isLevelled, ihl, ihr, level_erase, level_erase]
  | group p inner ih => rw [erase, isLevelled, isLevelled, ih]
  | list p elements ih => rw [erase, isLevelled, isLevelled, areLevelled_eraseAll_of ih]
  | call p name args ih => rw [erase, isLevelled, isLevelled, areLevelled_eraseAll_of ih]
  | method p name indices m args ihi iha =>
    rw [erase, isLevelled, isLevelled, areLevelled_eraseAll_of ihi, areLevelled_eraseAll_of iha]

@[simp] theorem indexLexemes_eraseAll (es : List Expr) :
    indexLexemes (eraseAll es) = indexLexemes es :=
  indexLexemes_eraseAll_of fun e _ => lexemes_erase e

@[simp] theorem areLevelled_eraseAll (es : List Expr) :
    areLevelled (eraseAll es) = areLevelled es :=
  areLevelled_eraseAll_of fun e _ => isLevelled_erase e

end Expr

/-! ## §3. Types and parameters -/

/-- A type as lexemes; `any` has none. -/
def Ty.lexemes : Ty → List Lexeme
  | int => [.word .int]
  | float => [.word .float]
  | string => [.word .string]
  | bool => [.word .bool]
  | any => []
  | list elem => .word .list :: .mark .lt :: (elem.lexemes ++ [.mark .gt])

theorem Ty.lexemes_of_ofLexeme? {l : Lexeme} {t : Ty} (h : Ty.ofLexeme? l = some t) :
    t.isDeclarable = true ∧ t.lexemes = [l] := by
  cases l with
  | word w => cases w <;> cases h <;> exact ⟨rfl, rfl⟩
  | _ => cases h

/-- Whether some lexemes are a type and the `=` after it: the `>` that closes a
    list type and the `=` may be one lexeme. -/
inductive Ty.HeadsValue : Ty → List Lexeme → Prop where
  | apart (t : Ty) : HeadsValue t (t.lexemes ++ [.mark .equal])
  | joined (elem : Ty) :
    HeadsValue (.list elem) (.word .list :: .mark .lt :: (elem.lexemes ++ [.mark .ge]))

/-- Parameters as lexemes, with a comma between each two. -/
def paramLexemes : List Param → List Lexeme
  | [] => []
  | [p] => .ident p.name :: .mark .colon :: p.type.lexemes
  | p :: rest =>
    .ident p.name :: .mark .colon :: (p.type.lexemes ++ .mark .comma :: paramLexemes rest)

theorem paramLexemes_cons (p : Param) {ps : List Param} (h : ps ≠ []) :
    paramLexemes (p :: ps) = .ident p.name :: .mark .colon
      :: (p.type.lexemes ++ .mark .comma :: paramLexemes ps) := by
  rw [paramLexemes]
  exact h

theorem head?_paramLexemes_append (p : Param) (ps : List Param) (rest : List Lexeme) :
    (paramLexemes (p :: ps) ++ rest).head? = some (.ident p.name) := by
  cases ps <;> rfl

/-! ## §4. Statements -/

/-- Whether a `return` without a value may stand before some lexemes. -/
def visiblyEnds (rest : List Lexeme) : Prop :=
  ∀ l ∈ rest.head?, l = .word .end_ ∨ l = .word .else_ ∨ l = .mark .semicolon

namespace Stmt

mutual
/-- Whether every operand in a statement is as strong as its place demands. -/
def isLevelled : Stmt → Bool
  | expr _ e | print _ e => e.isLevelled
  | assign _ _ indices value => Expr.areLevelled indices && value.isLevelled
  | let_ _ _ _ init => init.isLevelled
  | if_ _ cond (.mk _ ss) none => cond.isLevelled && areLevelled ss
  | if_ _ cond (.mk _ ss) (some (.mk _ others)) =>
    cond.isLevelled && areLevelled ss && areLevelled others
  | while_ _ cond (.mk _ ss) => cond.isLevelled && areLevelled ss
  | for_ _ _ start stop (.mk _ ss) => start.isLevelled && stop.isLevelled && areLevelled ss
  | fn _ _ _ (.mk _ ss) => areLevelled ss
  | return_ _ none => true
  | return_ _ (some e) => e.isLevelled

/-- Whether every operand in some statements is as strong as its place
    demands. -/
def areLevelled : List Stmt → Bool
  | [] => true
  | s :: rest => s.isLevelled && areLevelled rest
end

mutual
/-- Whether a statement before `rest`, without a semicolon, may be written
    as `ls`. -/
def Spells : Stmt → (ls rest : List Lexeme) → Prop
  | expr _ e, ls, rest => e.isNamed = true ∧ ls = e.lexemes ++ rest
  | assign _ name indices value, ls, rest =>
    ls = .ident name :: (Expr.indexLexemes indices ++ .mark .equal :: (value.lexemes ++ rest))
  | let_ _ name type init, ls, rest =>
    type.isDeclarable = true ∧ ∃ head, type.HeadsValue head ∧
      ls = .word .let_ :: .ident name :: .mark .colon :: (head ++ (init.lexemes ++ rest))
  | print _ value, ls, rest => ls = .word .print :: (value.lexemes ++ rest)
  | if_ _ cond (.mk _ ss) none, ls, rest =>
    ∃ body, ls = .word .if_ :: (cond.lexemes ++ body) ∧ AllSpell ss body (.word .end_ :: rest)
  | if_ _ cond (.mk _ ss) (some (.mk _ others)), ls, rest =>
    ∃ body other, ls = .word .if_ :: (cond.lexemes ++ body)
      ∧ AllSpell ss body (.word .else_ :: other) ∧ AllSpell others other (.word .end_ :: rest)
  | while_ _ cond (.mk _ ss), ls, rest =>
    ∃ body, ls = .word .while_ :: (cond.lexemes ++ body) ∧ AllSpell ss body (.word .end_ :: rest)
  | for_ _ var start stop (.mk _ ss), ls, rest =>
    ∃ body, ls = .word .for_ :: .ident var :: .mark .colon :: .word .int :: .mark .equal
        :: (start.lexemes ++ .mark .dotDot :: (stop.lexemes ++ body))
      ∧ AllSpell ss body (.word .end_ :: rest)
  | fn _ name params (.mk _ ss), ls, rest =>
    (∀ p ∈ params, p.type.isDeclarable = true) ∧ ∃ body,
      ls = .word .fn :: .ident name :: .mark .lparen
          :: (paramLexemes params ++ .mark .rparen :: body)
        ∧ AllSpell ss body (.word .end_ :: rest)
  | return_ _ none, ls, rest => visiblyEnds rest ∧ ls = .word .return_ :: rest
  | return_ _ (some e), ls, rest => ls = .word .return_ :: (e.lexemes ++ rest)

/-- Whether statements before `rest` may be written as `ls`, each with at most one
    semicolon after it. -/
def AllSpell : List Stmt → (ls rest : List Lexeme) → Prop
  | [], ls, rest => ls = rest
  | s :: ss, ls, rest =>
    ∃ mid next, s.Spells ls mid ∧ (mid = next ∨ mid = .mark .semicolon :: next)
      ∧ AllSpell ss next rest
end

mutual
/-- The same statement with all places forgotten. -/
def erase : Stmt → Stmt
  | expr _ e => expr {} e.erase
  | assign _ name indices value => assign {} name (Expr.eraseAll indices) value.erase
  | let_ _ name type init => let_ {} name type init.erase
  | print _ value => print {} value.erase
  | if_ _ cond (.mk _ ss) none => if_ {} cond.erase (.mk {} (eraseAll ss)) none
  | if_ _ cond (.mk _ ss) (some (.mk _ others)) =>
    if_ {} cond.erase (.mk {} (eraseAll ss)) (some (.mk {} (eraseAll others)))
  | while_ _ cond (.mk _ ss) => while_ {} cond.erase (.mk {} (eraseAll ss))
  | for_ _ var start stop (.mk _ ss) =>
    for_ {} var start.erase stop.erase (.mk {} (eraseAll ss))
  | fn _ name params (.mk _ ss) => fn {} name params (.mk {} (eraseAll ss))
  | return_ _ none => return_ {} none
  | return_ _ (some e) => return_ {} (some e.erase)

/-- The same statements with all places forgotten. -/
def eraseAll : List Stmt → List Stmt
  | [] => []
  | s :: rest => s.erase :: eraseAll rest
end

/-- The same block with all places forgotten. -/
def eraseBlock : Block → Block
  | .mk _ ss => .mk {} (eraseAll ss)

theorem erase_if (p : Pos) (cond : Expr) (then_ : Block) (else_ : Option Block) :
    (if_ p cond then_ else_).erase
      = if_ {} cond.erase (eraseBlock then_) (else_.map eraseBlock) := by
  obtain ⟨q, ss⟩ := then_
  rcases else_ with _ | ⟨q', others⟩
  · rw [erase]; rfl
  · rw [erase]; rfl

theorem erase_while (p : Pos) (cond : Expr) (body : Block) :
    (while_ p cond body).erase = while_ {} cond.erase (eraseBlock body) := by
  obtain ⟨q, ss⟩ := body
  rw [erase]; rfl

theorem erase_for (p : Pos) (var : Bytes) (start stop : Expr) (body : Block) :
    (for_ p var start stop body).erase
      = for_ {} var start.erase stop.erase (eraseBlock body) := by
  obtain ⟨q, ss⟩ := body
  rw [erase]; rfl

theorem erase_fn (p : Pos) (name : Bytes) (params : List Param) (body : Block) :
    (fn p name params body).erase = fn {} name params (eraseBlock body) := by
  obtain ⟨q, ss⟩ := body
  rw [erase]; rfl

theorem erase_return (p : Pos) (value : Option Expr) :
    (return_ p value).erase = return_ {} (value.map Expr.erase) := by
  cases value <;> rw [erase] <;> rfl

section
variable {ss : List Stmt}

theorem areLevelled_eraseAll_of (h : ∀ s ∈ ss, s.erase.isLevelled = s.isLevelled) :
    areLevelled (eraseAll ss) = areLevelled ss := by
  induction ss with
  | nil => rfl
  | cons s rest ih =>
    obtain ⟨hhead, htail⟩ := List.forall_mem_cons.mp h
    rw [eraseAll, areLevelled, areLevelled, hhead, ih htail]

theorem allSpell_eraseAll_of (h : ∀ s ∈ ss, s.erase.Spells = s.Spells) :
    AllSpell (eraseAll ss) = AllSpell ss := by
  funext ls rest
  induction ss generalizing ls with
  | nil => rfl
  | cons s ss ih =>
    obtain ⟨hhead, htail⟩ := List.forall_mem_cons.mp h
    rw [eraseAll, AllSpell, AllSpell, hhead]
    simp only [ih htail]

end

theorem isLevelled_erase (s : Stmt) : s.erase.isLevelled = s.isLevelled := by
  -- a block is forgotten statement by statement
  induction s with
  | if_ p cond q ss else_ ih ih' =>
    rcases else_ with _ | ⟨q', others⟩
    · rw [erase, isLevelled, isLevelled, Expr.isLevelled_erase, areLevelled_eraseAll_of ih]
    · have hothers : areLevelled (eraseAll others) = areLevelled others :=
        areLevelled_eraseAll_of (ih' _ rfl)
      rw [erase, isLevelled, isLevelled, Expr.isLevelled_erase, areLevelled_eraseAll_of ih, hothers]
  | while_ p cond q ss ih =>
    rw [erase, isLevelled, isLevelled, Expr.isLevelled_erase, areLevelled_eraseAll_of ih]
  | for_ p var start stop q ss ih =>
    rw [erase, isLevelled, isLevelled, Expr.isLevelled_erase, Expr.isLevelled_erase,
      areLevelled_eraseAll_of ih]
  | fn p name params q ss ih => rw [erase, isLevelled, isLevelled, areLevelled_eraseAll_of ih]
  | return_ p value => cases value <;> simp [erase, isLevelled]
  | expr | assign | let_ | print => simp [erase, isLevelled]

theorem spells_erase (s : Stmt) : s.erase.Spells = s.Spells := by
  induction s with
  | if_ p cond q ss else_ ih ih' =>
    funext ls rest
    rcases else_ with _ | ⟨q', others⟩
    · rw [erase, Spells, Spells, Expr.lexemes_erase, allSpell_eraseAll_of ih]
    · have hothers : AllSpell (eraseAll others) = AllSpell others :=
        allSpell_eraseAll_of (ih' _ rfl)
      rw [erase, Spells, Spells, Expr.lexemes_erase, allSpell_eraseAll_of ih, hothers]
  | while_ p cond q ss ih =>
    funext ls rest
    rw [erase, Spells, Spells, Expr.lexemes_erase, allSpell_eraseAll_of ih]
  | for_ p var start stop q ss ih =>
    funext ls rest
    rw [erase, Spells, Spells, Expr.lexemes_erase, Expr.lexemes_erase, allSpell_eraseAll_of ih]
  | fn p name params q ss ih =>
    funext ls rest
    rw [erase, Spells, Spells, allSpell_eraseAll_of ih]
  | return_ p value =>
    funext ls rest
    cases value <;> simp [erase, Spells]
  | expr | assign | let_ | print =>
    funext ls rest
    simp [erase, Spells]

end Stmt

/-! ## §5. Programs -/

namespace Program

/-- Whether every operand in a program is as strong as its place demands. -/
def isLevelled (p : Program) : Bool := Stmt.areLevelled p

/-- Whether a program may be written as `ls`. -/
def Spells (p : Program) (ls : List Lexeme) : Prop := Stmt.AllSpell p ls []

/-- The same program with all places forgotten. -/
def erase (p : Program) : Program := Stmt.eraseAll p

theorem isLevelled_erase (p : Program) : p.erase.isLevelled = p.isLevelled :=
  Stmt.areLevelled_eraseAll_of fun s _ => s.isLevelled_erase

theorem spells_erase (p : Program) : p.erase.Spells = p.Spells := by
  funext ls
  exact congrFun (congrFun (Stmt.allSpell_eraseAll_of fun s _ => s.spells_erase) ls) []

end Program

end Lumen
