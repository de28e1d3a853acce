/-
  Lumen.Program — expressions, statements and blocks.

  Every node knows the place of its first token.  A name followed by indices
  is one node: `a` has no index, `a[0][1]` has two.  So a variable, an
  element, the receiver of a method and the target of an assignment all have
  the same shape, and nothing else can be indexed or assigned to.

  Main statements:
    * `BinaryOp.ofMark?_mark` — an operator is known by its mark;
    * `BinaryOp.isComparison_iff` — the comparing operators are the marks that
      compare;
    * `Expr.ind` / `Stmt.ind` — induction over what stands in lists and blocks
      too.
-/
import Lumen.Ty

namespace Lumen

/-! ## §1. Operators -/

/-- The operators between two operands, apart from `and` and `or`. -/
inductive BinaryOp where
  | add | sub | mul | div
  | eq | ne | gt | lt | ge | le
deriving DecidableEq, Repr

namespace BinaryOp

def all : List BinaryOp := [add, sub, mul, div, eq, ne, gt, lt, ge, le]

/-- The mark an operator is written with. -/
def mark : BinaryOp → Mark
  | add => .plus
  | sub => .minus
  | mul => .star
  | div => .slash
  | eq => .eqEq
  | ne => .bangEq
  | gt => .gt
  | lt => .lt
  | ge => .ge
  | le => .le

/-- The operator that a mark stands for. -/
def ofMark? (m : Mark) : Option BinaryOp := all.find? fun op => op.mark == m

/-- Whether an operator compares its operands, and so gives a truth value. -/
def isComparison (op : BinaryOp) : Bool := op.mark.isComparison

/-- Whether an operator asks which operand is greater. -/
def isOrdering : BinaryOp → Bool
  | gt | lt | ge | le => true
  | _ => false

/-- `+` and `-`. -/
def isAdditive : BinaryOp → Bool
  | add | sub => true
  | _ => false

/-- `*` and `/`. -/
def isMultiplicative : BinaryOp → Bool
  | mul | div => true
  | _ => false

theorem ofMark?_mark (op : BinaryOp) : ofMark? op.mark = some op := by cases op <;> rfl

theorem isComparison_iff (op : BinaryOp) :
    op.isComparison = true ↔ op.isAdditive = false ∧ op.isMultiplicative = false := by
  cases op <;> decide

end BinaryOp

/-- The operators on truth values. -/
inductive LogicalOp where
  | and | or
deriving DecidableEq, Repr

/-- The word an operator is written with. -/
def LogicalOp.word : LogicalOp → Word
  | and => .and
  | or => .or

/-! ## §2. Expressions -/

/-- An expression. -/
inductive Expr where
  | literal (pos : Pos) (value : Literal)
  | access (pos : Pos) (name : Bytes) (indices : List Expr)
  | neg (pos : Pos) (operand : Expr)
  | binary (pos : Pos) (op : BinaryOp) (lhs rhs : Expr)
  | logical (pos : Pos) (op : LogicalOp) (lhs rhs : Expr)
  | group (pos : Pos) (inner : Expr)
  | list (pos : Pos) (elements : List Expr)
  | call (pos : Pos) (name : Bytes) (args : List Expr)
  | method (pos : Pos) (name : Bytes) (indices : List Expr) (method : Bytes) (args : List Expr)
deriving Repr, Inhabited

namespace Expr

/-- The place of an expression's first token. -/
def pos : Expr → Pos
  | literal p _ | access p _ _ | neg p _ | binary p _ _ _ | logical p _ _ _ | group p _
  | list p _ | call p _ _ | method p _ _ _ _ => p

/-- An expression without the parentheses around it. -/
def ungrouped : Expr → Expr
  | group _ inner => inner.ungrouped
  | e => e

/-- Induction on expressions; what stands in a list counts as a part. -/
@[induction_eliminator]
theorem ind {motive : Expr → Prop}
    (literal : ∀ p v, motive (literal p v))
    (access : ∀ p name indices, (∀ e ∈ indices, motive e) → motive (access p name indices))
    (neg : ∀ p e, motive e → motive (neg p e))
    (binary : ∀ p op l r, motive l → motive r → motive (binary p op l r))
    (logical : ∀ p op l r, motive l → motive r → motive (logical p op l r))
    (group : ∀ p e, motive e → motive (group p e))
    (list : ∀ p elements, (∀ e ∈ elements, motive e) → motive (list p elements))
    (call : ∀ p name args, (∀ e ∈ args, motive e) → motive (call p name args))
    (method : ∀ p name indices m args, (∀ e ∈ indices, motive e) → (∀ e ∈ args, motive e) →
      motive (method p name indices m args))
    (e : Expr) : motive e :=
  @Expr.rec motive (fun es => ∀ e ∈ es, motive e) literal access neg binary logical group list
    call method (fun _ h => by cases h)
    (fun _ _ hhead htail => List.forall_mem_cons.mpr ⟨hhead, htail⟩) e

end Expr

/-! ## §3. Statements -/

/-- A parameter of a function. -/
structure Param where
  name : Bytes
  type : Ty
deriving DecidableEq, Repr

mutual
/-- A statement.  The variable of a `for` is an integer; an assignment to a
    name with indices stores into a list. -/
inductive Stmt where
  | expr (pos : Pos) (e : Expr)
  | assign (pos : Pos) (name : Bytes) (indices : List Expr) (value : Expr)
  | let_ (pos : Pos) (name : Bytes) (type : Ty) (init : Expr)
  | print (pos : Pos) (value : Expr)
  | if_ (pos : Pos) (cond : Expr) (then_ : Block) (else_ : Option Block)
  | while_ (pos : Pos) (cond : Expr) (body : Block)
  | for_ (pos : Pos) (var : Bytes) (start stop : Expr) (body : Block)
  | fn (pos : Pos) (name : Bytes) (params : List Param) (body : Block)
  | return_ (pos : Pos) (value : Option Expr)

/-- Statements in a scope of their own, with the place of the first token
    after the header. -/
inductive Block where
  | mk (pos : Pos) (stmts : List Stmt)
end

deriving instance Repr for Stmt, Block

instance : Inhabited Block := ⟨.mk {} []⟩

def Block.pos : Block → Pos
  | mk p _ => p

def Block.stmts : Block → List Stmt
  | mk _ stmts => stmts

/-- The place of a statement's first token. -/
def Stmt.pos : Stmt → Pos
  | expr p _ | assign p _ _ _ | let_ p _ _ _ | print p _ | if_ p _ _ _ | while_ p _ _
  | for_ p _ _ _ _ | fn p _ _ _ | return_ p _ => p

/-- Induction on statements; what stands in a block counts as a part. -/
@[induction_eliminator]
theorem Stmt.ind {motive : Stmt → Prop}
    (expr : ∀ p e, motive (expr p e))
    (assign : ∀ p name indices value, motive (assign p name indices value))
    (let_ : ∀ p name type init, motive (let_ p name type init))
    (print : ∀ p value, motive (print p value))
    (if_ : ∀ p cond q stmts else_, (∀ s ∈ stmts, motive s) →
      (∀ b ∈ else_, ∀ s ∈ b.stmts, motive s) → motive (if_ p cond (.mk q stmts) else_))
    (while_ : ∀ p cond q stmts, (∀ s ∈ stmts, motive s) → motive (while_ p cond (.mk q stmts)))
    (for_ : ∀ p var start stop q stmts, (∀ s ∈ stmts, motive s) →
      motive (for_ p var start stop (.mk q stmts)))
    (fn : ∀ p name params q stmts, (∀ s ∈ stmts, motive s) →
      motive (fn p name params (.mk q stmts)))
    (return_ : ∀ p value, motive (return_ p value))
    (s : Stmt) : motive s :=
  @Stmt.rec motive (fun b => ∀ s ∈ b.stmts, motive s)
    (fun else_ => ∀ b ∈ else_, ∀ s ∈ b.stmts, motive s) (fun ss => ∀ s ∈ ss, motive s)
    expr assign let_ print (fun p cond b else_ => by cases b; exact if_ p cond _ _ else_)
    (fun p cond b => by cases b; exact while_ p cond _ _)
    (fun p var start stop b => by cases b; exact for_ p var start stop _ _)
    (fun p name params b => by cases b; exact fn p name params _ _)
    return_ (fun _ _ h => h) (fun _ h => by cases h)
    (fun _ h _ hb => by cases hb; exact h) (fun _ h => by cases h)
    (fun _ _ hhead htail => List.forall_mem_cons.mpr ⟨hhead, htail⟩) s

/-- A whole program: the statements at top level. -/
abbrev Program := List Stmt

end Lumen
