/-
  Lumen.Proofs.Scoping.Visible — uses of names, and what is declared around them.

  A use is a name that stands for a variable: in an expression, before indices
  or a method call, or as the target of an assignment.  The callee of a call is
  none.  At a use some blocks are open, each with the names that its header
  declares and the statements that have been completed in it; a `let` among
  these declares a name too.  Nothing else does, and nothing that comes later.

  The blocks around a use are told from the inside outwards, as far as they
  belong to the statement or the program in which the use is looked for.

  Main statements:
    * `Expr.parts`, `Stmt.uses`, `Program.uses` — what there is at any depth;
    * `OpenBlock.declares`, `Use.isDeclared` — the declarations that are visible;
    * `uses_access` … `uses_method` — the uses of an expression, form by form.
-/
import Lumen.Program

namespace Lumen

/-! ## §1. Parts of expressions -/

namespace Expr

mutual
/-- An expression and all that it consists of, at any depth. -/
def parts : Expr → List Expr
  | e@(literal _ _) => [e]
  | e@(access _ _ indices) => e :: partsOf indices
  | e@(neg _ operand) => e :: operand.parts
  | e@(binary _ _ lhs rhs) => e :: (lhs.parts ++ rhs.parts)
  | e@(logical _ _ lhs rhs) => e :: (lhs.parts ++ rhs.parts)
  | e@(group _ inner) => e :: inner.parts
  | e@(list _ elements) => e :: partsOf elements
  | e@(call _ _ args) => e :: partsOf args
  | e@(method _ _ indices _ args) => e :: (partsOf indices ++ partsOf args)

/-- The parts of some expressions. -/
def partsOf : List Expr → List Expr
  | [] => []
  | e :: rest => e.parts ++ partsOf rest
end

/-- The variable that an expression names, or of which it takes an element or
    calls a method. -/
def usedName? : Expr → Option Bytes
  | access _ name _ | method _ name _ _ _ => some name
  | _ => none

theorem partsOf_eq_flatMap (es : List Expr) : partsOf es = es.flatMap parts := by
  induction es with
  | nil => rfl
  | cons e rest ih => rw [partsOf, ih, List.flatMap_cons]

theorem mem_parts_self (e : Expr) : e ∈ e.parts := by
  cases e <;> exact List.mem_cons_self

/-- What holds of all parts of some expressions holds of the parts of each. -/
theorem forall_partsOf {P : Expr → Prop} {es : List Expr} :
    (∀ part ∈ partsOf es, P part) ↔ ∀ e ∈ es, ∀ part ∈ e.parts, P part := by
  rw [partsOf_eq_flatMap]
  exact List.forall_mem_flatMap

end Expr

/-! ## §2. Open blocks -/

/-- The name that a statement declares when it is complete, if it is a `let`. -/
def Stmt.declared? : Stmt → Option Bytes
  | let_ _ name _ _ => some name
  | _ => none

/-- A block that is open at some place: what its header declares, and the
    statements before the place. -/
structure OpenBlock where
  locals : List Param := []
  before : List Stmt := []

namespace OpenBlock

/-- Whether a block declares a name in its header or by an earlier `let`. -/
def declares (b : OpenBlock) (name : Bytes) : Bool :=
  b.locals.any (·.name == name) || b.before.any (·.declared? == some name)

theorem declares_snoc (locals : List Param) (before : List Stmt) (s : Stmt) (name : Bytes) :
    (OpenBlock.mk locals (before ++ [s])).declares name
      = ((OpenBlock.mk locals before).declares name || s.declared? == some name) := by
  simp [declares, List.any_append, Bool.or_assoc]

end OpenBlock

/-! ## §3. Uses -/

/-- A use of a variable: its name and place, whether it is assigned to, and the
    blocks that are open there. -/
structure Use where
  name : Bytes
  pos : Pos
  isTarget : Bool := false
  around : List OpenBlock := []

namespace Use

/-- Whether a declaration of the name is visible in the blocks around the use. -/
def isDeclared (u : Use) : Bool := u.around.any (·.declares u.name)

/-- A use, seen from outside a block that it stands in. -/
def inside (b : OpenBlock) (u : Use) : Use := { u with around := u.around ++ [b] }

@[simp] theorem name_inside (b : OpenBlock) (u : Use) : (u.inside b).name = u.name := rfl

@[simp] theorem isDeclared_inside (b : OpenBlock) (u : Use) :
    (u.inside b).isDeclared = (u.isDeclared || b.declares u.name) := by
  simp [isDeclared, inside, List.any_append]

end Use

namespace Expr

/-- The use that an expression itself is, apart from what it consists of. -/
def use? (e : Expr) : Option Use := e.usedName?.map fun name => { name, pos := e.pos }

/-- The uses in an expression. -/
def uses (e : Expr) : List Use := e.parts.filterMap use?

/-- The uses in some expressions. -/
def usesOf (es : List Expr) : List Use := es.flatMap uses

theorem filterMap_partsOf (es : List Expr) : (partsOf es).filterMap use? = usesOf es := by
  rw [partsOf_eq_flatMap, List.filterMap_flatMap]
  rfl

section
variable (p : Pos)

@[simp] theorem uses_literal (v : Literal) : (literal p v).uses = [] := rfl

@[simp] theorem uses_access (name : Bytes) (indices : List Expr) :
    (access p name indices).uses = { name, pos := p } :: usesOf indices := by
  rw [uses, parts, List.filterMap_cons, filterMap_partsOf]
  rfl

@[simp] theorem uses_neg (e : Expr) : (neg p e).uses = e.uses := by
  rw [uses, parts, List.filterMap_cons]
  rfl

@[simp] theorem uses_binary (op : BinaryOp) (lhs rhs : Expr) :
    (binary p op lhs rhs).uses = lhs.uses ++ rhs.uses := by
  rw [uses, parts, List.filterMap_cons, List.filterMap_append]
  rfl

@[simp] theorem uses_logical (op : LogicalOp) (lhs rhs : Expr) :
    (logical p op lhs rhs).uses = lhs.uses ++ rhs.uses := by
  rw [uses, parts, List.filterMap_cons, List.filterMap_append]
  rfl

@[simp] theorem uses_group (inner : Expr) : (group p inner).uses = inner.uses := by
  rw [uses, parts, List.filterMap_cons]
  rfl

@[simp] theorem uses_list (elements : List Expr) : (list p elements).uses = usesOf elements := by
  rw [uses, parts, List.filterMap_cons, filterMap_partsOf]
  rfl

@[simp] theorem uses_call (name : Bytes) (args : List Expr) :
    (call p name args).uses = usesOf args := by
  rw [uses, parts, List.filterMap_cons, filterMap_partsOf]
  rfl

@[simp] theorem uses_method (name : Bytes) (indices : List Expr) (m : Bytes)
    (args : List Expr) :
    (method p name indices m args).uses
      = { name, pos := p } :: (usesOf indices ++ usesOf args) := by
  rw [uses, parts, List.filterMap_cons, List.filterMap_append, filterMap_partsOf,
    filterMap_partsOf]
  rfl

end

/-- No block is open around a use, as far as an expression goes, and nothing is
    assigned to in it. -/
theorem eq_of_mem_uses {e : Expr} {u : Use} (h : u ∈ e.uses) :
    u = { name := u.name, pos := u.pos } := by
  obtain ⟨part, -, hpart⟩ := List.mem_filterMap.mp h
  obtain ⟨name, -, rfl⟩ := Option.map_eq_some_iff.mp hpart
  rfl

end Expr

/-! ## §4. Statements and programs -/

mutual
/-- The uses in a statement, each with the blocks of the statement around it.  The
    bounds of a loop stand outside its block. -/
def Stmt.uses : Stmt → List Use
  | .expr _ e | .print _ e => e.uses
  | .assign p name indices value =>
    { name, pos := p, isTarget := true } :: (Expr.usesOf indices ++ value.uses)
  | .let_ _ _ _ init => init.uses
  | .if_ _ cond (.mk _ ss) none => cond.uses ++ usesIn [] [] ss
  | .if_ _ cond (.mk _ ss) (some (.mk _ others)) =>
    cond.uses ++ (usesIn [] [] ss ++ usesIn [] [] others)
  | .while_ _ cond (.mk _ ss) => cond.uses ++ usesIn [] [] ss
  | .for_ _ var start stop (.mk _ ss) =>
    start.uses ++ stop.uses ++ usesIn [⟨var, .int⟩] [] ss
  | .fn _ _ params (.mk _ ss) => usesIn params [] ss
  | .return_ _ none => []
  | .return_ _ (some e) => e.uses

/-- The uses in the statements that come after `before` in a block. -/
def usesIn (locals : List Param) (before : List Stmt) : List Stmt → List Use
  | [] => []
  | s :: rest => s.uses.map (Use.inside ⟨locals, before⟩) ++ usesIn locals (before ++ [s]) rest
end

/-- The uses in a program.  The top level counts as a block. -/
def Program.uses (p : Program) : List Use := usesIn [] [] p

end Lumen
