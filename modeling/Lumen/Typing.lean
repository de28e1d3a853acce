/-
  Lumen.Typing — the types and constants of expressions.

  The type of an expression may be unknown: a call and a method call tell
  nothing about their result, and neither does an element of an empty list.
  What is unknown fits everywhere, but it excuses nothing else.

  There are two judgements.  `infer` finds the type of an expression;
  `checkType` asks whether it may stand where a type is declared, and
  looks into list literals so as to blame the first element that does not
  fit.  Both report the first error in the order of the text.

  Main statements:
    * `infer_group` / `constant_group` — parentheses carry no meaning;
    * `infer_literal` — a constant has its own type.
-/
import Lumen.Env

namespace Lumen

/-! ## §1. Requirements on operands -/

/-- How an expression of some type is reported: a literal by its text. -/
def Expr.got (e : Expr) (t : Ty) : Got :=
  match e with
  | .literal _ v => .literal v
  | _ => .type t

/-- Wants the type of an expression, if it is known, to be of some class. -/
def Expr.require (e : Expr) (t : Option Ty) (ok : Ty → Bool) (wanted : Wanted) :
    Except ParseError Unit :=
  match t with
  | none => .ok ()
  | some t => if ok t then .ok () else .error (.mismatch [] wanted (e.got t) e.pos)

/-- Wants an operand to be a truth value. -/
def Expr.requireBool (e : Expr) (t : Option Ty) : Except ParseError Unit :=
  e.require t (· == .bool) (.type .bool)

/-- Wants the type of an expression, if it is known, to be a list type, and
    gives the type of its elements, if that is known. -/
def elementType (pos : Pos) : Option Ty → Except ParseError (Option Ty)
  | none => .ok none
  | some (.list .any) => .ok none
  | some (.list elem) => .ok (some elem)
  | some t => .error (.mismatch [] .list (.type t) pos)

namespace BinaryOp

/-- What an operator wants of each operand by itself: equality nothing, order
    numbers or strings, `+` the same, and other arithmetic numbers.  The
    strings that `+` also takes are not mentioned when it complains. -/
def requireOperand (op : BinaryOp) (e : Expr) (t : Option Ty) : Except ParseError Unit :=
  if op.isOrdering then e.require t Ty.isOrdered .ordered
  else if op.isComparison then .ok ()
  else if op == add then e.require t Ty.isOrdered .numeric
  else e.require t Ty.isNumeric .numeric

/-- Wants two operands to agree with each other. -/
def requireAgreement (left right : Option Ty) (rhs : Expr) : Except ParseError Unit :=
  match left, right with
  | some l, some r =>
    if l.accepts r then .ok ()
    else .error (.mismatch [] (.type l) (rhs.got r) rhs.pos)
  | _, _ => .ok ()

/-- The type of an operator's result. -/
def resultType (op : BinaryOp) (left right : Option Ty) : Option Ty :=
  if op.isComparison then some .bool
  else match right with
    | some _ => left
    | none => none

end BinaryOp

/-! ## §2. The two judgements -/

mutual
/-- The type of an expression, if it is known. -/
def infer (env : Env) : Expr → Except ParseError (Option Ty)
  | .literal _ v => .ok (some (Ty.ofLiteral v))
  | .access p name indices => do
    let t ← env.typeOf name p
    inferIndices env p (some t) indices
  | .neg _ e => do
    let t ← infer env e
    e.require t Ty.isNumeric .numeric
    return t
  | .binary _ op lhs rhs => do
    let l ← infer env lhs
    let r ← infer env rhs
    BinaryOp.requireAgreement l r rhs
    -- that one side is unknown does not excuse the other
    op.requireOperand lhs l
    op.requireOperand rhs r
    return op.resultType l r
  | .logical _ _ lhs rhs => do
    lhs.requireBool (← infer env lhs)
    rhs.requireBool (← infer env rhs)
    return some .bool
  | .group _ inner => infer env inner
  | .list _ elements => do
    let elem ← inferElements env .any elements
    return some (.list elem)
  | .call p name args =>
    match env.function? name with
    | none => do
      -- not completed yet, or not a function at all: only the arguments count
      inferEach env args
      return none
    | some f =>
      if f.params.length = args.length then do
        checkArgs env f.params args
        return none
      else .error (.arity f.name f.params.length args.length p)
  | .method p name indices _ args => do
    let t ← env.typeOf name p
    let _ ← inferIndices env p (some t) indices
    inferEach env args
    return none
termination_by e => 2 * sizeOf e

/-- The type of what is left after indexing at a place, if it is known. -/
def inferIndices (env : Env) (pos : Pos) : Option Ty → List Expr → Except ParseError (Option Ty)
  | t, [] => .ok t
  | t, index :: rest => do
    let i ← infer env index
    index.require i (· == .int) (.type .int)
    let elem ← elementType pos t
    inferIndices env pos elem rest
termination_by _ es => 2 * sizeOf es

/-- The merger of a type with the known types of list elements. -/
def inferElements (env : Env) : Ty → List Expr → Except ParseError Ty
  | merged, [] => .ok merged
  | merged, e :: rest => do
    match ← infer env e with
    | none => inferElements env merged rest
    | some t =>
      match merged.merge? t with
      | some finer => inferElements env finer rest
      | none => .error (.mismatch [] (.type merged) (e.got t) e.pos)
termination_by _ es => 2 * sizeOf es

/-- Finds the types of expressions of which nothing is wanted. -/
def inferEach (env : Env) : List Expr → Except ParseError Unit
  | [] => .ok ()
  | e :: rest => do
    let _ ← infer env e
    inferEach env rest
termination_by es => 2 * sizeOf es

/-- Checks arguments against parameters, one by one. -/
def checkArgs (env : Env) : List Param → List Expr → Except ParseError Unit
  | p :: params, e :: rest => do
    checkAgainst env p.type p.name e.pos e
    checkArgs env params rest
  | _, _ => .ok ()
termination_by _ es => 2 * sizeOf es

/-- Checks the elements of a list literal against one declared type. -/
def checkElements (env : Env) (declared : Ty) (name : Bytes) :
    List Expr → Except ParseError Unit
  | [] => .ok ()
  | e :: rest => do
    checkAgainst env declared name e.pos e
    checkElements env declared name rest
termination_by es => 2 * sizeOf es

/-- Checks an expression, which starts at `pos` with its parentheses, against
    a declared type. -/
def checkAgainst (env : Env) (declared : Ty) (name : Bytes) (pos : Pos) :
    Expr → Except ParseError Unit
  | .group _ inner => checkAgainst env declared name pos inner
  | .list _ elements =>
    match declared with
    | .list elem => checkElements env elem name elements
    | t => .error (.mismatch name (.type t) .list pos)
  | e => do
    match ← infer env e with
    | none => .ok ()
    | some t =>
      if declared.accepts t then .ok ()
      else .error (.mismatch name (.type declared) (e.got t) pos)
termination_by e => 2 * sizeOf e + 1
end

/-- Checks that an expression may stand where a type is declared for a name. -/
def checkType (env : Env) (declared : Ty) (e : Expr) (name : Bytes) :
    Except ParseError Unit :=
  checkAgainst env declared name e.pos e

theorem infer_literal (env : Env) (p : Pos) (v : Literal) :
    infer env (.literal p v) = .ok (some (Ty.ofLiteral v)) := by
  rw [infer]

theorem infer_group (env : Env) (p : Pos) (e : Expr) : infer env (.group p e) = infer env e := by
  rw [infer]

/-! ## §3. Constants -/

mutual
/-- The value of an expression that is made of literals, signs, parentheses
    and lists only; unknown for any other. -/
def Expr.constant : Expr → Value
  | .literal _ v => .scalar v
  | .group _ inner => inner.constant
  | .neg _ e =>
    match e.constant with
    | .scalar v => (v.neg?.map Value.scalar).getD .unknown
    | _ => .unknown
  | .list _ elements =>
    match constants? elements with
    | some items => .list items
    | none => .unknown
  | _ => .unknown

/-- The values of expressions, if all of them are known. -/
def constants? : List Expr → Option (List Value)
  | [] => some []
  | e :: rest =>
    match e.constant with
    | .unknown => none
    | v => (constants? rest).map (v :: ·)
end

theorem constant_group (p : Pos) (e : Expr) : (Expr.group p e).constant = e.constant := by
  rw [Expr.constant]

end Lumen
