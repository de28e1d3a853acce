/-
  Lumen.Program.Json — programs as JSON.

  Every node is an object with its kind, its line and its column; the places
  of blocks are not shown.  A name with indices becomes one `Index` node for
  each index, around the `Variable` node of the name, all at the place of the
  name.

  Main statements:
    * `Expr.indexed_append` — one `Index` node for each index, the last one
      outermost.
-/
import Lumen.Program
import Lumen.Json

namespace Lumen

/-! ## §1. Nodes -/

namespace Json

/-- A node of some kind at a place. -/
def node (kind : String) (pos : Pos) (fields : List (String × Json)) : Json :=
  obj (("kind", word kind) :: ("line", nat pos.line) :: ("col", nat pos.col) :: fields)

/-- A constant. -/
def ofLiteral : Literal → Json
  | .int n => int n.toInt
  | .float x => float x
  | .str s => str s
  | .bool b => bool b

/-- A value, or null. -/
def ofOption : Option Json → Json
  | some j => j
  | none => null

/-- A literal; one without a constant has the value null. -/
def literalNode (pos : Pos) (value : Option Literal) : Json :=
  node "Literal" pos [("value", ofOption (value.map ofLiteral))]

/-- A parameter and its type. -/
def ofParam (p : Param) : Json := obj [("name", str p.name), ("type", word p.type.text)]

/-- A function; one that is only declared has the body null. -/
def fnNode (pos : Pos) (name : Bytes) (params : List Param) (body : Option Json) : Json :=
  node "Fn" pos
    [("name", str name), ("params", arr (params.map ofParam)), ("body", ofOption body)]

/-- A block that stands where a statement does. -/
def blockNode (pos : Pos) (stmts : Json) : Json := node "Block" pos [("stmts", stmts)]

/-- A node that is none of the kinds. -/
def unknownNode (pos : Pos) : Json := node "Unknown" pos []

end Json

/-! ## §2. Expressions -/

namespace Expr

/-- An `Index` node for each index, around what is indexed. -/
def indexed (pos : Pos) (object : Json) (indices : List Json) : Json :=
  indices.foldl
    (fun inner index => .node "Index" pos [("object", inner), ("index", index)]) object

/-- A name as a node. -/
def variableNode (pos : Pos) (name : Bytes) : Json := .node "Variable" pos [("name", .str name)]

theorem indexed_append (pos : Pos) (object : Json) (indices : List Json) (index : Json) :
    indexed pos object (indices ++ [index])
      = .node "Index" pos [("object", indexed pos object indices), ("index", index)] := by
  simp [indexed]

mutual
def toJson : Expr → Json
  | literal p v => .literalNode p (some v)
  | access p name indices => indexed p (variableNode p name) (toJsonList indices)
  | neg p e => .node "Unary" p [("op", .str Mark.minus.bytes), ("rhs", e.toJson)]
  | binary p op l r =>
    .node "Binary" p [("op", .str op.mark.bytes), ("lhs", l.toJson), ("rhs", r.toJson)]
  | logical p op l r =>
    .node "Logical" p [("op", .word op.word.spelling), ("lhs", l.toJson), ("rhs", r.toJson)]
  | group p e => .node "Grouping" p [("inner", e.toJson)]
  | list p es => .node "List" p [("elements", .arr (toJsonList es))]
  | call p name args =>
    .node "Call" p [("callee", variableNode p name), ("args", .arr (toJsonList args))]
  | method p name indices m args =>
    .node "MethodCall" p
      [("receiver", indexed p (variableNode p name) (toJsonList indices)),
        ("method", .str m), ("args", .arr (toJsonList args))]

def toJsonList : List Expr → List Json
  | [] => []
  | e :: es => e.toJson :: toJsonList es
end

theorem toJsonList_eq_map (es : List Expr) : toJsonList es = es.map toJson := by
  induction es with
  | nil => rfl
  | cons e es ih => rw [toJsonList, ih, List.map_cons]

end Expr

/-! ## §3. Statements -/

/-- An assignment, which is a node inside an expression statement. -/
def assignNode (pos : Pos) (name : Bytes) (indices : List Json) (value : Json) : Json :=
  match indices.getLast? with
  | none => .node "Assign" pos [("name", .str name), ("value", value)]
  | some index =>
    .node "IndexAssign" pos
      [("object", Expr.indexed pos (Expr.variableNode pos name) indices.dropLast),
        ("index", index), ("value", value)]

mutual
def Stmt.toJson : Stmt → Json
  | .expr p e => .node "Expression" p [("expr", e.toJson)]
  | .assign p name indices value =>
    .node "Expression" p [("expr", assignNode p name (Expr.toJsonList indices) value.toJson)]
  | .let_ p name type init =>
    .node "Let" p [("name", .str name), ("type", .word type.text), ("init", init.toJson)]
  | .print p value => .node "Print" p [("value", value.toJson)]
  | .if_ p cond (.mk _ stmts) none =>
    .node "If" p [("cond", cond.toJson), ("then", .arr (stmtsToJson stmts)), ("else", .null)]
  | .if_ p cond (.mk _ stmts) (some (.mk _ others)) =>
    .node "If" p
      [("cond", cond.toJson), ("then", .arr (stmtsToJson stmts)),
        ("else", .arr (stmtsToJson others))]
  | .while_ p cond (.mk _ stmts) =>
    .node "While" p [("cond", cond.toJson), ("body", .arr (stmtsToJson stmts))]
  | .for_ p var start stop (.mk _ stmts) =>
    .node "For" p
      [("var", .str var), ("start", start.toJson), ("end", stop.toJson),
        ("body", .arr (stmtsToJson stmts))]
  | .fn p name params (.mk _ stmts) =>
    .fnNode p name params (some (.arr (stmtsToJson stmts)))
  | .return_ p none => .node "Return" p [("value", .null)]
  | .return_ p (some e) => .node "Return" p [("value", e.toJson)]

def stmtsToJson : List Stmt → List Json
  | [] => []
  | s :: rest => s.toJson :: stmtsToJson rest
end

theorem stmtsToJson_eq_map (ss : List Stmt) : stmtsToJson ss = ss.map Stmt.toJson := by
  induction ss with
  | nil => rfl
  | cons s rest ih => rw [stmtsToJson, ih, List.map_cons]

/-- A block that stands where a statement does. -/
def Block.toJson (b : Block) : Json := .blockNode b.pos (.arr (stmtsToJson b.stmts))

/-- A whole program. -/
def Program.toJson (p : Program) : Json := .arr (stmtsToJson p)

end Lumen
