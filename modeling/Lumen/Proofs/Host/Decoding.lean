/-
  Lumen.Proofs.Host.Decoding — programs read back from their JSON.

  JSON shows of a program all but byte offsets and the places of blocks.  What it
  shows can be read back: every value has one reading, put together from those of
  its parts, and an object is read by its kind.  The fields of an object have no
  order, so a reader asks for them by their keys only.

  The reading of the node of an expression is that expression, and the same holds
  of statements.  Hence programs with the same JSON differ at most in what JSON
  does not show.

  Main statements:
    * `read_eq_of_same` — a reading does not depend on the order of fields;
    * `Expr.read_toJson` / `Stmt.read_toJson` — what is read of a node;
    * `Program.ofJson?_of_same` — a program is read back, whatever the order of
      the fields;
    * `Program.toJson_faithful` — and programs of the same JSON show the same.
-/
import Mathlib.Data.List.Basic
import Mathlib.Data.List.Induction
import Lumen.Program.Json

namespace Lumen

/-! ## §1. What is shown -/

/-- A place without its byte offset. -/
def Pos.shown (p : Pos) : Pos := ⟨0, p.line, p.col⟩

mutual
/-- An expression without byte offsets. -/
def Expr.shown : Expr → Expr
  | .literal p v => .literal p.shown v
  | .access p name indices => .access p.shown name (Expr.shownList indices)
  | .neg p e => .neg p.shown e.shown
  | .binary p op l r => .binary p.shown op l.shown r.shown
  | .logical p op l r => .logical p.shown op l.shown r.shown
  | .group p e => .group p.shown e.shown
  | .list p es => .list p.shown (Expr.shownList es)
  | .call p name args => .call p.shown name (Expr.shownList args)
  | .method p name indices m args =>
    .method p.shown name (Expr.shownList indices) m (Expr.shownList args)

def Expr.shownList : List Expr → List Expr
  | [] => []
  | e :: es => e.shown :: Expr.shownList es
end

mutual
/-- A statement without byte offsets and without the places of blocks. -/
def Stmt.shown : Stmt → Stmt
  | .expr p e => .expr p.shown e.shown
  | .assign p name indices value =>
    .assign p.shown name (Expr.shownList indices) value.shown
  | .let_ p name type init => .let_ p.shown name type init.shown
  | .print p value => .print p.shown value.shown
  | .if_ p cond (.mk _ stmts) none =>
    .if_ p.shown cond.shown (.mk {} (Stmt.shownList stmts)) none
  | .if_ p cond (.mk _ stmts) (some (.mk _ others)) =>
    .if_ p.shown cond.shown (.mk {} (Stmt.shownList stmts))
      (some (.mk {} (Stmt.shownList others)))
  | .while_ p cond (.mk _ stmts) =>
    .while_ p.shown cond.shown (.mk {} (Stmt.shownList stmts))
  | .for_ p var start stop (.mk _ stmts) =>
    .for_ p.shown var start.shown stop.shown (.mk {} (Stmt.shownList stmts))
  | .fn p name params (.mk _ stmts) =>
    .fn p.shown name params (.mk {} (Stmt.shownList stmts))
  | .return_ p value => .return_ p.shown (value.map Expr.shown)

def Stmt.shownList : List Stmt → List Stmt
  | [] => []
  | s :: rest => s.shown :: Stmt.shownList rest
end

/-- What JSON shows of a program. -/
def Program.shown (p : Program) : Program := Stmt.shownList p

namespace Json

/-! ## §2. The same up to the order of fields -/

/-- Induction on values; what stands in an array or under a key counts as a part. -/
theorem ind {motive : Json → Prop} (null : motive null) (bool : ∀ b, motive (bool b))
    (int : ∀ n, motive (int n)) (float : ∀ x, motive (float x)) (str : ∀ s, motive (str s))
    (arr : ∀ items, (∀ j ∈ items, motive j) → motive (arr items))
    (obj : ∀ fields, (∀ field ∈ fields, motive field.2) → motive (obj fields))
    (j : Json) : motive j :=
  @Json.rec motive (fun items => ∀ j ∈ items, motive j)
    (fun fields => ∀ field ∈ fields, motive field.2) (fun field => motive field.2)
    null bool int float str arr obj (fun _ h => by cases h)
    (fun _ _ hhead htail => List.forall_mem_cons.mpr ⟨hhead, htail⟩) (fun _ h => by cases h)
    (fun _ _ hhead htail => List.forall_mem_cons.mpr ⟨hhead, htail⟩) (fun _ _ h => h) j

/-- Two values are the same if they differ at most in the order of fields: arrays
    agree item by item, objects key by key. -/
inductive Same : Json → Json → Prop
  | refl (j : Json) : Same j j
  | arr {items others : List Json} (h : List.Forall₂ Same items others) :
    Same (arr items) (arr others)
  | obj {fields others : List (String × Json)}
    (h : ∀ key, Option.Rel Same (fields.lookup key) (others.lookup key)) :
    Same (obj fields) (obj others)

/-! ## §3. Readings -/

/-- What a JSON value is read as. -/
inductive Reading where
  | nothing
  | leaf (value : Json)
  | items (readings : List Reading)
  | param (p : Param)
  | expr (e : Expr)
  | store (name : Bytes) (indices : List Expr) (value : Expr)
  | stmt (s : Stmt)

namespace Reading

def nat? : Reading → Option Nat
  | leaf (.int n) => n.toNat?
  | _ => none

def text? : Reading → Option Bytes
  | leaf (.str s) => some s
  | _ => none

def literal? : Reading → Option Literal
  | leaf (.int n) => some (.int (Int64.ofInt n))
  | leaf (.float x) => some (.float x)
  | leaf (.str s) => some (.str s)
  | leaf (.bool b) => some (.bool b)
  | _ => none

def param? : Reading → Option Param
  | param p => some p
  | _ => none

def expr? : Reading → Option Expr
  | expr e => some e
  | _ => none

def stmt? : Reading → Option Stmt
  | stmt s => some s
  | _ => none

/-- A name with the indices behind it. -/
def place? : Reading → Option (Bytes × List Expr)
  | expr (.access _ name indices) => some (name, indices)
  | _ => none

/-- An array of which every item is read in one way. -/
def listOf? {α : Type} (item? : Reading → Option α) : Reading → Option (List α)
  | items readings => readings.mapM item?
  | _ => none

/-- Something or null. -/
def optionOf? {α : Type} (value? : Reading → Option α) : Reading → Option (Option α)
  | leaf .null => some none
  | r => (value? r).map some

/-- The statements of a block, whose place is not shown. -/
def block? (r : Reading) : Option Block := (r.listOf? stmt?).map (.mk {})

end Reading
end Json

/-! ## §4. Words for types and operators -/

/-- The types without an element type. -/
def Ty.scalars : List Ty := [.int, .float, .string, .bool, .any]

/-- The type that a text stands for. -/
def Ty.ofText? (s : Bytes) : Option Ty :=
  if _h : s.take 5 = ascii "list<" then (ofText? (s.drop 5).dropLast).map .list
  else scalars.find? fun t => ascii t.text == s
termination_by s.length
decreasing_by
  have : (s.take 5).length = 5 := by rw [_h]; rfl
  simp only [List.length_take, List.length_dropLast, List.length_drop] at this ⊢
  omega

theorem Ty.ofText?_text (t : Ty) : ofText? (ascii t.text) = some t := by
  induction t with
  | list elem ih =>
    have htext : ascii (Ty.list elem).text = ascii "list<" ++ (ascii elem.text ++ ascii ">") := by
      simp [Ty.text, ascii]
    have hinner : ((ascii (Ty.list elem).text).drop 5).dropLast = ascii elem.text := by
      rw [htext]
      exact List.dropLast_concat
    rw [ofText?, dif_pos (by rw [htext]; rfl), hinner, ih]
    rfl
  | _ => rw [ofText?]; rfl

/-- The operator that a text stands for. -/
def BinaryOp.ofText? (s : Bytes) : Option BinaryOp := all.find? fun op => op.mark.bytes == s

theorem BinaryOp.ofText?_bytes (op : BinaryOp) : ofText? op.mark.bytes = some op := by
  cases op <;> rfl

/-- The operator that a word stands for. -/
def LogicalOp.ofText? (s : Bytes) : Option LogicalOp :=
  [LogicalOp.and, .or].find? fun op => ascii op.word.spelling == s

theorem LogicalOp.ofText?_spelling (op : LogicalOp) :
    ofText? (ascii op.word.spelling) = some op := by
  cases op <;> rfl

namespace Json

/-! ## §5. Objects -/

/-- The readings of an object's fields. -/
abbrev Parts := String → Option Reading

namespace Parts

def expr? (ps : Parts) (key : String) : Option Expr := (ps key).bind Reading.expr?

def exprs? (ps : Parts) (key : String) : Option (List Expr) :=
  (ps key).bind (Reading.listOf? Reading.expr?)

def place? (ps : Parts) (key : String) : Option (Bytes × List Expr) :=
  (ps key).bind Reading.place?

def text? (ps : Parts) (key : String) : Option Bytes := (ps key).bind Reading.text?

def type? (ps : Parts) (key : String) : Option Ty := (ps.text? key).bind Ty.ofText?

def block? (ps : Parts) (key : String) : Option Block := (ps key).bind Reading.block?

/-- The line and the column of a node. -/
def pos? (ps : Parts) : Option Pos := do
  let line ← (ps "line").bind Reading.nat?
  let col ← (ps "col").bind Reading.nat?
  return ⟨0, line, col⟩

/-- A parameter, which has a name and a type. -/
def param? (ps : Parts) : Option Reading := do
  let name ← ps.text? "name"
  let type ← ps.type? "type"
  return .param ⟨name, type⟩

/-! ### Nodes of expressions -/

def asLiteral (p : Pos) (ps : Parts) : Option Reading := do
  let value ← (ps "value").bind Reading.literal?
  return .expr (.literal p value)

def asVariable (p : Pos) (ps : Parts) : Option Reading := do
  let name ← ps.text? "name"
  return .expr (.access p name [])

def asIndex (p : Pos) (ps : Parts) : Option Reading := do
  let place ← ps.place? "object"
  let index ← ps.expr? "index"
  return .expr (.access p place.1 (place.2 ++ [index]))

def asUnary (p : Pos) (ps : Parts) : Option Reading := do
  let operand ← ps.expr? "rhs"
  return .expr (.neg p operand)

def asBinary (p : Pos) (ps : Parts) : Option Reading := do
  let op ← (ps.text? "op").bind BinaryOp.ofText?
  let lhs ← ps.expr? "lhs"
  let rhs ← ps.expr? "rhs"
  return .expr (.binary p op lhs rhs)

def asLogical (p : Pos) (ps : Parts) : Option Reading := do
  let op ← (ps.text? "op").bind LogicalOp.ofText?
  let lhs ← ps.expr? "lhs"
  let rhs ← ps.expr? "rhs"
  return .expr (.logical p op lhs rhs)

def asGrouping (p : Pos) (ps : Parts) : Option Reading := do
  let inner ← ps.expr? "inner"
  return .expr (.group p inner)

def asElements (p : Pos) (ps : Parts) : Option Reading := do
  let elements ← ps.exprs? "elements"
  return .expr (.list p elements)

def asCall (p : Pos) (ps : Parts) : Option Reading := do
  let callee ← ps.place? "callee"
  let args ← ps.exprs? "args"
  return .expr (.call p callee.1 args)

def asMethodCall (p : Pos) (ps : Parts) : Option Reading := do
  let receiver ← ps.place? "receiver"
  let method ← ps.text? "method"
  let args ← ps.exprs? "args"
  return .expr (.method p receiver.1 receiver.2 method args)

/-! ### Nodes of assignments -/

def asAssign (_ : Pos) (ps : Parts) : Option Reading := do
  let name ← ps.text? "name"
  let value ← ps.expr? "value"
  return .store name [] value

def asIndexAssign (_ : Pos) (ps : Parts) : Option Reading := do
  let place ← ps.place? "object"
  let index ← ps.expr? "index"
  let value ← ps.expr? "value"
  return .store place.1 (place.2 ++ [index]) value

/-! ### Nodes of statements -/

/-- An expression statement; an assignment is one of them in JSON. -/
def asExpression (p : Pos) (ps : Parts) : Option Reading := do
  match ← ps "expr" with
  | .expr e => return .stmt (.expr p e)
  | .store name indices value => return .stmt (.assign p name indices value)
  | _ => none

def asLet (p : Pos) (ps : Parts) : Option Reading := do
  let name ← ps.text? "name"
  let type ← ps.type? "type"
  let init ← ps.expr? "init"
  return .stmt (.let_ p name type init)

def asPrint (p : Pos) (ps : Parts) : Option Reading := do
  let value ← ps.expr? "value"
  return .stmt (.print p value)

def asIf (p : Pos) (ps : Parts) : Option Reading := do
  let cond ← ps.expr? "cond"
  let then_ ← ps.block? "then"
  let else_ ← (ps "else").bind (Reading.optionOf? Reading.block?)
  return .stmt (.if_ p cond then_ else_)

def asWhile (p : Pos) (ps : Parts) : Option Reading := do
  let cond ← ps.expr? "cond"
  let body ← ps.block? "body"
  return .stmt (.while_ p cond body)

def asFor (p : Pos) (ps : Parts) : Option Reading := do
  let var ← ps.text? "var"
  let start ← ps.expr? "start"
  let stop ← ps.expr? "end"
  let body ← ps.block? "body"
  return .stmt (.for_ p var start stop body)

def asFn (p : Pos) (ps : Parts) : Option Reading := do
  let name ← ps.text? "name"
  let params ← (ps "params").bind (Reading.listOf? Reading.param?)
  let body ← ps.block? "body"
  return .stmt (.fn p name params body)

def asReturn (p : Pos) (ps : Parts) : Option Reading := do
  let value ← (ps "value").bind (Reading.optionOf? Reading.expr?)
  return .stmt (.return_ p value)

/-- The kinds of nodes, with how their parts are read. -/
def kinds : List (String × (Pos → Parts → Option Reading)) :=
  [("Literal", asLiteral), ("Variable", asVariable), ("Index", asIndex), ("Unary", asUnary),
    ("Binary", asBinary), ("Logical", asLogical), ("Grouping", asGrouping), ("List", asElements),
    ("Call", asCall), ("MethodCall", asMethodCall), ("Assign", asAssign),
    ("IndexAssign", asIndexAssign), ("Expression", asExpression), ("Let", asLet),
    ("Print", asPrint), ("If", asIf), ("While", asWhile), ("For", asFor), ("Fn", asFn),
    ("Return", asReturn)]

/-- A node is read by its kind. -/
def node? (ps : Parts) : Option Reading := do
  let kind ← ps.text? "kind"
  let p ← ps.pos?
  let reader ← kinds.find? fun k => ascii k.1 == kind
  reader.2 p ps

/-- An object without a kind may be a parameter. -/
def object (ps : Parts) : Reading := (ps.node?.or ps.param?).getD .nothing

end Parts

mutual
/-- What a value is read as. -/
def read : Json → Reading
  | arr values => .items (readItems values)
  | obj fields => Parts.object fun key => (readFields fields).lookup key
  | j => .leaf j

def readItems : List Json → List Reading
  | [] => []
  | j :: rest => j.read :: readItems rest

def readFields : List (String × Json) → List (String × Reading)
  | [] => []
  | (key, j) :: rest => (key, j.read) :: readFields rest
end

@[simp] theorem read_str (s : Bytes) : (str s).read = .leaf (str s) := rfl

@[simp] theorem read_null : null.read = .leaf null := rfl

theorem readItems_eq_map (values : List Json) : readItems values = values.map read := by
  induction values with
  | nil => rfl
  | cons j rest ih => rw [readItems, ih, List.map_cons]

theorem lookup_readFields (fields : List (String × Json)) (key : String) :
    (readFields fields).lookup key = (fields.lookup key).map read := by
  induction fields with
  | nil => rfl
  | cons field rest ih =>
    obtain ⟨key', j⟩ := field
    rw [readFields, List.lookup_cons, List.lookup_cons, ih]
    split <;> rfl

/-- What is read of an object is what is read of its fields by their keys. -/
theorem read_obj (fields : List (String × Json)) :
    (obj fields).read = Parts.object fun key => (fields.lookup key).map read := by
  rw [read]
  congr 1
  funext key
  exact lookup_readFields fields key

/-- The order of fields does not matter. -/
theorem read_eq_of_same {j k : Json} (h : Same j k) : j.read = k.read := by
  induction j using ind generalizing k with
  | arr values ih =>
    cases h with
    | refl => rfl
    | arr h =>
      rw [read, read, readItems_eq_map, readItems_eq_map]
      congr 1
      induction h with
      | nil => rfl
      | cons hhead _ ihtail =>
        obtain ⟨ihhead, ihrest⟩ := List.forall_mem_cons.mp ih
        rw [List.map_cons, List.map_cons, ihhead hhead, ihtail ihrest]
  | obj fields ih =>
    cases h with
    | refl => rfl
    | @obj _ others h =>
      rw [read_obj, read_obj]
      congr 1
      -- an object is read by its keys, and every key finds the same on both sides
      funext key
      have hmem : ∀ j ∈ fields.lookup key, ∀ k, Same j k → j.read = k.read := by
        intro j hj k hsame
        obtain ⟨before, rest, rfl, -⟩ := List.lookup_eq_some_iff.mp hj
        exact ih (key, j) (List.mem_append_right _ List.mem_cons_self) hsame
      have hkey := h key
      revert hmem hkey
      generalize fields.lookup key = a, others.lookup key = b
      intro hmem hkey
      cases hkey with
      | none => rfl
      | some hsame => rw [Option.map_some, Option.map_some, hmem _ rfl _ hsame]
  | _ => cases h; rfl

/-! ## §6. Nodes read back -/

/-- The readings of a node's fields. -/
def nodeParts (kind : String) (pos : Pos) (fields : List (String × Json)) : Parts := fun key =>
  ((("kind", word kind) :: ("line", nat pos.line) :: ("col", nat pos.col) :: fields).lookup
    key).map read

theorem pos?_nodeParts (kind : String) (pos : Pos) (fields : List (String × Json)) :
    (nodeParts kind pos fields).pos? = some pos.shown := rfl

/-- What is read of a node, by its kind. -/
theorem read_node {kind : String} {pos : Pos} {fields : List (String × Json)}
    {reader : Pos → Parts → Option Reading} {r : Reading}
    (hkind : Parts.kinds.find? (fun k => ascii k.1 == ascii kind) = some (kind, reader))
    (hr : reader pos.shown (nodeParts kind pos fields) = some r) :
    (node kind pos fields).read = r := by
  have hnode : (nodeParts kind pos fields).node? = some r := by
    rw [Parts.node?, pos?_nodeParts]
    show (Parts.kinds.find? fun k => ascii k.1 == ascii kind).bind _ = _
    rw [hkind]
    exact hr
  rw [node, read_obj]
  show Parts.object (nodeParts kind pos fields) = r
  rw [Parts.object, hnode]
  rfl

theorem literal?_read_ofLiteral (v : Literal) : (ofLiteral v).read.literal? = some v := by
  cases v with
  | int n => simp [ofLiteral, Json.read, Reading.literal?]
  | _ => rfl

/-- An array is read item by item. -/
theorem listOf?_read_arr {α β : Type} {item? : Reading → Option β} {f : α → Json} {g : α → β}
    (xs : List α) (h : ∀ x ∈ xs, item? (f x).read = some (g x)) :
    (arr (xs.map f)).read.listOf? item? = some (xs.map g) := by
  rw [Json.read, readItems_eq_map, Reading.listOf?]
  induction xs with
  | nil => rfl
  | cons x rest ih =>
    obtain ⟨hx, hrest⟩ := List.forall_mem_cons.mp h
    rw [List.map_cons, List.map_cons, List.mapM_cons, hx, ih hrest]
    rfl

end Json

open Json

/-! ## §7. Expressions read back -/

namespace Expr

theorem shownList_eq_map (es : List Expr) : shownList es = es.map shown := by
  induction es with
  | nil => rfl
  | cons e es ih => rw [shownList, ih, List.map_cons]

theorem exprs?_read {es : List Expr} (h : ∀ e ∈ es, e.toJson.read = .expr e.shown) :
    (arr (toJsonList es)).read.listOf? Reading.expr? = some (shownList es) := by
  rw [toJsonList_eq_map, shownList_eq_map]
  refine listOf?_read_arr es fun e he => ?_
  rw [h e he]
  rfl

theorem read_variableNode (p : Pos) (name : Bytes) :
    (variableNode p name).read = .expr (.access p.shown name []) :=
  read_node rfl rfl

/-- A name with indices is read from the inside outwards. -/
theorem read_indexed {p : Pos} {name : Bytes} {es : List Expr}
    (h : ∀ e ∈ es, e.toJson.read = .expr e.shown) :
    (indexed p (variableNode p name) (toJsonList es)).read
      = .expr (.access p.shown name (shownList es)) := by
  induction es using List.reverseRecOn with
  | nil => exact read_variableNode p name
  | append_singleton es e ih =>
    obtain ⟨hes, he⟩ := List.forall_mem_append.mp h
    rw [toJsonList_eq_map, List.map_append, ← toJsonList_eq_map, shownList_eq_map,
      List.map_append, ← shownList_eq_map]
    show (indexed p _ (toJsonList es ++ [e.toJson])).read = _
    rw [indexed_append]
    refine read_node rfl ?_
    simp [Parts.asIndex, Parts.place?, Parts.expr?, nodeParts, List.lookup_cons, ih hes,
      Reading.place?, he e, Reading.expr?]

/-- An expression is read of its node. -/
theorem read_toJson (e : Expr) : e.toJson.read = .expr e.shown := by
  induction e with
  | access p name indices ih =>
    rw [toJson, shown]
    exact read_indexed ih
  | literal p v =>
    refine read_node rfl ?_
    simp [Parts.asLiteral, nodeParts, List.lookup_cons, ofOption, literal?_read_ofLiteral, shown]
  | neg p e ih =>
    refine read_node rfl ?_
    simp [Parts.asUnary, Parts.expr?, nodeParts, List.lookup_cons, ih, Reading.expr?, shown]
  | binary p op l r ihl ihr =>
    refine read_node rfl ?_
    simp [Parts.asBinary, Parts.expr?, Parts.text?, nodeParts, List.lookup_cons, ihl, ihr,
      Reading.text?, BinaryOp.ofText?_bytes, Reading.expr?, shown]
  | logical p op l r ihl ihr =>
    refine read_node rfl ?_
    simp [Parts.asLogical, Parts.expr?, Parts.text?, nodeParts, List.lookup_cons, ihl, ihr,
      word, Reading.text?, LogicalOp.ofText?_spelling, Reading.expr?, shown]
  | group p e ih =>
    refine read_node rfl ?_
    simp [Parts.asGrouping, Parts.expr?, nodeParts, List.lookup_cons, ih, Reading.expr?, shown]
  | list p es ih =>
    refine read_node rfl ?_
    simp [Parts.asElements, Parts.exprs?, nodeParts, List.lookup_cons, exprs?_read ih, shown]
  | call p name args ih =>
    refine read_node rfl ?_
    simp [Parts.asCall, Parts.place?, Parts.exprs?, nodeParts, List.lookup_cons,
      read_variableNode, Reading.place?, exprs?_read ih, shown]
  | method p name indices m args ihi iha =>
    refine read_node rfl ?_
    simp [Parts.asMethodCall, Parts.place?, Parts.exprs?, Parts.text?, nodeParts,
      List.lookup_cons, read_indexed ihi, Reading.place?, Reading.text?, exprs?_read iha, shown]

end Expr

/-! ## §8. Statements read back -/

namespace Stmt

theorem shownList_eq_map (ss : List Stmt) : shownList ss = ss.map shown := by
  induction ss with
  | nil => rfl
  | cons s rest ih => rw [shownList, ih, List.map_cons]

theorem stmts?_read {ss : List Stmt} (h : ∀ s ∈ ss, s.toJson.read = .stmt s.shown) :
    (arr (stmtsToJson ss)).read.listOf? Reading.stmt? = some (shownList ss) := by
  rw [stmtsToJson_eq_map, shownList_eq_map]
  refine listOf?_read_arr ss fun s hs => ?_
  rw [h s hs]
  rfl

theorem block?_read {ss : List Stmt} (h : ∀ s ∈ ss, s.toJson.read = .stmt s.shown) :
    (arr (stmtsToJson ss)).read.block? = some (.mk {} (shownList ss)) := by
  rw [Reading.block?, stmts?_read h]
  rfl

theorem params?_read (params : List Param) :
    (arr (params.map ofParam)).read.listOf? Reading.param? = some params := by
  have hparam : ∀ p ∈ params, Reading.param? (ofParam p).read = some (id p) := by
    intro p _
    rw [ofParam, read_obj]
    simp [Parts.object, Parts.node?, Parts.param?, Parts.type?, Parts.text?, List.lookup_cons,
      Reading.text?, word, Ty.ofText?_text, Reading.param?]
  rw [listOf?_read_arr params hparam, List.map_id]

/-- What is read of an assignment's node. -/
theorem read_assignNode (p : Pos) (name : Bytes) (indices : List Expr) (value : Expr) :
    (assignNode p name (Expr.toJsonList indices) value.toJson).read
      = .store name (Expr.shownList indices) value.shown := by
  induction indices using List.reverseRecOn with
  | nil =>
    refine read_node rfl ?_
    simp [Parts.asAssign, Parts.expr?, Parts.text?, nodeParts, List.lookup_cons, Reading.text?,
      value.read_toJson, Reading.expr?, Expr.shownList]
  | append_singleton es e ih =>
    have hobject : (Expr.indexed p (Expr.variableNode p name) (Expr.toJsonList es)).read
        = .expr (.access p.shown name (Expr.shownList es)) :=
      Expr.read_indexed fun e _ => e.read_toJson
    rw [Expr.toJsonList_eq_map, List.map_append, ← Expr.toJsonList_eq_map,
      Expr.shownList_eq_map, List.map_append, ← Expr.shownList_eq_map, assignNode,
      List.map_singleton, List.getLast?_concat, List.dropLast_concat]
    refine read_node rfl ?_
    simp [Parts.asIndexAssign, Parts.place?, Parts.expr?, nodeParts, List.lookup_cons, hobject,
      Reading.place?, e.read_toJson, value.read_toJson, Reading.expr?]

/-- A statement is read of its node. -/
theorem read_toJson (s : Stmt) : s.toJson.read = .stmt s.shown := by
  induction s with
  | expr p e =>
    refine read_node rfl ?_
    simp [Parts.asExpression, nodeParts, List.lookup_cons, e.read_toJson, shown]
  | assign p name indices value =>
    refine read_node rfl ?_
    simp [Parts.asExpression, nodeParts, List.lookup_cons, read_assignNode, shown]
  | let_ p name type init =>
    refine read_node rfl ?_
    simp [Parts.asLet, Parts.expr?, Parts.type?, Parts.text?, nodeParts, List.lookup_cons,
      Reading.text?, word, Ty.ofText?_text, init.read_toJson, Reading.expr?, shown]
  | print p value =>
    refine read_node rfl ?_
    simp [Parts.asPrint, Parts.expr?, nodeParts, List.lookup_cons, value.read_toJson,
      Reading.expr?, shown]
  | if_ p cond q stmts else_ ihthen ihelse =>
    cases else_ with
    | none =>
      refine read_node rfl ?_
      simp [Parts.asIf, Parts.expr?, Parts.block?, nodeParts, List.lookup_cons,
        cond.read_toJson, Reading.expr?, block?_read ihthen, Reading.optionOf?, shown]
    | some b =>
      obtain ⟨q', others⟩ := b
      -- the block after `else` is an array, and so not null
      have helse : (arr (stmtsToJson others)).read.optionOf? Reading.block?
          = some (some (.mk {} (shownList others))) :=
        congrArg (Option.map some) (block?_read (ihelse _ rfl))
      refine read_node rfl ?_
      simp [Parts.asIf, Parts.expr?, Parts.block?, nodeParts, List.lookup_cons,
        cond.read_toJson, Reading.expr?, block?_read ihthen, helse, shown]
  | while_ p cond q stmts ih =>
    refine read_node rfl ?_
    simp [Parts.asWhile, Parts.expr?, Parts.block?, nodeParts, List.lookup_cons,
      cond.read_toJson, Reading.expr?, block?_read ih, shown]
  | for_ p var start stop q stmts ih =>
    refine read_node rfl ?_
    simp [Parts.asFor, Parts.expr?, Parts.text?, Parts.block?, nodeParts, List.lookup_cons,
      Reading.text?, start.read_toJson, stop.read_toJson, Reading.expr?, block?_read ih, shown]
  | fn p name params q stmts ih =>
    refine read_node rfl ?_
    simp [Parts.asFn, Parts.text?, Parts.block?, nodeParts, List.lookup_cons, Reading.text?,
      ofOption, params?_read, block?_read ih, shown]
  | return_ p value =>
    cases value with
    | none =>
      refine read_node rfl ?_
      simp [Parts.asReturn, nodeParts, List.lookup_cons, Reading.optionOf?, shown]
    | some e =>
      refine read_node rfl ?_
      simp [Parts.asReturn, nodeParts, List.lookup_cons, Reading.optionOf?, e.read_toJson,
        Reading.expr?, shown]

end Stmt

/-! ## §9. Programs -/

/-- The program that a JSON value shows. -/
def Program.ofJson? (j : Json) : Option Program := j.read.listOf? Reading.stmt?

/-- A program is read back, whatever the order of the fields. -/
theorem Program.ofJson?_of_same {p : Program} {j : Json} (h : Same p.toJson j) :
    ofJson? j = some p.shown := by
  rw [ofJson?, ← read_eq_of_same h]
  exact Stmt.stmts?_read fun s _ => s.read_toJson

/-- JSON leaves out nothing of a program but what is not shown: a decoder gives it
    back, and programs of the same JSON show the same. -/
theorem Program.toJson_faithful :
    (∀ (p : Program) (j : Json), Same p.toJson j → ofJson? j = some p.shown)
      ∧ ∀ p q : Program, Same p.toJson q.toJson → p.shown = q.shown := by
  have hdecode : ∀ (p : Program) (j : Json), Same p.toJson j → ofJson? j = some p.shown :=
    fun p j h => ofJson?_of_same h
  refine ⟨hdecode, fun p q h => ?_⟩
  have hself := hdecode q q.toJson (.refl _)
  rw [hdecode p q.toJson h] at hself
  exact Option.some.inj hself

/-- `while (true) {}` and `while (true) { }`: the block, whose place is that of its
    first token, stands elsewhere. -/
theorem Program.toJson_faithful_blank :
    let loop : Pos → Program := fun q =>
      [.while_ ⟨0, 1, 1⟩ (.literal ⟨7, 1, 8⟩ (.bool true)) (.mk q [])]
    loop ⟨14, 1, 15⟩ ≠ loop ⟨15, 1, 16⟩
      ∧ Same (Program.toJson (loop ⟨14, 1, 15⟩)) (Program.toJson (loop ⟨15, 1, 16⟩))
      ∧ Program.shown (loop ⟨14, 1, 15⟩) = Program.shown (loop ⟨15, 1, 16⟩) := by
  intro loop
  have hsame : Same (Program.toJson (loop ⟨14, 1, 15⟩)) (Program.toJson (loop ⟨15, 1, 16⟩)) :=
    .refl _
  refine ⟨fun h => ?_, hsame, toJson_faithful.2 _ _ hsame⟩
  injection h with h
  injection h with _ _ h
  injection h with h
  cases h

end Lumen
