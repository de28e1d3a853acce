/-
  Lumen.Proofs.Access.Expressions — expressions read off a tape.

  An expression keeps the tokens of its constants and of its operators, as they were met:
  a tag and a payload each.  The reader of a name asks its token for the text, and the
  reader of a literal puts the token away for those who will ask for its value.  Each
  reader of tapes mirrors the reader of cursors that has its name.

  Main statements:
    * `Operators` — the operators of one level, as tags and as lexemes;
    * `Tape.selected_mirrors` — going on after an operator, if one is there;
    * `Tape.expr_mirrors` — expressions.
-/
import Lumen.Proofs.Access.Tape
import Lumen.Proofs.Reading.ExprSound

namespace Lumen

/-! ## §1. Expressions with their tokens -/

/-- An expression, with the tokens of its constants and operators. -/
inductive TaggedExpr where
  | literal (pos : Pos) (value : Tagged)
  | access (pos : Pos) (name : Bytes) (indices : List TaggedExpr)
  | neg (pos : Pos) (op : Tagged) (operand : TaggedExpr)
  | binary (pos : Pos) (op : Tagged) (lhs rhs : TaggedExpr)
  | logical (pos : Pos) (op : Tagged) (lhs rhs : TaggedExpr)
  | group (pos : Pos) (inner : TaggedExpr)
  | list (pos : Pos) (elements : List TaggedExpr)
  | call (pos : Pos) (name : Bytes) (args : List TaggedExpr)
  | method (pos : Pos) (name : Bytes) (indices : List TaggedExpr) (method : Bytes)
    (args : List TaggedExpr)

/-- The place of an expression's first token. -/
def TaggedExpr.pos : TaggedExpr → Pos
  | literal p _ | access p _ _ | neg p _ _ | binary p _ _ _ | logical p _ _ _ | group p _
  | list p _ | call p _ _ | method p _ _ _ _ => p

namespace Expr

mutual
/-- An expression with the tokens of its constants and operators. -/
def tagged : Expr → TaggedExpr
  | literal p v => .literal p v.tagged
  | access p name indices => .access p name (taggedAll indices)
  | neg p e => .neg p (Lexeme.mark .minus).tagged e.tagged
  | binary p op l r => .binary p (Lexeme.mark op.mark).tagged l.tagged r.tagged
  | logical p op l r => .logical p (Lexeme.word op.word).tagged l.tagged r.tagged
  | group p e => .group p e.tagged
  | list p es => .list p (taggedAll es)
  | call p name args => .call p name (taggedAll args)
  | method p name indices m args => .method p name (taggedAll indices) m (taggedAll args)

def taggedAll : List Expr → List TaggedExpr
  | [] => []
  | e :: es => e.tagged :: taggedAll es
end

theorem pos_tagged (e : Expr) : e.tagged.pos = e.pos := by
  cases e <;> rw [tagged] <;> rfl

end Expr

/-! ## §2. Readers -/

namespace Tape

/-- How an operator's token puts its operands together. -/
abbrev Node := Tagged → TaggedExpr → TaggedExpr → TaggedExpr

/-- Reads further operands of a left-associative operator. -/
def chain (ops : Tag → Bool) (node : Node) (operand : TapeM TaggedExpr) :
    (steps : Nat) → TaggedExpr → TapeM TaggedExpr
  | 0, _ => throw .outOfSteps
  | steps + 1, lhs => do
    if ← looksAt ops then
      let op ← advance
      let rhs ← operand
      chain ops node operand steps (node op.content lhs rhs)
    else return lhs

def leftAssoc (ops : Tag → Bool) (node : Node) (operand : TapeM TaggedExpr) (steps : Nat) :
    TapeM TaggedExpr := do
  let lhs ← operand
  chain ops node operand steps lhs

/-- Reads one operand, or two with an operator between them. -/
def nonAssoc (ops : Tag → Bool) (node : Node) (operand : TapeM TaggedExpr) :
    TapeM TaggedExpr := do
  let lhs ← operand
  if ← looksAt ops then
    let op ← advance
    let rhs ← operand
    return node op.content lhs rhs
  else return lhs

/-- Reads any number of signs and what they stand before. -/
def signed (operand : TapeM TaggedExpr) : (steps : Nat) → TapeM TaggedExpr
  | 0 => throw .outOfSteps
  | steps + 1 => do
    if ← check (.mark .minus) then
      let sign ← advance
      let e ← signed operand steps
      return .neg sign.pos sign.content e
    else operand

/-- Reads expressions with commas between them, and the closing mark. -/
def listed (close : Mark) (expr : TapeM TaggedExpr) : (steps : Nat) → TapeM (List TaggedExpr)
  | 0 => throw .outOfSteps
  | steps + 1 => do
    let e ← expr
    if ← accept (.mark .comma) then
      if ← check (.mark close) then unexpected (ascii "expression")
      else return e :: (← listed close expr steps)
    else
      eat (.mark close)
      return [e]

/-- Reads what is between brackets, of which the first has been read. -/
def arguments (close : Mark) (expr : TapeM TaggedExpr) (steps : Nat) :
    TapeM (List TaggedExpr) := do
  if ← accept (.mark close) then return []
  else listed close expr steps

/-- Reads any number of indices. -/
def indices (expr : TapeM TaggedExpr) : (steps : Nat) → TapeM (List TaggedExpr)
  | 0 => throw .outOfSteps
  | steps + 1 => do
    if ← accept (.mark .lbracket) then
      let index ← expr
      eat (.mark .rbracket)
      return index :: (← indices expr steps)
    else return []

/-- Reads what follows a name, of which it has the token. -/
def named (expr : TapeM TaggedExpr) (steps : Nat) (id : TaggedToken) : TapeM TaggedExpr := do
  let name ← access id.content.text
  if ← accept (.mark .lparen) then
    return .call id.pos name (← arguments .rparen expr steps)
  else
    let path ← indices expr steps
    if ← accept (.mark .dot) then
      let method ← identifier (ascii "method name")
      eat (.mark .lparen)
      return .method id.pos name path method (← arguments .rparen expr steps)
    else return .access id.pos name path

/-- Reads a literal, a name and what follows it, or something in brackets. -/
def primary (expr : TapeM TaggedExpr) (steps : Nat) : TapeM TaggedExpr := do
  if ← atEnd then unexpected (ascii "expression")
  else
    let t ← here
    if t.content.tag.isLiteral then
      let _ ← advance
      return .literal t.pos t.content
    else if t.content.tag == .ident then
      let _ ← advance
      named expr steps t
    else if t.content.tag == .mark .lparen then
      let _ ← advance
      let inner ← expr
      eat (.mark .rparen)
      return .group t.pos inner
    else if t.content.tag == .mark .lbracket then
      let _ ← advance
      return .list t.pos (← arguments .rbracket expr steps)
    else unexpected (ascii "expression")

/-- Two operands with the operator's token between them. -/
def binaryNode : Node := fun op l r => .binary l.pos op l r

def logicalNode : Node := fun op l r => .logical l.pos op l r

def multiplicative (expr : TapeM TaggedExpr) (steps : Nat) : TapeM TaggedExpr :=
  leftAssoc (fun k => k == .mark .star || k == .mark .slash) binaryNode
    (signed (primary expr steps) steps) steps

def additive (expr : TapeM TaggedExpr) (steps : Nat) : TapeM TaggedExpr :=
  leftAssoc (fun k => k == .mark .plus || k == .mark .minus) binaryNode
    (multiplicative expr steps) steps

def comparison (expr : TapeM TaggedExpr) (steps : Nat) : TapeM TaggedExpr :=
  nonAssoc Tag.isComparison binaryNode (additive expr steps)

def conjunction (expr : TapeM TaggedExpr) (steps : Nat) : TapeM TaggedExpr :=
  leftAssoc (· == .word .and) logicalNode (comparison expr steps) steps

def disjunction (expr : TapeM TaggedExpr) (steps : Nat) : TapeM TaggedExpr :=
  leftAssoc (· == .word .or) logicalNode (conjunction expr steps) steps

/-- Reads an expression. -/
def expr : (steps : Nat) → TapeM TaggedExpr
  | 0 => throw .outOfSteps
  | steps + 1 => disjunction (expr steps) (steps + 1)

/-! ## §3. Operators -/

/-- The operators of a level: known by their tags just where they are known as lexemes, and
    kept with the operands as a token where they are kept as an operator. -/
structure Operators (ops : Tag → Bool) (node : Node) (join? : Lexeme → Option Parse.Join) :
    Prop where
  isSome : ∀ l : Lexeme, ops l.tagged.tag = (join? l).isSome
  joins : ∀ (l : Lexeme) join, join? l = some join →
    ∀ lhs rhs, (join lhs rhs).tagged = node l.tagged lhs.tagged rhs.tagged

/-- What is made of an operator's token and two operands is what joins the operands. -/
theorem Operators.node_eq {ops : Tag → Bool} {node : Node} {join? : Lexeme → Option Parse.Join}
    (hops : Operators ops node join?) {t : Token} {join : Parse.Join}
    (h : join? t.lexeme = some join) (lhs rhs : Expr) :
    node t.tagged.content lhs.tagged rhs.tagged = (join lhs rhs).tagged :=
  (hops.joins t.lexeme join h lhs rhs).symm

theorem operators_binary {ops : Tag → Bool} {ok : BinaryOp → Bool}
    (hops : ∀ l : Lexeme, ops l.tagged.tag = (Parse.binaryJoin? ok l).isSome) :
    Operators ops binaryNode (Parse.binaryJoin? ok) where
  isSome := hops
  joins l join hjoin lhs rhs := by
    obtain ⟨op, -, rfl, rfl⟩ := Parse.binaryJoin?_eq_some.mp hjoin
    rw [Expr.tagged, binaryNode, Expr.pos_tagged]

theorem operators_logical (op : LogicalOp) :
    Operators (· == .word op.word) logicalNode (Parse.logicalJoin? op) where
  isSome l := by
    cases l with
    | literal v => cases v <;> rfl
    | word w =>
      by_cases hw : w = op.word
      · simp [Parse.logicalJoin?, hw, Lexeme.tagged]
      · simp [Parse.logicalJoin?, hw, Lexeme.tagged]
    | _ => rfl
  joins l join hjoin lhs rhs := by
    obtain ⟨rfl, rfl⟩ := Parse.logicalJoin?_eq_some.mp hjoin
    rw [Expr.tagged, logicalNode, Expr.pos_tagged]

theorem operators_multiplicative :
    Operators (fun k => k == .mark .star || k == .mark .slash) binaryNode
      (Parse.binaryJoin? BinaryOp.isMultiplicative) := by
  apply operators_binary
  intro l
  cases l with
  | literal v => cases v <;> rfl
  | mark m => cases m <;> rfl
  | _ => rfl

theorem operators_additive :
    Operators (fun k => k == .mark .plus || k == .mark .minus) binaryNode
      (Parse.binaryJoin? BinaryOp.isAdditive) := by
  apply operators_binary
  intro l
  cases l with
  | literal v => cases v <;> rfl
  | mark m => cases m <;> rfl
  | _ => rfl

theorem operators_comparison :
    Operators Tag.isComparison binaryNode (Parse.binaryJoin? BinaryOp.isComparison) := by
  apply operators_binary
  intro l
  cases l with
  | literal v => cases v <;> rfl
  | mark m => cases m <;> rfl
  | _ => rfl

theorem select?_of_none {α : Type} {meaning : Lexeme → Option α} {c : Cursor}
    (h : c.lexeme?.bind meaning = none) : CursorM.select? meaning c = .ok none c := by
  unfold CursorM.select?
  rw [bind_of_ok (CursorM.lexeme?_run c), h]
  rfl

theorem select?_of_some {α : Type} {meaning : Lexeme → Option α} {a : α} {c : Cursor} {t : Token}
    (ht : c.token? = some t) (h : meaning t.lexeme = some a) :
    CursorM.select? meaning c = .ok (some a) (c.past t) := by
  unfold CursorM.select?
  rw [bind_of_ok (CursorM.lexeme?_run c), Cursor.lexeme?, ht, Option.map_some, Option.bind_some, h]
  dsimp only
  rw [bind_of_ok (CursorM.advance_of_some ht)]
  rfl

/-- Going on after an operator, if one is there. -/
theorem selected_mirrors {α β : Type} {view : α → β} {ops : Tag → Bool} {node : Node}
    {join? : Lexeme → Option Parse.Join} (hops : Operators ops node join?)
    {found : TaggedToken → TapeM β} {missing : TapeM β} {k : Option Parse.Join → CursorM α}
    (hfound : ∀ (t : Token) join, join? t.lexeme = some join →
      Mirrors Cursor.tape view (found t.tagged) (k (some join)))
    (hmissing : Mirrors Cursor.tape view missing (k none)) :
    Mirrors Cursor.tape view (do if ← looksAt ops then found (← advance) else missing)
      (CursorM.select? join? >>= k) := by
  intro c
  -- the tape looks at the token and takes it after that; the cursor does both at once
  apply MirrorsAt.looked (looksAt_tape ops c)
  cases ht : c.token? with
  | none =>
    have hlexeme : c.lexeme? = none := congrArg (Option.map Token.lexeme) ht
    rw [hlexeme]
    exact MirrorsAt.peeked (select?_of_none (by rw [hlexeme]; rfl)) (hmissing c)
  | some t =>
    have hlexeme : c.lexeme? = some t.lexeme := congrArg (Option.map Token.lexeme) ht
    rw [hlexeme, Option.any_some, hops.isSome]
    cases hjoin : join? t.lexeme with
    | none => exact MirrorsAt.peeked (select?_of_none (by rw [hlexeme]; exact hjoin)) (hmissing c)
    | some join =>
      exact MirrorsAt.passed (advance_of_some ht) (select?_of_some ht hjoin)
        (hfound t join hjoin _)

/-! ## §4. Levels -/

section
variable {ops : Tag → Bool} {node : Node} {join? : Lexeme → Option Parse.Join}
  {operand : TapeM TaggedExpr} {operand' : CursorM Expr}
  (hoperand : Mirrors Cursor.tape Expr.tagged operand operand')
include hoperand

theorem chain_mirrors (hops : Operators ops node join?) (steps : Nat) (lhs : Expr) :
    Mirrors Cursor.tape Expr.tagged (chain ops node operand steps lhs.tagged)
      (Parse.chain join? operand' steps lhs) := by
  induction steps generalizing lhs with
  | zero => exact mirrors_throw .outOfSteps
  | succ steps ih =>
    unfold chain Parse.chain
    apply selected_mirrors hops
    · intro t join hjoin
      apply hoperand.bind
      intro rhs
      rw [hops.node_eq hjoin]
      exact ih (join lhs rhs)
    · exact mirrors_pure lhs

theorem leftAssoc_mirrors (hops : Operators ops node join?) (steps : Nat) :
    Mirrors Cursor.tape Expr.tagged (leftAssoc ops node operand steps)
      (Parse.leftAssoc join? operand' steps) :=
  hoperand.bind fun lhs => chain_mirrors hoperand hops steps lhs

theorem nonAssoc_mirrors (hops : Operators ops node join?) :
    Mirrors Cursor.tape Expr.tagged (nonAssoc ops node operand)
      (Parse.nonAssoc join? operand') := by
  apply hoperand.bind
  intro lhs
  apply selected_mirrors hops
  · intro t join hjoin
    apply hoperand.bind
    intro rhs
    rw [hops.node_eq hjoin]
    exact mirrors_pure _
  · exact mirrors_pure lhs

theorem signed_mirrors (steps : Nat) :
    Mirrors Cursor.tape Expr.tagged (signed operand steps) (Parse.signed operand' steps) := by
  induction steps with
  | zero => exact mirrors_throw .outOfSteps
  | succ steps ih =>
    unfold signed Parse.signed
    apply checked_mirrors (Tag.mark_tells .minus)
    · intro t ht
      apply ih.bind
      intro e
      -- the token that is kept is the one that was asked for
      have hsign : t.tagged.content = (Lexeme.mark .minus).tagged := congrArg Lexeme.tagged ht
      rw [hsign]
      exact mirrors_pure (Expr.neg t.pos e)
    · exact hoperand

end

section
variable {expr : TapeM TaggedExpr} {expr' : CursorM Expr}
  (hexpr : Mirrors Cursor.tape Expr.tagged expr expr')
include hexpr

theorem listed_mirrors (close : Mark) (steps : Nat) :
    Mirrors Cursor.tape Expr.taggedAll (listed close expr steps)
      (Parse.listed close expr' steps) := by
  induction steps with
  | zero => exact mirrors_throw .outOfSteps
  | succ steps ih =>
    unfold listed Parse.listed
    apply hexpr.bind
    intro e
    apply (accept_mirrors (Tag.mark_tells .comma)).bind
    intro isComma
    cases isComma with
    | true =>
      apply (check_mirrors (Tag.mark_tells close)).bind
      intro isClose
      cases isClose with
      | true => exact unexpected_mirrors _ .expression
      | false => exact ih.bind fun es => mirrors_pure (e :: es)
    | false => exact (mark_mirrors close).bind fun _ => mirrors_pure [e]

theorem arguments_mirrors (close : Mark) (steps : Nat) :
    Mirrors Cursor.tape Expr.taggedAll (arguments close expr steps)
      (Parse.arguments close expr' steps) := by
  apply (accept_mirrors (Tag.mark_tells close)).bind
  intro isClose
  cases isClose with
  | true => exact mirrors_pure []
  | false => exact listed_mirrors hexpr close steps

theorem indices_mirrors (steps : Nat) :
    Mirrors Cursor.tape Expr.taggedAll (indices expr steps) (Parse.indices expr' steps) := by
  induction steps with
  | zero => exact mirrors_throw .outOfSteps
  | succ steps ih =>
    unfold indices Parse.indices
    apply (accept_mirrors (Tag.mark_tells .lbracket)).bind
    intro isOpen
    cases isOpen with
    | true =>
      apply hexpr.bind
      intro index
      apply (mark_mirrors .rbracket).bind
      intro _
      exact ih.bind fun es => mirrors_pure (index :: es)
    | false => exact mirrors_pure []

/-- The token of a name has the text that is asked for. -/
theorem named_mirrors (steps : Nat) (pos : Pos) (name : Bytes) :
    Mirrors Cursor.tape Expr.tagged
      (named expr steps (Token.tagged ⟨.ident name, pos⟩)) (Parse.named expr' steps pos name) := by
  intro c
  -- the text is asked for first, and the token of a name has one
  apply MirrorsAt.looked (b := name) rfl
  unfold Parse.named
  apply (accept_mirrors (Tag.mark_tells .lparen) c).bind
  intro isOpen c _
  cases isOpen with
  | true =>
    exact (arguments_mirrors hexpr .rparen steps c).bind fun args c _ =>
      mirrors_pure (Expr.call pos name args) c
  | false =>
    apply (indices_mirrors hexpr steps c).bind
    intro path c _
    apply (accept_mirrors (Tag.mark_tells .dot) c).bind
    intro isDot c _
    cases isDot with
    | true =>
      apply (identifier_mirrors .methodName c).bind
      intro method c _
      apply (mark_mirrors .lparen c).bind
      intro _ c _
      exact (arguments_mirrors hexpr .rparen steps c).bind fun args c _ =>
        mirrors_pure (Expr.method pos name path method args) c
    | false => exact mirrors_pure (Expr.access pos name path) c

/-- What the tag of a token tells decides what is made of it. -/
theorem primary_mirrors (steps : Nat) :
    Mirrors Cursor.tape Expr.tagged (primary expr steps) (Parse.primary expr' steps) := by
  have hno : Mirrors Cursor.tape Expr.tagged (unexpected (ascii "expression"))
      (CursorM.unexpected .expression) := unexpected_mirrors _ .expression
  apply seen_mirrors
  · exact fun c _ => hno c
  · intro c t h
    apply MirrorsAt.looked (here_of_some h)
    obtain ⟨l, p⟩ := t
    cases l with
    | eof => exact hno c
    | word w => exact hno c
    | literal v =>
      have hkept : Mirrors Cursor.tape Expr.tagged (pure (.literal p v.tagged))
          (pure (.literal p v)) := mirrors_pure (Expr.literal p v)
      cases v <;> exact passed_mirrors h (hkept _)
    | ident name => exact passed_mirrors h (named_mirrors hexpr steps p name _)
    | mark m =>
      cases m with
      | lparen =>
        apply passed_mirrors h
        apply (hexpr _).bind
        intro inner c _
        exact (mark_mirrors .rparen c).bind fun _ c _ => mirrors_pure (Expr.group p inner) c
      | lbracket =>
        apply passed_mirrors h
        exact (arguments_mirrors hexpr .rbracket steps _).bind fun es c _ =>
          mirrors_pure (Expr.list p es) c
      | _ => exact hno c

theorem multiplicative_mirrors (steps : Nat) :
    Mirrors Cursor.tape Expr.tagged (multiplicative expr steps)
      (Parse.multiplicative expr' steps) :=
  leftAssoc_mirrors (signed_mirrors (primary_mirrors hexpr steps) steps) operators_multiplicative
    steps

theorem additive_mirrors (steps : Nat) :
    Mirrors Cursor.tape Expr.tagged (additive expr steps) (Parse.additive expr' steps) :=
  leftAssoc_mirrors (multiplicative_mirrors hexpr steps) operators_additive steps

theorem comparison_mirrors (steps : Nat) :
    Mirrors Cursor.tape Expr.tagged (comparison expr steps) (Parse.comparison expr' steps) :=
  nonAssoc_mirrors (additive_mirrors hexpr steps) operators_comparison

theorem conjunction_mirrors (steps : Nat) :
    Mirrors Cursor.tape Expr.tagged (conjunction expr steps) (Parse.conjunction expr' steps) :=
  leftAssoc_mirrors (comparison_mirrors hexpr steps) (operators_logical .and) steps

theorem disjunction_mirrors (steps : Nat) :
    Mirrors Cursor.tape Expr.tagged (disjunction expr steps) (Parse.disjunction expr' steps) :=
  leftAssoc_mirrors (conjunction_mirrors hexpr steps) (operators_logical .or) steps

end

theorem expr_mirrors (steps : Nat) :
    Mirrors Cursor.tape Expr.tagged (expr steps) (Parse.expr steps) := by
  induction steps with
  | zero => exact mirrors_throw .outOfSteps
  | succ steps ih => exact disjunction_mirrors ih (steps + 1)

end Tape
end Lumen
