/-
  Lumen.Proofs.Access.Safety — no access goes wrong.

  A tape whose payloads go with the tags is read without a fault, whatever is read from it
  and in whatever environment, with checks or without: no token is asked for where there
  is none, none is passed at the end, and each payload that is asked for is there.  The
  same is so of what is read when it is written as JSON.  Scanning gives such tapes, and
  so does the split of a `>=`.

  Main statements:
    * `Expr.toJson_tagged`, `Stmt.toJson_tagged` — trees with their tokens as JSON;
    * `Operation.onTape_faultFree` — a run on a sound tape;
    * `no_access_faults` — all accesses.
-/
import Lumen.Proofs.Access.Scan
import Lumen.Proofs.Access.Statements
import Lumen.Program.Json

namespace Lumen

/-! ## §1. Trees as JSON -/

namespace TaggedExpr

mutual
/-- An expression as JSON: constants by their values, operators by their texts. -/
def toJson : TaggedExpr → Except Fault Json
  | literal p value => return .node "Literal" p [("value", ← value.json)]
  | access p name indices =>
    return Expr.indexed p (Expr.variableNode p name) (← toJsonList indices)
  | neg p op e => return .node "Unary" p [("op", .str (← op.source)), ("rhs", ← e.toJson)]
  | binary p op l r =>
    return .node "Binary" p
      [("op", .str (← op.source)), ("lhs", ← l.toJson), ("rhs", ← r.toJson)]
  | logical p op l r =>
    return .node "Logical" p
      [("op", .str (← op.source)), ("lhs", ← l.toJson), ("rhs", ← r.toJson)]
  | group p e => return .node "Grouping" p [("inner", ← e.toJson)]
  | list p es => return .node "List" p [("elements", .arr (← toJsonList es))]
  | call p name args =>
    return .node "Call" p
      [("callee", Expr.variableNode p name), ("args", .arr (← toJsonList args))]
  | method p name indices m args =>
    return .node "MethodCall" p
      [("receiver", Expr.indexed p (Expr.variableNode p name) (← toJsonList indices)),
        ("method", .str m), ("args", .arr (← toJsonList args))]

def toJsonList : List TaggedExpr → Except Fault (List Json)
  | [] => return []
  | e :: es => return (← e.toJson) :: (← toJsonList es)
end

end TaggedExpr

mutual
/-- A statement as JSON. -/
def TaggedStmt.toJson : TaggedStmt → Except Fault Json
  | .expr p e => return .node "Expression" p [("expr", ← e.toJson)]
  | .assign p name indices value =>
    return .node "Expression" p
      [("expr", assignNode p name (← TaggedExpr.toJsonList indices) (← value.toJson))]
  | .let_ p name type init =>
    return .node "Let" p
      [("name", .str name), ("type", .word type.text), ("init", ← init.toJson)]
  | .print p value => return .node "Print" p [("value", ← value.toJson)]
  | .if_ p cond then_ else_ =>
    return .node "If" p
      [("cond", ← cond.toJson), ("then", ← then_.listJson), ("else", ← elseToJson else_)]
  | .while_ p cond body =>
    return .node "While" p [("cond", ← cond.toJson), ("body", ← body.listJson)]
  | .for_ p var start stop body =>
    return .node "For" p
      [("var", .str var), ("start", ← start.toJson), ("end", ← stop.toJson),
        ("body", ← body.listJson)]
  | .fn p name params body => return .fnNode p name params (some (← body.listJson))
  | .return_ p none => return .node "Return" p [("value", .null)]
  | .return_ p (some e) => return .node "Return" p [("value", ← e.toJson)]

/-- The statements of a block as JSON. -/
def TaggedBlock.listJson : TaggedBlock → Except Fault Json
  | .mk _ stmts => return .arr (← taggedToJson stmts)

def elseToJson : Option TaggedBlock → Except Fault Json
  | none => return .null
  | some b => b.listJson

def taggedToJson : List TaggedStmt → Except Fault (List Json)
  | [] => return []
  | s :: rest => return (← s.toJson) :: (← taggedToJson rest)
end

/-- A block that stands where a statement does. -/
def TaggedBlock.toJson : TaggedBlock → Except Fault Json
  | .mk p stmts => return .blockNode p (.arr (← taggedToJson stmts))

/-- A whole program as JSON. -/
def programToJson (p : List TaggedStmt) : Except Fault Json := return .arr (← taggedToJson p)

namespace Expr

theorem toJsonList_tagged_of {es : List Expr} (h : ∀ e ∈ es, e.tagged.toJson = .ok e.toJson) :
    TaggedExpr.toJsonList (taggedAll es) = .ok (toJsonList es) := by
  induction es with
  | nil => rfl
  | cons e rest ih =>
    obtain ⟨hhead, htail⟩ := List.forall_mem_cons.mp h
    rw [taggedAll, TaggedExpr.toJsonList, toJsonList, hhead, ih htail]
    rfl

/-- An expression with its tokens is written without a fault. -/
theorem toJson_tagged (e : Expr) : e.tagged.toJson = .ok e.toJson := by
  have hsource := Tagged.source_tagged
  induction e with
  | literal p v =>
    have hjson : v.tagged.json = _ := Tagged.json_tagged (.literal v)
    rw [tagged, TaggedExpr.toJson, toJson, hjson]
    rfl
  | access p name indices ih =>
    rw [tagged, TaggedExpr.toJson, toJson, toJsonList_tagged_of ih]
    rfl
  | neg p e ih =>
    rw [tagged, TaggedExpr.toJson, toJson, hsource, ih]
    rfl
  | binary p op l r ihl ihr =>
    rw [tagged, TaggedExpr.toJson, toJson, hsource, ihl, ihr]
    rfl
  | logical p op l r ihl ihr =>
    rw [tagged, TaggedExpr.toJson, toJson, hsource, ihl, ihr]
    rfl
  | group p e ih =>
    rw [tagged, TaggedExpr.toJson, toJson, ih]
    rfl
  | list p es ih =>
    rw [tagged, TaggedExpr.toJson, toJson, toJsonList_tagged_of ih]
    rfl
  | call p name args ih =>
    rw [tagged, TaggedExpr.toJson, toJson, toJsonList_tagged_of ih]
    rfl
  | method p name indices m args ihi iha =>
    rw [tagged, TaggedExpr.toJson, toJson, toJsonList_tagged_of ihi, toJsonList_tagged_of iha]
    rfl

theorem toJsonList_tagged (es : List Expr) :
    TaggedExpr.toJsonList (taggedAll es) = .ok (toJsonList es) :=
  toJsonList_tagged_of fun e _ => e.toJson_tagged

end Expr

theorem taggedToJson_of {stmts : List Stmt} (h : ∀ s ∈ stmts, s.tagged.toJson = .ok s.toJson) :
    taggedToJson (taggedStmts stmts) = .ok (stmtsToJson stmts) := by
  induction stmts with
  | nil => rfl
  | cons s rest ih =>
    obtain ⟨hhead, htail⟩ := List.forall_mem_cons.mp h
    rw [taggedStmts, taggedToJson, stmtsToJson, hhead, ih htail]
    rfl

/-- A statement with its tokens is written without a fault. -/
theorem Stmt.toJson_tagged (s : Stmt) : s.tagged.toJson = .ok s.toJson := by
  have hexpr := Expr.toJson_tagged
  induction s with
  | expr p e =>
    rw [tagged, TaggedStmt.toJson, toJson, hexpr]
    rfl
  | assign p name indices value =>
    rw [tagged, TaggedStmt.toJson, toJson, Expr.toJsonList_tagged, hexpr]
    rfl
  | let_ p name type init =>
    rw [tagged, TaggedStmt.toJson, toJson, hexpr]
    rfl
  | print p value =>
    rw [tagged, TaggedStmt.toJson, toJson, hexpr]
    rfl
  | if_ p cond q stmts else_ ih ih' =>
    rw [tagged, Block.tagged, TaggedStmt.toJson, TaggedBlock.listJson, hexpr, taggedToJson_of ih]
    cases else_ with
    | none => rw [toJson]; rfl
    | some b =>
      obtain ⟨q', others⟩ := b
      have hothers : taggedToJson (taggedStmts others) = .ok (stmtsToJson others) :=
        taggedToJson_of (ih' _ rfl)
      rw [toJson, taggedElse, Block.tagged, elseToJson, TaggedBlock.listJson, hothers]
      rfl
  | while_ p cond q stmts ih =>
    rw [tagged, Block.tagged, TaggedStmt.toJson, TaggedBlock.listJson, hexpr,
      taggedToJson_of ih, toJson]
    rfl
  | for_ p var start stop q stmts ih =>
    rw [tagged, Block.tagged, TaggedStmt.toJson, TaggedBlock.listJson, hexpr, hexpr,
      taggedToJson_of ih, toJson]
    rfl
  | fn p name params q stmts ih =>
    rw [tagged, Block.tagged, TaggedStmt.toJson, TaggedBlock.listJson, taggedToJson_of ih, toJson]
    rfl
  | return_ p value =>
    cases value with
    | none => rw [tagged, toJson]; rfl
    | some e =>
      rw [tagged, toJson, Option.map_some, TaggedStmt.toJson, hexpr]
      rfl

theorem taggedToJson_eq (stmts : List Stmt) :
    taggedToJson (taggedStmts stmts) = .ok (stmtsToJson stmts) :=
  taggedToJson_of fun s _ => s.toJson_tagged

theorem Program.toJson_tagged (p : Program) : programToJson (taggedStmts p) = .ok p.toJson := by
  rw [programToJson, taggedToJson_eq]
  rfl

theorem Block.toJson_tagged (b : Block) : b.tagged.toJson = .ok b.toJson := by
  obtain ⟨p, stmts⟩ := b
  rw [Block.tagged, TaggedBlock.toJson, taggedToJson_eq]
  rfl

/-! ## §2. Sound tapes -/

/-- Whether a run ended because of an access, or for want of a step. -/
def Stop.isStuck : Stop → Bool
  | fault _ | outOfSteps => true
  | _ => false

theorem Failure.isStuck_stop (f : Failure) : f.stop.isStuck = f.isStuck := by
  cases f <;> rfl

theorem Cursor.weigh_le (ts : List Token) : weigh ts ≤ 2 * ts.length := by
  induction ts with
  | nil => exact Nat.le_refl 0
  | cons t rest ih =>
    rw [weigh, List.length_cons]
    split <;> omega

namespace Tape
variable {tape : Tape} (h : tape.IsSound)
include h

/-- A sound tape, with any environment and any lines, is that of a parse. -/
theorem exists_state (env : TaggedEnv) (lines : Array Bytes) :
    ∃ s : Parse.State, s.tagged lines = ⟨tape, env, lines⟩
      ∧ s.cursor.weight ≤ 2 * tape.tokens.length := by
  obtain ⟨c, rfl⟩ := exists_cursor h
  obtain ⟨scopes, functions⟩ := env
  refine ⟨{ cursor := c, env := ⟨scopes, functions.map fun f => ⟨f.name, f.params, none⟩⟩ }, ?_, ?_⟩
  · have hfunctions : (functions.map fun f => (⟨f.name, f.params, none⟩ : Signature)).map
        Signature.tagged = functions := by
      rw [List.map_map]
      exact List.map_id functions
    rw [Parse.State.tagged, Env.tagged, hfunctions]
    simp
  · have hahead : c.ahead.length ≤ c.tape.tokens.length := by
      simp [Cursor.tape, Cursor.tokens]
    have := Cursor.weigh_le c.ahead
    show Cursor.weigh c.ahead ≤ _
    omega

/-- A token that was looked at is the one that is passed then. -/
theorem advance_of_looksAt {ok : Tag → Bool} (hlook : looksAt ok tape = .ok true tape) :
    ∃ t, tape.tokens[tape.index]? = some t ∧ ok t.content.tag = true
      ∧ advance tape = .ok t { tape with index := tape.index + 1 } := by
  obtain ⟨c, rfl⟩ := exists_cursor h
  cases ht : c.token? with
  | none =>
    rw [looksAt_of_none ht] at hlook
    cases hlook
  | some t =>
    have hcurrent := (Option.filter_eq_some_iff.mp ht).1
    rw [looksAt_of_some ht] at hlook
    injection hlook with hok
    refine ⟨t.tagged, ?_, hok, ?_⟩
    · rw [c.getElem?_tape, hcurrent]
      rfl
    · rw [advance_of_some ht, Cursor.tape_past hcurrent]

theorem splitGe_isSound : ∃ tape', splitGe tape = .ok () tape' ∧ tape'.IsSound := by
  obtain ⟨c, rfl⟩ := exists_cursor h
  exact ⟨c.splitGe.tape, splitGe_mirrors c, c.splitGe.tape_isSound⟩

end Tape

/-! ## §3. Runs -/

namespace Parse.Operation

/-- What an operation has given, as JSON. -/
def json : (op : Operation) → op.TaggedGiven → Except Fault Json
  | program, p => programToJson p
  | statement, s => s.toJson
  | statements, b => b.toJson
  | expression, e => e.toJson
  | typeName, t => return .word t.text

theorem exists_json (op : Operation) (a : op.Given) : ∃ j, op.json (op.givenTagged a) = .ok j := by
  cases op with
  | program => exact ⟨_, Program.toJson_tagged a⟩
  | statement => exact ⟨_, Stmt.toJson_tagged a⟩
  | statements => exact ⟨_, Block.toJson_tagged a⟩
  | expression => exact ⟨_, Expr.toJson_tagged a⟩
  | typeName => exact ⟨_, rfl⟩

/-- A run has no fault and is not out of steps; it leaves a sound tape, and what it gives is
    written without a fault. -/
structure FaultFree (o : Options) (op : Operation) (n : Nat) (x : TaggedState) : Prop where
  ends : Ends (op.onTape o n) x (fun a y => y.tape.IsSound ∧ ∃ j, op.json a = .ok j)
    fun e y => e.isStuck = false ∧ y.tape.IsSound

variable (o : Options) (op : Operation) {noted : Array Bytes} {s : State} {n : Nat}
  (hn : s.cursor.weight < n)
include hn

/-- With steps enough, a run on a tape comes to what the parse comes to. -/
theorem onTape_eq :
    op.onTape o n (s.tagged noted)
      = mirrored (State.tagged noted) op.givenTagged (op.read o s) := by
  rw [← op.inSteps_eq o s hn]
  exact op.onTape_mirrors o n s

/-- Whatever is read from a sound tape, no access goes wrong. -/
theorem onTape_faultFree : op.FaultFree o n (s.tagged noted) where
  ends := by
    have hends := op.inSteps_notStuck o s hn
    unfold Ends at hends ⊢
    rw [op.onTape_mirrors o n s]
    cases hrun : op.inSteps o n s with
    | ok a t => exact ⟨t.cursor.tape_isSound, op.exists_json a⟩
    | error f t =>
      rw [hrun] at hends
      exact ⟨f.isStuck_stop.trans hends, t.cursor.tape_isSound⟩

end Parse.Operation

/-! ## §4. All accesses -/

/-- **No access goes wrong.**  The tokens of every text have payloads that go with their
    tags.  On a tape of such tokens, whatever stands on it and wherever its index is:
    * to split a `>=` leaves such a tape;
    * the token at the index and the next one are given where there are any;
    * a token that was looked at is the one that is passed then;
    * each token is written, described, valued and shown as JSON without a fault;
    * whatever is read, in any environment, with checks or without, with a record or
      without: the run comes to what the parse comes to, it never asks for a token that is
      not there, passes none at the end and asks for no payload that a token does not have;
      it leaves such a tape, and what it gives is written as JSON without a fault.
    Twice as many steps as there are tokens are always enough. -/
theorem no_access_faults :
    (∀ (source : Bytes) ts, taggedFrom 0 .start source = .ok ts → Tape.IsSound ⟨ts, 0⟩)
      ∧ ∀ tape : Tape, tape.IsSound →
        (∃ tape', Tape.splitGe tape = .ok () tape' ∧ tape'.IsSound)
        ∧ Tape.found? tape = .ok tape.tokens[tape.index]? tape
        ∧ Tape.following? tape = .ok tape.tokens[tape.index + 1]? tape
        ∧ (∀ ok, Tape.looksAt ok tape = .ok true tape →
          ∃ t, tape.tokens[tape.index]? = some t ∧ ok t.content.tag = true
            ∧ Tape.advance tape = .ok t { tape with index := tape.index + 1 })
        ∧ (∀ t ∈ tape.tokens,
          (∃ text, t.content.source = .ok text) ∧ (∃ text, t.content.describe = .ok text)
            ∧ (∃ v, t.content.value = .ok v) ∧ ∃ j, t.content.json = .ok j)
        ∧ ∀ (o : Options) (op : Parse.Operation) (env : TaggedEnv) (lines : Array Bytes),
          ∃ s : Parse.State, s.tagged lines = ⟨tape, env, lines⟩
            ∧ ∀ n, 2 * tape.tokens.length < n →
              op.onTape o n ⟨tape, env, lines⟩
                  = mirrored (Parse.State.tagged lines) op.givenTagged (op.read o s)
                ∧ op.FaultFree o n ⟨tape, env, lines⟩ := by
  refine ⟨?_, ?_⟩
  · intro source ts hts
    exact ⟨isSound_of_taggedFrom hts, Nat.zero_le _⟩
  · intro tape h
    refine ⟨Tape.splitGe_isSound h, tape.found?_eq, tape.following?_eq,
      fun ok hlook => Tape.advance_of_looksAt h hlook,
      fun t ht => Tagged.answers (h.tokens t ht), ?_⟩
    intro o op env lines
    -- a sound tape is the tape of some state, and the run on it mirrors the parse from there
    obtain ⟨s, hs, hweight⟩ := Tape.exists_state h env lines
    refine ⟨s, hs, ?_⟩
    intro n hn
    rw [← hs]
    have hsteps : s.cursor.weight < n := Nat.lt_of_le_of_lt hweight hn
    exact ⟨op.onTape_eq o hsteps, op.onTape_faultFree o hsteps⟩

/-- `let x: list<int>= [1]` is scanned, its `>=` can be split or passed, and it is read without
    a fault. -/
theorem no_access_faults_split :
    let ts : List TaggedToken :=
      [⟨⟨.word .let_, .none⟩, ⟨0, 1, 1⟩⟩, ⟨⟨.ident, .text [120]⟩, ⟨4, 1, 5⟩⟩,
        ⟨⟨.mark .colon, .none⟩, ⟨5, 1, 6⟩⟩, ⟨⟨.word .list, .none⟩, ⟨7, 1, 8⟩⟩,
        ⟨⟨.mark .lt, .none⟩, ⟨11, 1, 12⟩⟩, ⟨⟨.word .int, .none⟩, ⟨12, 1, 13⟩⟩,
        ⟨⟨.mark .ge, .none⟩, ⟨15, 1, 16⟩⟩, ⟨⟨.mark .lbracket, .none⟩, ⟨18, 1, 19⟩⟩,
        ⟨⟨.int, .int 1⟩, ⟨19, 1, 20⟩⟩, ⟨⟨.mark .rbracket, .none⟩, ⟨20, 1, 21⟩⟩,
        ⟨⟨.eof, .none⟩, ⟨21, 1, 22⟩⟩]
    let tape : Tape := ⟨ts, 6⟩
    taggedFrom 0 .start (ascii "let x: list<int>= [1]") = .ok ts
      ∧ tape.IsSound
      ∧ (∃ tape', Tape.splitGe tape = .ok () tape' ∧ tape'.IsSound)
      ∧ (∃ t, tape.tokens[tape.index]? = some t ∧ (t.content.tag == .mark .ge) = true
        ∧ Tape.advance tape = .ok t ⟨ts, 7⟩)
      ∧ Parse.Operation.program.FaultFree {} 23 ⟨⟨ts, 0⟩, {}, #[]⟩ := by
  intro ts tape
  have hscan : taggedFrom 0 .start (ascii "let x: list<int>= [1]") = .ok ts := by decide +kernel
  obtain ⟨hsource, hsound⟩ := no_access_faults
  have hstart : Tape.IsSound ⟨ts, 0⟩ := hsource _ ts hscan
  have htape : tape.IsSound := ⟨hstart.tokens, by decide⟩
  obtain ⟨hsplit, -, -, hlook, -, -⟩ := hsound tape htape
  have hthere : Tape.looksAt (· == .mark .ge) tape = .ok true tape := rfl
  obtain ⟨-, -, -, -, -, hrun⟩ := hsound ⟨ts, 0⟩ hstart
  obtain ⟨s, -, hends⟩ := hrun {} .program {} #[]
  exact ⟨hscan, htape, hsplit, hlook _ hthere, (hends 23 (by decide)).2⟩

end Lumen
