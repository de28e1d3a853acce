/-
  Lumen.Proofs.Access.Judgements — checks on expressions that keep their tokens.

  A check asks for payloads in three places: a literal that is reported is written out, the
  value of a constant is that of its token, and a value that does not fit is written out
  part by part.  Each check here has the faults of these accesses among its outcomes, and
  on an expression whose tokens are sound it comes to what the check of the expression
  comes to, with the error as it is reported.

  Main statements:
    * `judges_tagged` — both judgements on an expression;
    * `Expr.constant_tagged` — constants;
    * `Env.store_tagged`, `Env.register_tagged` — the changes of an environment.
-/
import Lumen.Proofs.Access.Expressions
import Lumen.Proofs.Checking.Judged

namespace Lumen

/-! ## §1. Environments without bodies -/

/-- What is known of a function when it is called. -/
structure Head where
  name : Bytes
  params : List Param
deriving DecidableEq

/-- The open scopes and the functions completed so far. -/
structure TaggedEnv where
  scopes : ScopeStack := {}
  functions : List Head := []

def Signature.tagged (f : Signature) : Head := ⟨f.name, f.params⟩

/-- An environment as it shows to checks, which do not look into functions. -/
def Env.tagged (env : Env) : TaggedEnv := ⟨env.scopes, env.functions.map Signature.tagged⟩

namespace Report

/-- A name that is not declared. -/
def undeclared (name : Bytes) (pos : Option Pos) : Report :=
  { kind := "undeclared-variable", name, pos }

/-- Something of another type than is wanted. -/
def mismatch (name expected found : Bytes) (pos : Option Pos) : Report :=
  { kind := "type-mismatch", expected, foundText := found, name, pos }

def duplicateFunction (name : Bytes) (pos : Pos) : Report :=
  { kind := "duplicate-function", name, pos := some pos }

def arity (name : Bytes) (expected found : Nat) (pos : Pos) : Report :=
  { kind := "arity-mismatch", expected := decimal expected, foundText := decimal found, name,
    pos := some pos }

end Report

/-- What is asked of a token, within a check. -/
def asked {α : Type} (r : Except Fault α) : Except Stop α := r.mapError .fault

/-- Reports that something of another type was found, whose text is asked for first. -/
def misfound {α : Type} (name expected : Bytes) (found : Except Fault Bytes) (pos : Option Pos) :
    Except Stop α := do
  let text ← asked found
  .error (.error (.mismatch name expected text pos))

/-! ## §2. The checks -/

namespace TaggedExpr

/-- An expression without the parentheses around it. -/
def ungrouped : TaggedExpr → TaggedExpr
  | group _ inner => inner.ungrouped
  | e => e

/-- How an expression of some type is reported: a literal with its text. -/
def found (e : TaggedExpr) (t : Ty) : Except Fault Bytes :=
  match e with
  | literal _ value => return ascii t.text ++ ascii " " ++ (← value.source)
  | _ => .ok (ascii t.text)

/-- Wants the type of an expression, if it is known, to be of some class. -/
def require (e : TaggedExpr) (t : Option Ty) (ok : Ty → Bool) (wanted : Bytes) :
    Except Stop Unit :=
  match t with
  | none => .ok ()
  | some t => if ok t then .ok () else misfound [] wanted (e.found t) (some e.pos)

/-- Wants the type of an expression to accept that of another one, if both are known. -/
def requireAgreement (left right : Option Ty) (rhs : TaggedExpr) : Except Stop Unit :=
  match left, right with
  | some l, some r =>
    if l.accepts r then .ok () else misfound [] (ascii l.text) (rhs.found r) (some rhs.pos)
  | _, _ => .ok ()

/-- What an operator wants of each operand by itself. -/
def requireOperand (op : Tag) (e : TaggedExpr) (t : Option Ty) : Except Stop Unit :=
  if op.isComparison then
    if op.isOrdering then e.require t Ty.isOrdered (ascii "int, float or string") else .ok ()
  else if op == .mark .plus then e.require t Ty.isOrdered (ascii "int or float")
  else e.require t Ty.isNumeric (ascii "int or float")

mutual
/-- The value of an expression that is made of literals, signs, parentheses and lists only;
    unknown for any other. -/
def constant : TaggedExpr → Except Fault Value
  | literal _ value => value.value
  | group _ inner => inner.constant
  | neg _ _ e => do
    match ← e.constant with
    | .scalar v => return (v.neg?.map Value.scalar).getD .unknown
    | _ => return .unknown
  | list _ elements => do
    match ← constants? elements with
    | some items => return .list items
    | none => return .unknown
  | _ => .ok .unknown

/-- The values of expressions, if all of them are known. -/
def constants? : List TaggedExpr → Except Fault (Option (List Value))
  | [] => .ok (some [])
  | e :: rest => do
    match ← e.constant with
    | .unknown => return none
    | v => return (← constants? rest).map (v :: ·)
end

end TaggedExpr

namespace TaggedEnv

/-- The declared type of a name that is used at a place. -/
def typeOf (env : TaggedEnv) (name : Bytes) (pos : Pos) : Except Stop Ty :=
  match env.scopes.lookup? name with
  | some b => .ok b.type
  | none => .error (.error (.undeclared name (some pos)))

/-- The function of a name. -/
def function? (env : TaggedEnv) (name : Bytes) : Option Head :=
  env.functions.find? fun f => f.name == name

/-- The type of the elements of a list type. -/
def elementType (pos : Pos) : Option Ty → Except Stop (Option Ty)
  | none => .ok none
  | some (.list .any) => .ok none
  | some (.list elem) => .ok (some elem)
  | some t => misfound [] (ascii "list") (.ok (ascii t.text)) (some pos)

/-- The type of an operator's result. -/
def resultType (op : Tag) (left right : Option Ty) : Option Ty :=
  if op.isComparison then some .bool
  else match right with
    | some _ => left
    | none => none

mutual
/-- The type of an expression, if it is known. -/
def infer (env : TaggedEnv) : TaggedExpr → Except Stop (Option Ty)
  | .literal _ value => .ok value.tag.literalType?
  | .access p name indices => do
    let t ← env.typeOf name p
    inferIndices env p (some t) indices
  | .neg _ _ e => do
    let t ← infer env e
    e.require t Ty.isNumeric (ascii "int or float")
    return t
  | .binary _ op lhs rhs => do
    let l ← infer env lhs
    let r ← infer env rhs
    TaggedExpr.requireAgreement l r rhs
    TaggedExpr.requireOperand op.tag lhs l
    TaggedExpr.requireOperand op.tag rhs r
    return resultType op.tag l r
  | .logical _ _ lhs rhs => do
    lhs.require (← infer env lhs) (· == .bool) (ascii "bool")
    rhs.require (← infer env rhs) (· == .bool) (ascii "bool")
    return some .bool
  | .group _ inner => infer env inner
  | .list _ elements => do
    let elem ← inferElements env .any elements
    return some (.list elem)
  | .call p name args =>
    match env.function? name with
    | none => do
      inferEach env args
      return none
    | some f =>
      if f.params.length = args.length then do
        checkArgs env f.params args
        return none
      else .error (.error (.arity f.name f.params.length args.length p))
  | .method p name indices _ args => do
    let t ← env.typeOf name p
    let _ ← inferIndices env p (some t) indices
    inferEach env args
    return none
termination_by e => 2 * sizeOf e

/-- The type of what is left after indexing at a place, if it is known. -/
def inferIndices (env : TaggedEnv) (pos : Pos) :
    Option Ty → List TaggedExpr → Except Stop (Option Ty)
  | t, [] => .ok t
  | t, index :: rest => do
    let i ← infer env index
    index.require i (· == .int) (ascii "int")
    let elem ← elementType pos t
    inferIndices env pos elem rest
termination_by _ es => 2 * sizeOf es

/-- The merger of a type with the known types of list elements. -/
def inferElements (env : TaggedEnv) : Ty → List TaggedExpr → Except Stop Ty
  | merged, [] => .ok merged
  | merged, e :: rest => do
    match ← infer env e with
    | none => inferElements env merged rest
    | some t =>
      match merged.merge? t with
      | some finer => inferElements env finer rest
      | none => misfound [] (ascii merged.text) (e.found t) (some e.pos)
termination_by _ es => 2 * sizeOf es

/-- Finds the types of expressions of which nothing is wanted. -/
def inferEach (env : TaggedEnv) : List TaggedExpr → Except Stop Unit
  | [] => .ok ()
  | e :: rest => do
    let _ ← infer env e
    inferEach env rest
termination_by es => 2 * sizeOf es

/-- Checks arguments against parameters, one by one. -/
def checkArgs (env : TaggedEnv) : List Param → List TaggedExpr → Except Stop Unit
  | p :: params, e :: rest => do
    checkAgainst env p.type p.name e.pos e
    checkArgs env params rest
  | _, _ => .ok ()
termination_by _ es => 2 * sizeOf es

/-- Checks the elements of a list literal against one declared type. -/
def checkElements (env : TaggedEnv) (declared : Ty) (name : Bytes) :
    List TaggedExpr → Except Stop Unit
  | [] => .ok ()
  | e :: rest => do
    checkAgainst env declared name e.pos e
    checkElements env declared name rest
termination_by es => 2 * sizeOf es

/-- Checks an expression, which starts at `pos` with its parentheses, against a declared
    type. -/
def checkAgainst (env : TaggedEnv) (declared : Ty) (name : Bytes) (pos : Pos) :
    TaggedExpr → Except Stop Unit
  | .group _ inner => checkAgainst env declared name pos inner
  | .list _ elements =>
    match declared with
    | .list elem => checkElements env elem name elements
    | t => misfound name (ascii t.text) (.ok (ascii "list")) (some pos)
  | e => do
    match ← infer env e with
    | none => .ok ()
    | some t =>
      if declared.accepts t then .ok ()
      else misfound name (ascii declared.text) (e.found t) (some pos)
termination_by e => 2 * sizeOf e + 1
end

/-- Checks that an expression may stand where a type is declared for a name. -/
def checkType (env : TaggedEnv) (declared : Ty) (e : TaggedExpr) (name : Bytes) :
    Except Stop Unit :=
  env.checkAgainst declared name e.pos e

/-- Wants a condition to be a truth value. -/
def checkTruth (env : TaggedEnv) (cond : TaggedExpr) : Except Stop Unit := do
  match ← env.infer cond with
  | none => .ok ()
  | some t =>
    if t = .bool then .ok ()
    else misfound [] (ascii "bool") (cond.ungrouped.found t) (some cond.pos)

/-- Wants the bounds of a loop to be integers. -/
def checkBounds (env : TaggedEnv) (var : Bytes) (start stop : TaggedExpr) : Except Stop Unit := do
  env.checkType .int start var
  env.checkType .int stop var

/-! ## §3. The changes -/

/-- Declares a variable in the innermost scope, if the value fits. -/
def declare (env : TaggedEnv) (name : Bytes) (type : Ty) (value : Value) :
    Except Stop TaggedEnv :=
  match value.misfit? type with
  | some m => misfound name (ascii type.text) m.value.naming none
  | none => .ok { env with scopes := env.scopes.define name ⟨type, value⟩ }

/-- Declares variables of which nothing but the type is known. -/
def declareAll (env : TaggedEnv) (locals : List Param) : Except Stop TaggedEnv :=
  locals.foldlM (fun env p => env.declare p.name p.type .unknown) env

/-- Stores a value in the nearest binding of a name, if it fits. -/
def assign (env : TaggedEnv) (name : Bytes) (value : Value) (pos : Option Pos) :
    Except Stop TaggedEnv :=
  match env.scopes.lookup? name with
  | none => .error (.error (.undeclared name pos))
  | some b =>
    match value.misfit? b.type with
    | some m => misfound name (ascii b.type.text) m.value.naming pos
    | none => .ok { env with scopes := env.scopes.replaceNearest name ⟨b.type, value⟩ }

/-- Checks an assignment and stores what is known of the value. -/
def store (env : TaggedEnv) (pos : Pos) (name : Bytes) (indices : List TaggedExpr)
    (value : TaggedExpr) : Except Stop TaggedEnv := do
  let declared ← env.typeOf name pos
  match indices with
  | [] =>
    env.checkType declared value name
    env.assign name (← asked value.constant) (some pos)
  | _ =>
    match ← env.inferIndices pos (some declared) indices with
    | some elem => env.checkType elem value name
    | none => let _ ← env.infer value
    env.assign name .unknown (some pos)

/-- Enters a new scope. -/
def push (env : TaggedEnv) : TaggedEnv := { env with scopes := env.scopes.push }

/-- Leaves the innermost scope. -/
def pop (env : TaggedEnv) : Except Stop TaggedEnv :=
  match env.scopes.pop? with
  | some scopes => .ok { env with scopes }
  | none => .error .globalScope

/-- Adds a function that was completed at a place, unless its name is taken. -/
def register (env : TaggedEnv) (f : Head) (pos : Pos) : Except Stop TaggedEnv :=
  match env.function? f.name with
  | some _ => .error (.error (.duplicateFunction f.name pos))
  | none => .ok { env with functions := env.functions ++ [f] }

end TaggedEnv

/-! ## §4. Sequences -/

/-- What a check comes to where accesses can fault: there is no fault, and an error is
    reported. -/
def reported {α β : Type} (view : α → β) : Except ParseError α → Except Stop β
  | .ok a => .ok (view a)
  | .error e => .error (.error e.report)

section
variable {α α' β β' : Type} {view : α → β} {view' : α' → β'}

/-- Sequences of checks go together check by check. -/
theorem bind_reported {r : Except ParseError α} {r' : Except Stop β}
    {k : α → Except ParseError α'} {k' : β → Except Stop β'} (h : r' = reported view r)
    (hk : ∀ a, r = .ok a → k' (view a) = reported view' (k a)) :
    r' >>= k' = reported view' (r >>= k) := by
  subst h
  cases r with
  | ok a => exact hk a rfl
  | error e => rfl

/-- What is found in the place of something else is reported as it is. -/
theorem misfound_eq {name : Bytes} (wanted : Wanted) {got : Got} {found : Except Fault Bytes}
    {pos : Pos} (h : found = .ok got.text) :
    misfound name wanted.text found (some pos)
      = reported view (.error (.mismatch name wanted got pos)) := by
  subst h
  rfl

/-- What does not pass a test is reported as it is. -/
theorem misfound_unless {p : Prop} [Decidable p] {name : Bytes} (wanted : Wanted) {got : Got}
    {found : Except Fault Bytes} {pos : Pos} (h : found = .ok got.text) :
    (if p then .ok () else misfound name wanted.text found (some pos))
      = reported id (if p then .ok () else .error (.mismatch name wanted got pos)) := by
  by_cases hp : p
  · rw [if_pos hp, if_pos hp]
    rfl
  · rw [if_neg hp, if_neg hp]
    exact misfound_eq wanted h

end

/-! ## §5. Requirements -/

namespace Expr

theorem ungrouped_tagged (e : Expr) : e.tagged.ungrouped = e.ungrouped.tagged := by
  induction e with
  | group p inner ih => rw [tagged, TaggedExpr.ungrouped, ungrouped, ih]
  | _ => simp only [tagged, TaggedExpr.ungrouped, ungrouped]

theorem length_taggedAll (es : List Expr) : (taggedAll es).length = es.length := by
  induction es with
  | nil => rfl
  | cons e rest ih => exact congrArg (· + 1) ih

/-- The type that was found for an expression goes with its text, if it is a literal. -/
theorem found_tagged {env : Env} {e : Expr} {t : Ty} (h : infer env e = .ok (some t)) :
    e.tagged.found t = .ok (e.got t).text := by
  cases e with
  | literal p v =>
    rw [infer_literal] at h
    obtain rfl := Option.some.inj (Except.ok.inj h)
    have hsource : v.tagged.source = .ok v.text := Tagged.source_tagged (.literal v)
    show (v.tagged.source >>= _) = _
    rw [hsource]
    cases v <;> rfl
  | _ => rw [tagged]; rfl

theorem infer_ungrouped (env : Env) (e : Expr) : infer env e.ungrouped = infer env e := by
  induction e with
  | group p inner ih => rw [ungrouped, infer_group, ih]
  | _ => rfl

variable {env : Env} {e : Expr} {t : Option Ty} (h : infer env e = .ok t)
include h

theorem require_tagged (ok : Ty → Bool) (wanted : Wanted) :
    e.tagged.require t ok wanted.text = reported id (e.require t ok wanted) := by
  cases t with
  | none => rfl
  | some t =>
    rw [TaggedExpr.require, require, e.pos_tagged]
    exact misfound_unless wanted (found_tagged h)

theorem requireBool_tagged :
    e.tagged.require t (· == .bool) (ascii "bool") = reported id (e.requireBool t) :=
  require_tagged h (· == .bool) (.type .bool)

theorem requireAgreement_tagged (left : Option Ty) :
    TaggedExpr.requireAgreement left t e.tagged
      = reported id (BinaryOp.requireAgreement left t e) := by
  cases t with
  | none => cases left <;> rfl
  | some r =>
    cases left with
    | none => rfl
    | some l =>
      rw [TaggedExpr.requireAgreement, BinaryOp.requireAgreement, e.pos_tagged]
      exact misfound_unless (.type l) (found_tagged h)

theorem requireOperand_tagged (op : BinaryOp) :
    TaggedExpr.requireOperand (.mark op.mark) e.tagged t = reported id (op.requireOperand e t) := by
  have hordered := require_tagged h Ty.isOrdered .ordered
  have hadded := require_tagged h Ty.isOrdered .numeric
  have hnumeric := require_tagged h Ty.isNumeric .numeric
  cases op with
  | add => exact hadded
  | sub | mul | div => exact hnumeric
  | eq | ne => rfl
  | gt | lt | ge | le => exact hordered

end Expr

/-! ## §6. Judgements -/

namespace Env

theorem typeOf_tagged (env : Env) (name : Bytes) (pos : Pos) :
    env.tagged.typeOf name pos = reported id (env.typeOf name pos) := by
  have hscopes : env.tagged.scopes = env.scopes := rfl
  unfold TaggedEnv.typeOf typeOf lookup?
  rw [hscopes]
  cases env.scopes.lookup? name <;> rfl

theorem function?_tagged (env : Env) (name : Bytes) :
    env.tagged.function? name = (env.function? name).map Signature.tagged :=
  List.find?_map

end Env

theorem elementType_tagged (pos : Pos) (t : Option Ty) :
    TaggedEnv.elementType pos t = reported id (elementType pos t) := by
  cases t with
  | none => rfl
  | some t =>
    cases t with
    | list elem => cases elem <;> rfl
    | _ => rfl

/-- Both judgements on an expression come to the same where its tokens are kept. -/
structure JudgedTagged (env : Env) (e : Expr) : Prop where
  infers : env.tagged.infer e.tagged = reported id (infer env e)
  checks : ∀ declared name pos,
    env.tagged.checkAgainst declared name pos e.tagged
      = reported id (checkAgainst env declared name pos e)

section
variable {env : Env} {es : List Expr} (h : ∀ e ∈ es, JudgedTagged env e)
include h

theorem inferIndices_tagged_of (pos : Pos) (t : Option Ty) :
    env.tagged.inferIndices pos t (Expr.taggedAll es)
      = reported id (inferIndices env pos t es) := by
  induction es generalizing t with
  | nil => rw [Expr.taggedAll, TaggedEnv.inferIndices, inferIndices]; rfl
  | cons e rest ih =>
    obtain ⟨hhead, htail⟩ := List.forall_mem_cons.mp h
    rw [Expr.taggedAll, TaggedEnv.inferIndices, inferIndices]
    apply bind_reported hhead.infers
    intro i hi
    apply bind_reported (Expr.require_tagged hi (· == .int) (.type .int))
    intro _ _
    exact bind_reported (elementType_tagged pos t) fun elem _ => ih htail elem

theorem inferElements_tagged_of (merged : Ty) :
    env.tagged.inferElements merged (Expr.taggedAll es)
      = reported id (inferElements env merged es) := by
  induction es generalizing merged with
  | nil => rw [Expr.taggedAll, TaggedEnv.inferElements, inferElements]; rfl
  | cons e rest ih =>
    obtain ⟨hhead, htail⟩ := List.forall_mem_cons.mp h
    rw [Expr.taggedAll, TaggedEnv.inferElements, inferElements]
    apply bind_reported hhead.infers
    intro t ht
    cases t with
    | none => exact ih htail merged
    | some t =>
      dsimp only [id]
      cases merged.merge? t with
      | some finer => exact ih htail finer
      | none =>
        dsimp only
        rw [e.pos_tagged]
        exact misfound_eq (.type merged) (Expr.found_tagged ht)

theorem inferEach_tagged_of :
    env.tagged.inferEach (Expr.taggedAll es) = reported id (inferEach env es) := by
  induction es with
  | nil => rw [Expr.taggedAll, TaggedEnv.inferEach, inferEach]; rfl
  | cons e rest ih =>
    obtain ⟨hhead, htail⟩ := List.forall_mem_cons.mp h
    rw [Expr.taggedAll, TaggedEnv.inferEach, inferEach]
    exact bind_reported hhead.infers fun _ _ => ih htail

theorem checkArgs_tagged_of (params : List Param) :
    env.tagged.checkArgs params (Expr.taggedAll es) = reported id (checkArgs env params es) := by
  induction es generalizing params with
  | nil => cases params <;> simp [TaggedEnv.checkArgs, checkArgs, Expr.taggedAll, reported]
  | cons e rest ih =>
    obtain ⟨hhead, htail⟩ := List.forall_mem_cons.mp h
    cases params with
    | nil => simp [TaggedEnv.checkArgs, checkArgs, Expr.taggedAll, reported]
    | cons p params =>
      rw [Expr.taggedAll, TaggedEnv.checkArgs, checkArgs, e.pos_tagged]
      exact bind_reported (hhead.checks p.type p.name e.pos) fun _ _ => ih htail params

theorem checkElements_tagged_of (declared : Ty) (name : Bytes) :
    env.tagged.checkElements declared name (Expr.taggedAll es)
      = reported id (checkElements env declared name es) := by
  induction es with
  | nil => rw [Expr.taggedAll, TaggedEnv.checkElements, checkElements]; rfl
  | cons e rest ih =>
    obtain ⟨hhead, htail⟩ := List.forall_mem_cons.mp h
    rw [Expr.taggedAll, TaggedEnv.checkElements, checkElements, e.pos_tagged]
    exact bind_reported (hhead.checks declared name e.pos) fun _ _ => ih htail

end

/-- A plain expression may stand where a type is declared if its own type is accepted
    there. -/
theorem checkAgainst_tagged_of_infer {env : TaggedEnv} {declared : Ty} {name : Bytes} {pos : Pos}
    {e : Expr} (he : e.isPlain = true) :
    env.checkAgainst declared name pos e.tagged = (env.infer e.tagged >>= fun t =>
      match t with
      | none => .ok ()
      | some t =>
        if declared.accepts t then .ok ()
        else misfound name (ascii declared.text) (e.tagged.found t) (some pos)) := by
  rw [TaggedEnv.checkAgainst.eq_def]
  cases e with
  | group p inner => cases he
  | list p elements => cases he
  | _ => rw [Expr.tagged]

/-- Of a plain expression it is enough to find the type. -/
theorem JudgedTagged.of_infer {env : Env} {e : Expr} (he : e.isPlain = true)
    (h : env.tagged.infer e.tagged = reported id (infer env e)) : JudgedTagged env e where
  infers := h
  checks declared name pos := by
    rw [checkAgainst_of_infer he, checkAgainst_tagged_of_infer he]
    apply bind_reported h
    intro t ht
    cases t with
    | none => rfl
    | some t => exact misfound_unless (.type declared) (Expr.found_tagged ht)

/-- Both judgements come to the same on an expression that keeps its tokens.  As a call
    checks its arguments, the two go together. -/
theorem judges_tagged (env : Env) (e : Expr) : JudgedTagged env e := by
  induction e with
  | literal p v =>
    refine .of_infer rfl ?_
    rw [Expr.tagged, infer_literal, TaggedEnv.infer, Tagged.literalType?_tagged]
    rfl
  | access p name indices ih =>
    refine .of_infer rfl ?_
    rw [Expr.tagged, infer, TaggedEnv.infer]
    exact bind_reported (env.typeOf_tagged name p) fun t _ =>
      inferIndices_tagged_of ih p (some t)
  | neg p e ih =>
    refine .of_infer rfl ?_
    rw [Expr.tagged, infer, TaggedEnv.infer]
    apply bind_reported ih.infers
    intro t ht
    exact bind_reported (Expr.require_tagged ht Ty.isNumeric .numeric) fun _ _ => rfl
  | binary p op l r ihl ihr =>
    refine .of_infer rfl ?_
    rw [Expr.tagged, infer, TaggedEnv.infer]
    apply bind_reported ihl.infers
    intro tl hl
    apply bind_reported ihr.infers
    intro tr hr
    apply bind_reported (Expr.requireAgreement_tagged hr tl)
    intro _ _
    apply bind_reported (Expr.requireOperand_tagged hl op)
    intro _ _
    exact bind_reported (Expr.requireOperand_tagged hr op) fun _ _ => rfl
  | logical p op l r ihl ihr =>
    refine .of_infer rfl ?_
    rw [Expr.tagged, infer, TaggedEnv.infer]
    apply bind_reported ihl.infers
    intro tl hl
    apply bind_reported (Expr.requireBool_tagged hl)
    intro _ _
    apply bind_reported ihr.infers
    intro tr hr
    exact bind_reported (Expr.requireBool_tagged hr) fun _ _ => rfl
  | group p inner ih =>
    refine ⟨?_, ?_⟩
    · rw [Expr.tagged, infer_group, TaggedEnv.infer, ih.infers]
    · intro declared name pos
      rw [Expr.tagged, checkAgainst, TaggedEnv.checkAgainst, ih.checks declared name pos]
  | list p elements ih =>
    refine ⟨?_, ?_⟩
    · rw [Expr.tagged, infer, TaggedEnv.infer]
      exact bind_reported (inferElements_tagged_of ih .any) fun _ _ => rfl
    · intro declared name pos
      rw [Expr.tagged, checkAgainst.eq_def, TaggedEnv.checkAgainst.eq_def]
      cases declared with
      | list elem => exact checkElements_tagged_of ih elem name
      -- under any other type the list is refused without a look at its elements
      | _ => rfl
  | call p name args ih =>
    refine .of_infer rfl ?_
    rw [Expr.tagged, infer, TaggedEnv.infer, env.function?_tagged]
    cases env.function? name with
    -- the arguments of an unknown function are judged all the same
    | none => exact bind_reported (inferEach_tagged_of ih) fun _ _ => rfl
    | some f =>
      have hparams : f.tagged.params = f.params := rfl
      dsimp only [Option.map_some]
      rw [Expr.length_taggedAll, hparams]
      split
      · exact bind_reported (checkArgs_tagged_of ih f.params) fun _ _ => rfl
      · rfl
  | method p name indices m args ihi iha =>
    refine .of_infer rfl ?_
    rw [Expr.tagged, infer, TaggedEnv.infer]
    apply bind_reported (env.typeOf_tagged name p)
    intro t _
    apply bind_reported (inferIndices_tagged_of ihi p (some t))
    intro _ _
    exact bind_reported (inferEach_tagged_of iha) fun _ _ => rfl

/-! ## §7. Constants -/

namespace Expr

theorem constants?_tagged_of {es : List Expr}
    (h : ∀ e ∈ es, e.tagged.constant = .ok e.constant) :
    TaggedExpr.constants? (taggedAll es) = .ok (constants? es) := by
  induction es with
  | nil => rfl
  | cons e rest ih =>
    obtain ⟨hhead, htail⟩ := List.forall_mem_cons.mp h
    rw [taggedAll, TaggedExpr.constants?, constants?, hhead, ih htail]
    cases e.constant <;> rfl

/-- The value of a constant is found without a fault. -/
theorem constant_tagged (e : Expr) : e.tagged.constant = .ok e.constant := by
  induction e with
  | literal p v =>
    rw [tagged, TaggedExpr.constant, constant]
    exact Tagged.value_tagged (.literal v)
  | neg p e ih =>
    rw [tagged, TaggedExpr.constant, constant, ih]
    cases e.constant <;> rfl
  | group p inner ih => rw [tagged, TaggedExpr.constant, constant, ih]
  | list p elements ih =>
    rw [tagged, TaggedExpr.constant, constant, constants?_tagged_of ih]
    cases constants? elements <;> rfl
  | _ => simp only [tagged, TaggedExpr.constant, constant]

end Expr

/-! ## §8. Checks of statements, and changes -/

namespace Env

variable (env : Env)

theorem infer_tagged (e : Expr) : env.tagged.infer e.tagged = reported id (infer env e) :=
  (judges_tagged env e).infers

theorem checkType_tagged (declared : Ty) (e : Expr) (name : Bytes) :
    env.tagged.checkType declared e.tagged name = reported id (checkType env declared e name) := by
  unfold TaggedEnv.checkType checkType
  rw [e.pos_tagged]
  exact (judges_tagged env e).checks declared name e.pos

theorem checkTruth_tagged (cond : Expr) :
    env.tagged.checkTruth cond.tagged = reported id (env.checkTruth cond) := by
  unfold TaggedEnv.checkTruth checkTruth
  apply bind_reported (env.infer_tagged cond)
  intro t ht
  cases t with
  | none => rfl
  | some t =>
    dsimp only [id]
    rw [cond.ungrouped_tagged, cond.pos_tagged]
    -- parentheses do not change the type
    exact misfound_unless (.type .bool)
      (Expr.found_tagged ((Expr.infer_ungrouped env cond).trans ht))

theorem checkBounds_tagged (var : Bytes) (start stop : Expr) :
    env.tagged.checkBounds var start.tagged stop.tagged
      = reported id (env.checkBounds var start stop) := by
  unfold TaggedEnv.checkBounds checkBounds
  exact bind_reported (env.checkType_tagged .int start var) fun _ _ =>
    env.checkType_tagged .int stop var

theorem declare_tagged (name : Bytes) (type : Ty) (value : Value) :
    env.tagged.declare name type value = reported tagged (env.declare name type value) := by
  unfold TaggedEnv.declare declare
  cases value.misfit? type with
  | none => rfl
  | some m =>
    dsimp only
    rw [Value.naming_eq]
    rfl

theorem declareAll_tagged (locals : List Param) :
    env.tagged.declareAll locals = reported tagged (env.declareAll locals) := by
  unfold TaggedEnv.declareAll declareAll
  induction locals generalizing env with
  | nil => rfl
  | cons p rest ih =>
    rw [List.foldlM_cons, List.foldlM_cons]
    exact bind_reported (env.declare_tagged p.name p.type .unknown) fun env _ => ih env

theorem assign_tagged (name : Bytes) (value : Value) (pos : Option Pos) :
    env.tagged.assign name value pos = reported tagged (env.assign name value pos) := by
  have hscopes : env.tagged.scopes = env.scopes := rfl
  unfold TaggedEnv.assign assign ScopeStack.assign
  rw [hscopes]
  cases env.scopes.lookup? name with
  | none => rfl
  | some b =>
    dsimp only
    cases value.misfit? b.type with
    | none => rfl
    | some m =>
      dsimp only
      rw [Value.naming_eq]
      rfl

theorem store_tagged (pos : Pos) (name : Bytes) (indices : List Expr) (value : Expr) :
    env.tagged.store pos name (Expr.taggedAll indices) value.tagged
      = reported tagged (env.store pos name indices value) := by
  unfold TaggedEnv.store store
  apply bind_reported (env.typeOf_tagged name pos)
  intro declared _
  cases indices with
  | nil =>
    dsimp only [Expr.taggedAll, id]
    rw [value.constant_tagged]
    exact bind_reported (env.checkType_tagged declared value name) fun _ _ =>
      env.assign_tagged name value.constant (some pos)
  | cons index rest =>
    rw [Expr.taggedAll]
    dsimp only
    rw [← Expr.taggedAll]
    apply bind_reported
      (inferIndices_tagged_of (fun e _ => judges_tagged env e) pos (some declared))
    intro elem _
    cases elem with
    | some elem =>
      exact bind_reported (env.checkType_tagged elem value name) fun _ _ =>
        env.assign_tagged name .unknown (some pos)
    | none =>
      exact bind_reported (env.infer_tagged value) fun _ _ =>
        env.assign_tagged name .unknown (some pos)

theorem register_tagged (f : Signature) (pos : Pos) :
    env.tagged.register f.tagged pos = reported tagged (env.register f pos) := by
  have hname : f.tagged.name = f.name := rfl
  unfold TaggedEnv.register register
  rw [hname, function?_tagged]
  cases env.function? f.name with
  | some g => rfl
  | none => simp [reported, tagged, List.map_append]

end Env

end Lumen
