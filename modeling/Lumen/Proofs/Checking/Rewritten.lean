/-
  Lumen.Proofs.Checking.Rewritten — judging rewritten expressions.

  Expressions may be rewritten from the inside out: without their places, say, or without
  parentheses.  Of an expression a judgement sees its form, the judgements on its parts, and
  for an error the place and the text of a literal.  Of an environment it sees the types of
  names and the parameters of functions.  So both judgements on a rewritten expression, in an
  environment that may be another, are related to those on the expression itself, by any
  relation of results that sequences of checks keep and that holds of the errors of single
  checks.

  Main statements:
    * `Rewriting` — how expressions are rewritten, with `Rewriting.constant`;
    * `JudgementCongruence` — a relation of results, for two environments;
    * `judges_congr` — both judgements on an expression;
    * `infer_congr` … `checkBounds_congr` — the checks of statements;
    * `store_congr` — an assignment.
-/
import Lumen.Proofs.Checking.Judged

namespace Lumen

/-! ## §1. Rewriting -/

/-- Expressions are rewritten by `g` from the inside out.  A place is moved, and parentheses
    may be dropped. -/
structure Rewriting (g : Expr → Expr) (move : Pos → Pos) : Prop where
  pos : ∀ e, (g e).pos = move e.pos
  literal : ∀ p v, g (.literal p v) = .literal (move p) v
  access : ∀ p name indices, g (.access p name indices) = .access (move p) name (indices.map g)
  neg : ∀ p e, g (.neg p e) = .neg (move p) (g e)
  binary : ∀ p op l r, g (.binary p op l r) = .binary (move p) op (g l) (g r)
  logical : ∀ p op l r, g (.logical p op l r) = .logical (move p) op (g l) (g r)
  group : ∀ p e, g (.group p e) = g e ∨ g (.group p e) = .group (move p) (g e)
  list : ∀ p elements, g (.list p elements) = .list (move p) (elements.map g)
  call : ∀ p name args, g (.call p name args) = .call (move p) name (args.map g)
  method : ∀ p name indices m args,
    g (.method p name indices m args) = .method (move p) name (indices.map g) m (args.map g)

/-- Expressions may be left as they are. -/
theorem rewriting_id : Rewriting id id where
  pos _ := rfl
  literal _ _ := rfl
  access _ _ _ := by rw [List.map_id]; rfl
  neg _ _ := rfl
  binary _ _ _ _ := rfl
  logical _ _ _ _ := rfl
  group _ _ := .inr rfl
  list _ _ := by rw [List.map_id]; rfl
  call _ _ _ := by rw [List.map_id]; rfl
  method _ _ _ _ _ := by rw [List.map_id, List.map_id]; rfl

namespace Rewriting
variable {g : Expr → Expr} {move : Pos → Pos} (h : Rewriting g move)
include h

theorem isPlain {e : Expr} (he : e.isPlain = true) : (g e).isPlain = true := by
  cases e with
  | literal p v => rw [h.literal]; rfl
  | access p name indices => rw [h.access]; rfl
  | neg p e => rw [h.neg]; rfl
  | binary p op l r => rw [h.binary]; rfl
  | logical p op l r => rw [h.logical]; rfl
  | group p inner => cases he
  | list p elements => cases he
  | call p name args => rw [h.call]; rfl
  | method p name indices m args => rw [h.method]; rfl

/-- Under its parentheses an expression is found as it was, for its form is the same. -/
theorem got_ungrouped (e : Expr) (t : Ty) : (g e).ungrouped.got t = e.ungrouped.got t := by
  induction e with
  | literal p v => rw [h.literal]; rfl
  | access p name indices => rw [h.access]; rfl
  | neg p e => rw [h.neg]; rfl
  | binary p op l r => rw [h.binary]; rfl
  | logical p op l r => rw [h.logical]; rfl
  | group p inner ih =>
    rcases h.group p inner with hsame | hsame
    · rw [hsame, Expr.ungrouped, ih]
    · rw [hsame, Expr.ungrouped, Expr.ungrouped, ih]
  | list p elements => rw [h.list]; rfl
  | call p name args => rw [h.call]; rfl
  | method p name indices m args => rw [h.method]; rfl

omit h in
theorem constants?_of {es : List Expr} (hes : ∀ e ∈ es, (g e).constant = e.constant) :
    constants? (es.map g) = constants? es := by
  induction es with
  | nil => rfl
  | cons e rest ih =>
    obtain ⟨hhead, htail⟩ := List.forall_mem_cons.mp hes
    rw [List.map_cons, constants?, constants?, hhead, ih htail]

/-- Neither places nor parentheses are part of a constant. -/
theorem constant (e : Expr) : (g e).constant = e.constant := by
  induction e with
  | literal p v => rw [h.literal, Expr.constant, Expr.constant]
  | access p name indices => simp only [h.access, Expr.constant]
  | neg p e ih => rw [h.neg, Expr.constant, Expr.constant, ih]
  | binary p op l r => simp only [h.binary, Expr.constant]
  | logical p op l r => simp only [h.logical, Expr.constant]
  | group p inner ih =>
    rcases h.group p inner with hsame | hsame
    · rw [hsame, constant_group, ih]
    · rw [hsame, constant_group, constant_group, ih]
  | list p elements ih => rw [h.list, Expr.constant, Expr.constant, constants?_of ih]
  | call p name args => simp only [h.call, Expr.constant]
  | method p name indices m args => simp only [h.method, Expr.constant]

end Rewriting

/-! ## §2. Relations of results -/

/-- The name and the parameters of a function: all that a call sees of it. -/
def Signature.shape (f : Signature) : Bytes × List Param := (f.name, f.params)

/-- A relation between results of checks: of those in `a` on expressions, and those in `b` on
    the expressions rewritten. -/
structure JudgementCongruence (a b : Env) (g : Expr → Expr) (move : Pos → Pos)
    (R : (α : Type) → Except ParseError α → Except ParseError α → Prop) : Prop
    extends Rewriting g move where
  ofOk : ∀ {α : Type} (x : α), R α (.ok x) (.ok x)
  ofBind : ∀ {α β : Type} {r r' : Except ParseError α} {k k' : α → Except ParseError β},
    R α r r' → (∀ x, R β (k x) (k' x)) → R β (r >>= k) (r' >>= k')
  /-- What is found in place of a wanted type may be the type of an expression, or a literal. -/
  ofGot : ∀ {α : Type} (name : Bytes) (wanted : Wanted) (e : Expr) (t : Ty) (pos : Pos),
    R α (.error (.mismatch name wanted (e.got t) pos))
      (.error (.mismatch name wanted ((g e).got t) (move pos)))
  ofMismatch : ∀ {α : Type} (name : Bytes) (wanted : Wanted) (got : Got) (pos : Pos),
    R α (.error (.mismatch name wanted got pos)) (.error (.mismatch name wanted got (move pos)))
  ofArity : ∀ {α : Type} (name : Bytes) (expected found : Nat) (pos : Pos),
    R α (.error (.arity name expected found pos)) (.error (.arity name expected found (move pos)))
  ofTypeOf : ∀ name pos, R Ty (a.typeOf name pos) (b.typeOf name (move pos))
  shapes : ∀ name,
    (a.function? name).map Signature.shape = (b.function? name).map Signature.shape

/-! ## §3. Requirements -/

section
variable {a b : Env} {g : Expr → Expr} {move : Pos → Pos}
  {R : (α : Type) → Except ParseError α → Except ParseError α → Prop}
  (h : JudgementCongruence a b g move R)
include h

theorem require_congr (e : Expr) (t : Option Ty) (ok : Ty → Bool) (wanted : Wanted) :
    R Unit (e.require t ok wanted) ((g e).require t ok wanted) := by
  cases t with
  | none => exact h.ofOk ()
  | some t =>
    simp only [Expr.require, h.pos]
    split
    · exact h.ofOk ()
    · exact h.ofGot _ _ _ _ _

theorem requireOperand_congr (op : BinaryOp) (e : Expr) (t : Option Ty) :
    R Unit (op.requireOperand e t) (op.requireOperand (g e) t) := by
  unfold BinaryOp.requireOperand
  split
  · exact require_congr h e t _ _
  · split
    · exact h.ofOk ()
    · split
      · exact require_congr h e t _ _
      · exact require_congr h e t _ _

theorem requireAgreement_congr (left right : Option Ty) (rhs : Expr) :
    R Unit (BinaryOp.requireAgreement left right rhs)
      (BinaryOp.requireAgreement left right (g rhs)) := by
  unfold BinaryOp.requireAgreement
  split
  · rw [h.pos]
    split
    · exact h.ofOk ()
    · exact h.ofGot _ _ _ _ _
  · exact h.ofOk ()

theorem elementType_congr (pos : Pos) (t : Option Ty) :
    R (Option Ty) (elementType pos t) (elementType (move pos) t) := by
  unfold elementType
  split
  · exact h.ofOk none
  · exact h.ofOk none
  · exact h.ofOk _
  · exact h.ofMismatch _ _ _ _

end

/-! ## §4. Judgements -/

/-- Both judgements on an expression are related to those on the rewritten one. -/
structure JudgedAlike (a b : Env) (g : Expr → Expr) (move : Pos → Pos)
    (R : (α : Type) → Except ParseError α → Except ParseError α → Prop) (e : Expr) : Prop where
  infers : R (Option Ty) (infer a e) (infer b (g e))
  checks : ∀ declared name pos,
    R Unit (checkAgainst a declared name pos e) (checkAgainst b declared name (move pos) (g e))

section
variable {a b : Env} {g : Expr → Expr} {move : Pos → Pos}
  {R : (α : Type) → Except ParseError α → Except ParseError α → Prop}
  (h : JudgementCongruence a b g move R)
include h

section
variable {es : List Expr} (hes : ∀ e ∈ es, JudgedAlike a b g move R e)
include hes

theorem inferIndices_congr_of (pos : Pos) (t : Option Ty) :
    R (Option Ty) (inferIndices a pos t es) (inferIndices b (move pos) t (es.map g)) := by
  induction es generalizing t with
  | nil =>
    rw [List.map_nil, inferIndices, inferIndices]
    exact h.ofOk t
  | cons e rest ih =>
    obtain ⟨hhead, htail⟩ := List.forall_mem_cons.mp hes
    rw [List.map_cons, inferIndices, inferIndices]
    apply h.ofBind hhead.infers
    intro i
    apply h.ofBind (require_congr h e i _ _)
    intro _
    exact h.ofBind (elementType_congr h pos t) fun elem => ih htail elem

theorem inferElements_congr_of (merged : Ty) :
    R Ty (inferElements a merged es) (inferElements b merged (es.map g)) := by
  induction es generalizing merged with
  | nil =>
    rw [List.map_nil, inferElements, inferElements]
    exact h.ofOk merged
  | cons e rest ih =>
    obtain ⟨hhead, htail⟩ := List.forall_mem_cons.mp hes
    rw [List.map_cons, inferElements, inferElements]
    apply h.ofBind hhead.infers
    intro t
    cases t with
    | none => exact ih htail merged
    | some t =>
      dsimp only
      cases merged.merge? t with
      | some finer => exact ih htail finer
      | none =>
        dsimp only
        rw [h.pos]
        exact h.ofGot _ _ _ _ _

theorem inferEach_congr_of : R Unit (inferEach a es) (inferEach b (es.map g)) := by
  induction es with
  | nil =>
    rw [List.map_nil, inferEach, inferEach]
    exact h.ofOk ()
  | cons e rest ih =>
    obtain ⟨hhead, htail⟩ := List.forall_mem_cons.mp hes
    rw [List.map_cons, inferEach, inferEach]
    exact h.ofBind hhead.infers fun _ => ih htail

theorem checkArgs_congr_of (params : List Param) :
    R Unit (checkArgs a params es) (checkArgs b params (es.map g)) := by
  induction es generalizing params with
  | nil => cases params <;> simpa [checkArgs] using h.ofOk ()
  | cons e rest ih =>
    obtain ⟨hhead, htail⟩ := List.forall_mem_cons.mp hes
    cases params with
    | nil => simpa [checkArgs] using h.ofOk ()
    | cons p params =>
      rw [List.map_cons, checkArgs, checkArgs, h.pos]
      exact h.ofBind (hhead.checks p.type p.name e.pos) fun _ => ih htail params

theorem checkElements_congr_of (declared : Ty) (name : Bytes) :
    R Unit (checkElements a declared name es) (checkElements b declared name (es.map g)) := by
  induction es with
  | nil =>
    rw [List.map_nil, checkElements, checkElements]
    exact h.ofOk ()
  | cons e rest ih =>
    obtain ⟨hhead, htail⟩ := List.forall_mem_cons.mp hes
    rw [List.map_cons, checkElements, checkElements, h.pos]
    exact h.ofBind (hhead.checks declared name e.pos) fun _ => ih htail

end

/-- Of a plain expression the type is all that matters. -/
theorem JudgedAlike.of_infer {e : Expr} (he : e.isPlain = true)
    (hinfer : R (Option Ty) (infer a e) (infer b (g e))) : JudgedAlike a b g move R e where
  infers := hinfer
  checks declared name pos := by
    rw [checkAgainst_of_infer he, checkAgainst_of_infer (h.isPlain he)]
    apply h.ofBind hinfer
    intro t
    cases t with
    | none => exact h.ofOk ()
    | some t =>
      dsimp only
      split
      · exact h.ofOk ()
      · exact h.ofGot _ _ _ _ _

/-- By induction on the expression.  As a call checks its arguments, the two judgements go
    together. -/
theorem judges_congr (e : Expr) : JudgedAlike a b g move R e := by
  induction e with
  | literal p v =>
    refine .of_infer h rfl ?_
    rw [h.literal, infer_literal, infer_literal]
    exact h.ofOk _
  | access p name indices ih =>
    refine .of_infer h rfl ?_
    rw [h.access, infer, infer]
    exact h.ofBind (h.ofTypeOf name p) fun t => inferIndices_congr_of h ih p (some t)
  | neg p e ih =>
    refine .of_infer h rfl ?_
    rw [h.neg, infer, infer]
    apply h.ofBind ih.infers
    intro t
    exact h.ofBind (require_congr h e t _ _) fun _ => h.ofOk t
  | binary p op l r ihl ihr =>
    refine .of_infer h rfl ?_
    rw [h.binary, infer, infer]
    apply h.ofBind ihl.infers
    intro tl
    apply h.ofBind ihr.infers
    intro tr
    -- only once both types are known are they compared
    apply h.ofBind (requireAgreement_congr h tl tr r)
    intro _
    apply h.ofBind (requireOperand_congr h op l tl)
    intro _
    exact h.ofBind (requireOperand_congr h op r tr) fun _ => h.ofOk _
  | logical p op l r ihl ihr =>
    refine .of_infer h rfl ?_
    rw [h.logical, infer, infer]
    apply h.ofBind ihl.infers
    intro tl
    apply h.ofBind (require_congr h l tl _ _)
    intro _
    apply h.ofBind ihr.infers
    intro tr
    exact h.ofBind (require_congr h r tr _ _) fun _ => h.ofOk _
  | group p inner ih =>
    -- dropped or not, the parentheses are looked through
    have hinfer : infer b (g (.group p inner)) = infer b (g inner) := by
      rcases h.group p inner with hsame | hsame
      · rw [hsame]
      · rw [hsame, infer_group]
    have hcheck : ∀ declared name pos, checkAgainst b declared name pos (g (.group p inner))
        = checkAgainst b declared name pos (g inner) := by
      intro declared name pos
      rcases h.group p inner with hsame | hsame
      · rw [hsame]
      · rw [hsame, checkAgainst]
    refine ⟨?_, fun declared name pos => ?_⟩
    · rw [infer_group, hinfer]
      exact ih.infers
    · rw [checkAgainst, hcheck]
      exact ih.checks declared name pos
  | list p elements ih =>
    refine ⟨?_, fun declared name pos => ?_⟩
    · rw [h.list, infer, infer]
      exact h.ofBind (inferElements_congr_of h ih .any) fun _ => h.ofOk _
    · rw [h.list, checkAgainst.eq_def, checkAgainst.eq_def b]
      cases declared with
      | list elem => exact checkElements_congr_of h ih elem name
      -- under any other type the list is refused without a look at its elements
      | _ => exact h.ofMismatch _ _ _ _
  | call p name args ih =>
    refine .of_infer h rfl ?_
    rw [h.call, infer, infer]
    have hshapes := h.shapes name
    cases hf : a.function? name with
    -- the arguments of an unknown function are judged all the same
    | none =>
      rw [hf] at hshapes
      rw [Option.map_eq_none_iff.mp hshapes.symm]
      exact h.ofBind (inferEach_congr_of h ih) fun _ => h.ofOk none
    | some f =>
      rw [hf] at hshapes
      obtain ⟨f', hf', hshape⟩ := Option.map_eq_some_iff.mp hshapes.symm
      obtain ⟨hname, hparams⟩ := Prod.mk.inj hshape
      rw [hf']
      dsimp only
      rw [List.length_map, hname, hparams]
      split
      · exact h.ofBind (checkArgs_congr_of h ih f.params) fun _ => h.ofOk none
      · exact h.ofArity _ _ _ _
  | method p name indices m args ihi iha =>
    refine .of_infer h rfl ?_
    rw [h.method, infer, infer]
    apply h.ofBind (h.ofTypeOf name p)
    intro t
    apply h.ofBind (inferIndices_congr_of h ihi p (some t))
    intro _
    exact h.ofBind (inferEach_congr_of h iha) fun _ => h.ofOk none

/-! ## §5. Checks of statements -/

theorem infer_congr (e : Expr) : R (Option Ty) (infer a e) (infer b (g e)) :=
  (judges_congr h e).infers

theorem inferIndices_congr (pos : Pos) (t : Option Ty) (indices : List Expr) :
    R (Option Ty) (inferIndices a pos t indices) (inferIndices b (move pos) t (indices.map g)) :=
  inferIndices_congr_of h (fun e _ => judges_congr h e) pos t

theorem checkType_congr (declared : Ty) (e : Expr) (name : Bytes) :
    R Unit (checkType a declared e name) (checkType b declared (g e) name) := by
  unfold checkType
  rw [h.pos]
  exact (judges_congr h e).checks declared name e.pos

/-- A condition that is no truth value is reported without its parentheses. -/
theorem checkTruth_congr (cond : Expr) : R Unit (a.checkTruth cond) (b.checkTruth (g cond)) := by
  unfold Env.checkTruth
  apply h.ofBind (infer_congr h cond)
  intro t
  cases t with
  | none => exact h.ofOk ()
  | some t =>
    dsimp only
    split
    · exact h.ofOk ()
    · rw [h.got_ungrouped, h.pos]
      exact h.ofMismatch _ _ _ _

theorem checkBounds_congr (var : Bytes) (start stop : Expr) :
    R Unit (a.checkBounds var start stop) (b.checkBounds var (g start) (g stop)) := by
  unfold Env.checkBounds
  exact h.ofBind (checkType_congr h .int start var) fun _ => checkType_congr h .int stop var

/-- A store ends with an assignment, the results of which may be related in another way. -/
theorem store_congr {S : Except ParseError Env → Except ParseError Env → Prop}
    (hbind : ∀ {α : Type} {r r' : Except ParseError α} {k k' : α → Except ParseError Env},
      R α r r' → (∀ x, S (k x) (k' x)) → S (r >>= k) (r' >>= k'))
    {pos : Pos} {name : Bytes}
    (hassign : ∀ v, S (a.assign name v (some pos)) (b.assign name v (some (move pos))))
    (indices : List Expr) (value : Expr) :
    S (a.store pos name indices value) (b.store (move pos) name (indices.map g) (g value)) := by
  unfold Env.store
  apply hbind (h.ofTypeOf name pos)
  intro declared
  cases indices with
  -- only a store without indices says what the value is
  | nil =>
    dsimp only [List.map_nil]
    rw [h.constant value]
    exact hbind (checkType_congr h declared value name) fun _ => hassign _
  | cons index rest =>
    dsimp only [List.map_cons]
    apply hbind (inferIndices_congr h pos (some declared) (index :: rest))
    intro elem
    cases elem with
    | some elem => exact hbind (checkType_congr h elem value name) fun _ => hassign _
    | none => exact hbind (infer_congr h value) fun _ => hassign _

end

end Lumen
