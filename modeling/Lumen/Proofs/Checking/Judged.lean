/-
  Lumen.Proofs.Checking.Judged — what the two judgements on expressions ask.

  Both judgements walk over a whole expression.  They look up the variables
  that are used in it, compare types, and count arguments.  So three things
  decide what comes out: what the look-up of each use gives, which errors count
  as expected at the places in the expression, and nothing else.

  The law is stated for any property `U` of uses and any class `E` of errors.
  If the look-up of every use gives `U` or an error in `E`, and a mismatch or a
  wrong number of arguments at any part of the expression is in `E`, then a
  judgement gives `U` for all uses or an error in `E`.

  Main statements:
    * `Gives.bind` — a result, step by step;
    * `inferIndices_judged` … `checkElements_gives` — judgements on lists;
    * `Judged.access` … `Judged.method` — both judgements on each form of expression;
    * `judged` — both judgements on any expression;
    * `checkTruth_judged` / `checkBounds_judged` — conditions and bounds.
-/
import Lumen.Check
import Lumen.Proofs.Scoping.Visible

namespace Lumen

/-! ## §1. Results -/

section
variable {ε ε' α β : Type} {r : Except ε α} {Q Q' : α → Prop} {E E' : ε → Prop}

/-- A result is a value in `Q` or an error in `E`. -/
def Gives (r : Except ε α) (Q : α → Prop) (E : ε → Prop) : Prop :=
  match r with
  | .ok a => Q a
  | .error e => E e

@[simp] theorem gives_ok (a : α) : Gives (.ok a) Q E ↔ Q a := Iff.rfl

@[simp] theorem gives_error (e : ε) : Gives (.error e) Q E ↔ E e := Iff.rfl

theorem Gives.of_ok (h : Gives r Q E) {a : α} (hr : r = .ok a) : Q a := by
  rw [hr] at h
  exact h

theorem Gives.of_error (h : Gives r Q E) {e : ε} (hr : r = .error e) : E e := by
  rw [hr] at h
  exact h

theorem Gives.exists_ok (h : Gives r Q fun _ => False) : ∃ a, r = .ok a ∧ Q a := by
  cases r with
  | ok a => exact ⟨a, rfl, h⟩
  | error e => exact h.elim

instance decidableGives [∀ a, Decidable (Q a)] [∀ e, Decidable (E e)] : Decidable (Gives r Q E) :=
  match r with
  | .ok a => inferInstanceAs (Decidable (Q a))
  | .error e => inferInstanceAs (Decidable (E e))

theorem Gives.mono (h : Gives r Q E) (hQ : ∀ a, Q a → Q' a) (hE : ∀ e, E e → E' e) :
    Gives r Q' E' := by
  cases r with
  | ok a => exact hQ a h
  | error e => exact hE e h

theorem Gives.weaken (h : Gives r Q E) (hQ : ∀ a, Q a → Q' a) : Gives r Q' E :=
  h.mono hQ fun _ he => he

theorem gives_trivial (r : Except ε α) : Gives r (fun _ => True) fun _ => True := by
  cases r <;> trivial

/-- What does not fail fails for no reason at all. -/
theorem Gives.certain (h : Gives r Q fun _ => False) : Gives r Q E :=
  h.mono (fun _ hq => hq) fun _ hfalse => hfalse.elim

/-- A result after another one. -/
theorem Gives.bind {Q' : β → Prop} {k : α → Except ε β} (h : Gives r Q E)
    (hk : ∀ a, Q a → Gives (k a) Q' E) : Gives (r >>= k) Q' E := by
  cases r with
  | ok a => exact hk a h
  | error e => exact h

theorem gives_orFail {r : Except ParseError α} {E : Failure → Prop} :
    Gives (orFail r) Q E ↔ Gives r Q fun e => E (.error e) := by
  cases r <;> exact Iff.rfl

end

/-! ## §2. Requirements

A requirement that is not met is a mismatch. -/

/-- Whether all that the types can object to at a place is in a class of errors. -/
structure Blames (E : ParseError → Prop) (pos : Pos) : Prop where
  mismatch : ∀ name wanted got, E (.mismatch name wanted got pos)
  arity : ∀ name expected found, E (.arity name expected found pos)

section
variable {E : ParseError → Prop}

theorem Expr.require_gives {e : Expr} (h : ∀ name wanted got, E (.mismatch name wanted got e.pos))
    (t : Option Ty) (ok : Ty → Bool) (wanted : Wanted) :
    Gives (e.require t ok wanted) (fun _ => ∀ u, t = some u → ok u = true) E := by
  unfold Expr.require
  split
  · intro u hu
    cases hu
  · next t =>
    split
    · next hok =>
      intro u hu
      cases hu
      exact hok
    · exact h _ _ _

theorem elementType_gives {pos : Pos} (h : ∀ name wanted got, E (.mismatch name wanted got pos))
    (t : Option Ty) :
    Gives (elementType pos t) (fun _ => True) E := by
  unfold elementType
  split <;> first | exact trivial | exact h _ _ _

theorem BinaryOp.requireOperand_gives (op : BinaryOp) {e : Expr}
    (h : ∀ name wanted got, E (.mismatch name wanted got e.pos)) (t : Option Ty) :
    Gives (op.requireOperand e t) (fun _ => True) E := by
  have hrequire : ∀ ok wanted, Gives (e.require t ok wanted) (fun _ => True) E :=
    fun ok wanted => (Expr.require_gives h t ok wanted).weaken fun _ _ => trivial
  unfold BinaryOp.requireOperand
  split
  · exact hrequire _ _
  split
  · exact trivial
  split <;> exact hrequire _ _

theorem BinaryOp.requireAgreement_gives {rhs : Expr}
    (h : ∀ name wanted got, E (.mismatch name wanted got rhs.pos)) (left right : Option Ty) :
    Gives (BinaryOp.requireAgreement left right rhs) (fun _ => True) E := by
  unfold BinaryOp.requireAgreement
  split
  · split <;> first | exact trivial | exact h _ _ _
  · exact trivial

theorem Env.typeOf_gives (env : Env) (name : Bytes) (pos : Pos)
    (h : env.lookup? name = none → E (.undeclared name pos)) :
    Gives (env.typeOf name pos) (fun t => ∃ b, env.lookup? name = some b ∧ b.type = t) E := by
  unfold Env.typeOf
  split
  · next b hb => exact ⟨b, hb, rfl⟩
  · next hnone => exact h hnone

end

/-! ## §3. Judgements on lists

A judgement on a list gives for every member what it gives for one. -/

/-- Whether no more is asked of an expression than its type, wherever it stands.
    Parentheses are looked through, and so are list literals where a list is
    declared. -/
def Expr.isPlain : Expr → Bool
  | group _ _ | list _ _ => false
  | _ => true

/-- Both judgements on an expression give `U` for all uses in it, or an error in
    `E`. -/
structure Judged (env : Env) (U : Use → Prop) (E : ParseError → Prop) (e : Expr) : Prop where
  blames : Blames E e.pos
  infers : Gives (infer env e) (fun _ => ∀ u ∈ e.uses, U u) E
  checks : ∀ declared name pos, Blames E pos →
    Gives (checkAgainst env declared name pos e) (fun _ => ∀ u ∈ e.uses, U u) E

section
variable {env : Env} {U : Use → Prop} {E : ParseError → Prop} {es : List Expr}

theorem inferIndices_judged {pos : Pos} (hpos : Blames E pos) {t : Option Ty}
    (h : ∀ e ∈ es, Judged env U E e) :
    Gives (inferIndices env pos t es) (fun _ => ∀ u ∈ Expr.usesOf es, U u) E := by
  induction es generalizing t with
  | nil =>
    rw [inferIndices]
    exact List.forall_mem_nil U
  | cons e rest ih =>
    obtain ⟨hhead, htail⟩ := List.forall_mem_cons.mp h
    rw [inferIndices]
    apply hhead.infers.bind
    intro i huses
    apply (Expr.require_gives hhead.blames.mismatch i _ _).bind
    intro _ _
    apply (elementType_gives hpos.mismatch t).bind
    intro elem _
    apply (ih htail).weaken
    intro _ hrest
    exact List.forall_mem_append.mpr ⟨huses, hrest⟩

theorem inferElements_judged {merged : Ty} (h : ∀ e ∈ es, Judged env U E e) :
    Gives (inferElements env merged es) (fun _ => ∀ u ∈ Expr.usesOf es, U u) E := by
  induction es generalizing merged with
  | nil =>
    rw [inferElements]
    exact List.forall_mem_nil U
  | cons e rest ih =>
    obtain ⟨hhead, htail⟩ := List.forall_mem_cons.mp h
    rw [inferElements]
    apply hhead.infers.bind
    intro t huses
    -- the type of the list so far may become another one, but the uses are the same
    have hrest : ∀ merged, Gives (inferElements env merged rest)
        (fun _ => ∀ u ∈ Expr.usesOf (e :: rest), U u) E := by
      intro merged
      apply (ih htail).weaken
      intro _ hrest
      exact List.forall_mem_append.mpr ⟨huses, hrest⟩
    split
    · exact hrest _
    · split
      · exact hrest _
      · exact hhead.blames.mismatch _ _ _

theorem inferEach_judged (h : ∀ e ∈ es, Judged env U E e) :
    Gives (inferEach env es) (fun _ => ∀ u ∈ Expr.usesOf es, U u) E := by
  induction es with
  | nil =>
    rw [inferEach]
    exact List.forall_mem_nil U
  | cons e rest ih =>
    obtain ⟨hhead, htail⟩ := List.forall_mem_cons.mp h
    rw [inferEach]
    apply hhead.infers.bind
    intro _ huses
    apply (ih htail).weaken
    intro _ hrest
    exact List.forall_mem_append.mpr ⟨huses, hrest⟩

theorem checkArgs_judged {params : List Param} (hlen : params.length = es.length)
    (h : ∀ e ∈ es, Judged env U E e) :
    Gives (checkArgs env params es) (fun _ => ∀ u ∈ Expr.usesOf es, U u) E := by
  induction es generalizing params with
  | nil =>
    rw [checkArgs]
    · exact List.forall_mem_nil U
    · intro _ _ _ _ _ hcons
      cases hcons
  | cons e rest ih =>
    obtain ⟨hhead, htail⟩ := List.forall_mem_cons.mp h
    cases params with
    | nil => cases hlen
    | cons p params =>
      rw [checkArgs]
      apply (hhead.checks _ _ _ hhead.blames).bind
      intro _ huses
      apply (ih (Nat.succ.inj hlen) htail).weaken
      intro _ hrest
      exact List.forall_mem_append.mpr ⟨huses, hrest⟩

/-- What every element has under the declared type, all have together. -/
theorem checkElements_gives {declared : Ty} {name : Bytes} {P : Expr → Prop}
    (h : ∀ e ∈ es, Gives (checkAgainst env declared name e.pos e) (fun _ => P e) E) :
    Gives (checkElements env declared name es) (fun _ => ∀ e ∈ es, P e) E := by
  induction es with
  | nil =>
    rw [checkElements]
    exact List.forall_mem_nil P
  | cons e rest ih =>
    obtain ⟨hhead, htail⟩ := List.forall_mem_cons.mp h
    rw [checkElements]
    apply hhead.bind
    intro _ hp
    apply (ih htail).weaken
    intro _ hrest
    exact List.forall_mem_cons.mpr ⟨hp, hrest⟩

/-- A plain expression may stand where a type is declared if its own type is
    accepted there. -/
theorem checkAgainst_of_infer {declared : Ty} {name : Bytes} {pos : Pos} {e : Expr}
    (he : e.isPlain = true) :
    checkAgainst env declared name pos e = (infer env e >>= fun t =>
      match t with
      | none => .ok ()
      | some t =>
        if declared.accepts t then .ok ()
        else .error (.mismatch name (.type declared) (e.got t) pos)) := by
  rw [checkAgainst.eq_def]
  split
  · cases he
  · cases he
  · rfl

/-! ## §4. Expressions

Every form of expression is judged as what it consists of is. -/

namespace Judged

/-- Of a plain expression it is enough to find the type. -/
theorem of_infer {e : Expr} (he : e.isPlain = true) (hblames : Blames E e.pos)
    (h : Gives (infer env e) (fun _ => ∀ u ∈ e.uses, U u) E) : Judged env U E e where
  blames := hblames
  infers := h
  checks := by
    intro declared name pos hpos
    rw [checkAgainst_of_infer he]
    apply h.bind
    intro t huses
    split
    · exact huses
    · split
      · exact huses
      · exact hpos.mismatch _ _ _

section
variable {p : Pos} {name : Bytes} {e lhs rhs : Expr} {indices args : List Expr}
  (hself : Blames E p)
include hself

theorem literal (v : Literal) : Judged env U E (.literal p v) := by
  refine of_infer rfl hself ?_
  rw [infer_literal, Expr.uses_literal]
  exact List.forall_mem_nil U

theorem access (hlookup : Gives (env.typeOf name p) (fun _ => U { name, pos := p }) E)
    (hindices : ∀ e ∈ indices, Judged env U E e) : Judged env U E (.access p name indices) := by
  refine of_infer rfl hself ?_
  rw [infer, Expr.uses_access]
  apply hlookup.bind
  intro t hname
  apply (inferIndices_judged hself hindices).weaken
  intro _ hrest
  exact List.forall_mem_cons.mpr ⟨hname, hrest⟩

theorem neg (he : Judged env U E e) : Judged env U E (.neg p e) := by
  refine of_infer rfl hself ?_
  rw [infer, Expr.uses_neg]
  apply he.infers.bind
  intro t huses
  exact (Expr.require_gives he.blames.mismatch t _ _).bind fun _ _ => huses

theorem binary (op : BinaryOp) (hl : Judged env U E lhs) (hr : Judged env U E rhs) :
    Judged env U E (.binary p op lhs rhs) := by
  refine of_infer rfl hself ?_
  rw [infer, Expr.uses_binary]
  apply hl.infers.bind
  intro l hlhs
  apply hr.infers.bind
  intro r hrhs
  apply (BinaryOp.requireAgreement_gives hr.blames.mismatch l r).bind
  intro _ _
  apply (op.requireOperand_gives hl.blames.mismatch l).bind
  intro _ _
  apply (op.requireOperand_gives hr.blames.mismatch r).bind
  intro _ _
  exact List.forall_mem_append.mpr ⟨hlhs, hrhs⟩

theorem logical (op : LogicalOp) (hl : Judged env U E lhs) (hr : Judged env U E rhs) :
    Judged env U E (.logical p op lhs rhs) := by
  refine of_infer rfl hself ?_
  rw [infer, Expr.uses_logical]
  -- the left operand has to be a truth value before the right one is looked at
  apply hl.infers.bind
  intro l hlhs
  apply (Expr.require_gives hl.blames.mismatch l _ _).bind
  intro _ _
  apply hr.infers.bind
  intro r hrhs
  apply (Expr.require_gives hr.blames.mismatch r _ _).bind
  intro _ _
  exact List.forall_mem_append.mpr ⟨hlhs, hrhs⟩

theorem group (he : Judged env U E e) : Judged env U E (.group p e) := by
  refine ⟨hself, ?_, ?_⟩
  · rw [infer_group, Expr.uses_group]
    exact he.infers
  · intro declared name pos hpos
    rw [checkAgainst, Expr.uses_group]
    exact he.checks declared name pos hpos

theorem list (h : ∀ e ∈ es, Judged env U E e) : Judged env U E (.list p es) := by
  refine ⟨hself, ?_, ?_⟩
  · rw [infer, Expr.uses_list]
    exact (inferElements_judged h).bind fun _ huses => huses
  · intro declared name pos hpos
    rw [Expr.uses_list]
    cases declared with
    | list elem =>
      rw [checkAgainst]
      have hchecks : ∀ e ∈ es,
          Gives (checkAgainst env elem name e.pos e) (fun _ => ∀ u ∈ e.uses, U u) E :=
        fun e he => (h e he).checks elem name e.pos (h e he).blames
      apply (checkElements_gives hchecks).weaken
      intro _ huses
      exact List.forall_mem_flatMap.mpr huses
    -- a list literal is no value of any other type
    | _ =>
      rw [checkAgainst]
      · exact hpos.mismatch _ _ _
      · intro elem h
        cases h

theorem call (hargs : ∀ e ∈ args, Judged env U E e) : Judged env U E (.call p name args) := by
  refine of_infer rfl hself ?_
  rw [infer, Expr.uses_call]
  split
  -- a function that is not in the table may have any arguments
  · exact (inferEach_judged hargs).bind fun _ huses => huses
  · split
    · next hlen => exact (checkArgs_judged hlen hargs).bind fun _ huses => huses
    · exact hself.arity _ _ _

theorem method (hlookup : Gives (env.typeOf name p) (fun _ => U { name, pos := p }) E)
    (hindices : ∀ e ∈ indices, Judged env U E e) (m : Bytes)
    (hargs : ∀ e ∈ args, Judged env U E e) :
    Judged env U E (.method p name indices m args) := by
  refine of_infer rfl hself ?_
  rw [infer, Expr.uses_method]
  apply hlookup.bind
  intro t hname
  apply (inferIndices_judged hself hindices).bind
  intro _ huses
  apply (inferEach_judged hargs).bind
  intro _ huses'
  exact List.forall_mem_cons.mpr ⟨hname, List.forall_mem_append.mpr ⟨huses, huses'⟩⟩

end

end Judged

/-- What the look-ups in an expression give, the judgements give.  The two are
    proved together, for a call checks its arguments against the parameters. -/
theorem judged {e : Expr} (hblames : ∀ part ∈ e.parts, Blames E part.pos)
    (hlookup : ∀ u ∈ e.uses, Gives (env.typeOf u.name u.pos) (fun _ => U u) E) :
    Judged env U E e := by
  induction e with
  | literal p v => exact .literal (hblames _ (Expr.mem_parts_self _)) v
  | access p name indices ih =>
    rw [Expr.parts, List.forall_mem_cons, Expr.forall_partsOf] at hblames
    rw [Expr.uses_access, List.forall_mem_cons, Expr.usesOf, List.forall_mem_flatMap] at hlookup
    have hindices : ∀ e ∈ indices, Judged env U E e := fun e he =>
      ih e he (hblames.2 e he) (hlookup.2 e he)
    exact .access hblames.1 hlookup.1 hindices
  | neg p e ih =>
    rw [Expr.parts, List.forall_mem_cons] at hblames
    rw [Expr.uses_neg] at hlookup
    exact .neg hblames.1 (ih hblames.2 hlookup)
  | binary p op lhs rhs ihl ihr =>
    rw [Expr.parts, List.forall_mem_cons, List.forall_mem_append] at hblames
    rw [Expr.uses_binary, List.forall_mem_append] at hlookup
    have hl : Judged env U E lhs := ihl hblames.2.1 hlookup.1
    have hr : Judged env U E rhs := ihr hblames.2.2 hlookup.2
    exact .binary hblames.1 op hl hr
  | logical p op lhs rhs ihl ihr =>
    rw [Expr.parts, List.forall_mem_cons, List.forall_mem_append] at hblames
    rw [Expr.uses_logical, List.forall_mem_append] at hlookup
    have hl : Judged env U E lhs := ihl hblames.2.1 hlookup.1
    have hr : Judged env U E rhs := ihr hblames.2.2 hlookup.2
    exact .logical hblames.1 op hl hr
  | group p inner ih =>
    rw [Expr.parts, List.forall_mem_cons] at hblames
    rw [Expr.uses_group] at hlookup
    exact .group hblames.1 (ih hblames.2 hlookup)
  | list p elements ih =>
    rw [Expr.parts, List.forall_mem_cons, Expr.forall_partsOf] at hblames
    rw [Expr.uses_list, Expr.usesOf, List.forall_mem_flatMap] at hlookup
    have helements : ∀ e ∈ elements, Judged env U E e := fun e he =>
      ih e he (hblames.2 e he) (hlookup e he)
    exact .list hblames.1 helements
  | call p name args ih =>
    rw [Expr.parts, List.forall_mem_cons, Expr.forall_partsOf] at hblames
    rw [Expr.uses_call, Expr.usesOf, List.forall_mem_flatMap] at hlookup
    have hargs : ∀ e ∈ args, Judged env U E e := fun e he =>
      ih e he (hblames.2 e he) (hlookup e he)
    exact .call hblames.1 hargs
  | method p name indices m args ihi iha =>
    rw [Expr.parts, List.forall_mem_cons, List.forall_mem_append, Expr.forall_partsOf,
      Expr.forall_partsOf] at hblames
    rw [Expr.uses_method, List.forall_mem_cons, List.forall_mem_append, Expr.usesOf, Expr.usesOf,
      List.forall_mem_flatMap, List.forall_mem_flatMap] at hlookup
    have hindices : ∀ e ∈ indices, Judged env U E e := fun e he =>
      ihi e he (hblames.2.1 e he) (hlookup.2.1 e he)
    have hargs : ∀ e ∈ args, Judged env U E e := fun e he =>
      iha e he (hblames.2.2 e he) (hlookup.2.2 e he)
    exact .method hblames.1 hlookup.1 hindices m hargs

/-! ## §5. Conditions and bounds -/

theorem Env.checkTruth_judged {cond : Expr} (h : Judged env U E cond) :
    Gives (env.checkTruth cond) (fun _ => ∀ u ∈ cond.uses, U u) E := by
  unfold Env.checkTruth
  apply h.infers.bind
  intro t huses
  split
  · exact huses
  · split
    · exact huses
    · exact h.blames.mismatch _ _ _

theorem Env.checkBounds_judged {start stop : Expr} (hstart : Judged env U E start)
    (hstop : Judged env U E stop) (var : Bytes) :
    Gives (env.checkBounds var start stop) (fun _ => ∀ u ∈ start.uses ++ stop.uses, U u) E := by
  unfold Env.checkBounds
  apply (hstart.checks .int var start.pos hstart.blames).bind
  intro _ huses
  apply (hstop.checks .int var stop.pos hstop.blames).weaken
  intro _ huses'
  exact List.forall_mem_append.mpr ⟨huses, huses'⟩

end

end Lumen
