/-
  Lumen.Proofs.Checking.Culprits — what a check objects to.

  A rejected expression has a part whose own rule is violated: an operand of the
  wrong type, an index that is no integer, an element that does not agree with those
  before it, a name without a binding, or a call of a known function with the wrong
  arguments.  Where a type is declared, the expression itself may be to blame as
  well: it or some element of it has another type.  A statement has a rule of its
  own too, for its condition, its bounds or its target.

  A call has a rule only if its function is known.  So a call of any other name is
  never what a check objects to, though a part of an argument may be.  In an accepted
  expression every call of a known function has the right arguments, however deep it
  stands.

  As for the uses of names, the law is stated for any class `E` of errors: if what
  violates a rule is in `E`, then a check finds all calls right or gives an error
  in `E`.

  Main statements:
    * `Assignable` / `Unassignable` — what may stand where a type is declared, and
      why something may not;
    * `Expr.Violates` / `Stmt.Violates` — the rules, from their bad side;
    * `Expr.CallsRight` — what is known of a call that is accepted;
    * `Examined.access` … `Examined.method` — both judgements on each form of expression;
    * `examined` — both judgements on any expression;
    * `checkTruth_examined` … `store_examined` — the checks of single statements;
    * `Expr.Violates.cases_error` — what a rule reports;
    * `Expr.Violates.congr` / `Stmt.Violates.congr` — rules in environments that agree.
-/
import Lumen.Proofs.Scoping.Agreement
import Lumen.Proofs.Scoping.Frame

namespace Lumen

/-! ## §1. Rules -/

section
variable (env : Env)

/-- Whether an expression may stand where a type is declared: its type is unknown or
    accepted there; of a list literal, every element may stand where the type of
    elements is. -/
inductive Assignable : Ty → Expr → Prop
  | group {declared : Ty} {p : Pos} {inner : Expr} (h : Assignable declared inner) :
    Assignable declared (.group p inner)
  | list {elem : Ty} {p : Pos} {elements : List Expr} (h : ∀ e ∈ elements, Assignable elem e) :
    Assignable (.list elem) (.list p elements)
  | plain {declared : Ty} {e : Expr} {found : Option Ty} (he : e.isPlain = true)
    (hfound : infer env e = .ok found) (h : ∀ t, found = some t → declared.accepts t = true) :
    Assignable declared e

/-- What is reported of an expression that may not stand where a type is declared for
    a name: the first element that may not, or the expression itself. -/
inductive Unassignable (name : Bytes) : Ty → Pos → Expr → ParseError → Prop
  | group {declared : Ty} {pos p : Pos} {inner : Expr} {err : ParseError}
    (h : Unassignable name declared pos inner err) :
    Unassignable name declared pos (.group p inner) err
  | noList {declared : Ty} {pos p : Pos} {elements : List Expr} (h : declared.isList = false) :
    Unassignable name declared pos (.list p elements)
      (.mismatch name (.type declared) .list pos)
  | element {elem : Ty} {pos p : Pos} {elements : List Expr} {e : Expr} {err : ParseError}
    (he : e ∈ elements) (h : Unassignable name elem e.pos e err) :
    Unassignable name (.list elem) pos (.list p elements) err
  | plain {declared t : Ty} {pos : Pos} {e : Expr} (he : e.isPlain = true)
    (hfound : infer env e = .ok (some t)) (h : declared.accepts t = false) :
    Unassignable name declared pos e (.mismatch name (.type declared) (e.got t) pos)

/-- What is reported of indices behind something of a certain type: an index is no
    integer, or what is indexed is no list. -/
inductive IndexViolates (pos : Pos) : Option Ty → List Expr → ParseError → Prop
  | index {t found : Option Ty} {index : Expr} {rest : List Expr} {err : ParseError}
    (hfound : infer env index = .ok found)
    (h : index.require found (· == .int) (.type .int) = .error err) :
    IndexViolates pos t (index :: rest) err
  | indexed {t : Option Ty} {index : Expr} {rest : List Expr} {err : ParseError}
    (h : elementType pos t = .error err) : IndexViolates pos t (index :: rest) err
  | next {t elem : Option Ty} {index : Expr} {rest : List Expr} {err : ParseError}
    (helem : elementType pos t = .ok elem) (h : IndexViolates pos elem rest err) :
    IndexViolates pos t (index :: rest) err

/-- What is reported of a name with indices: it has no binding, or the indices are
    wrong. -/
inductive PlaceViolates (pos : Pos) (name : Bytes) (indices : List Expr) : ParseError → Prop
  | unbound (h : env.type? name = none) : PlaceViolates pos name indices (.undeclared name pos)
  | indices {t : Ty} {err : ParseError} (ht : env.type? name = some t)
    (h : IndexViolates env pos (some t) indices err) : PlaceViolates pos name indices err

/-- What the rule of an expression itself reports, the types of its parts being
    known. -/
inductive Expr.Violates : Expr → ParseError → Prop
  | access {p : Pos} {name : Bytes} {indices : List Expr} {err : ParseError}
    (h : PlaceViolates env p name indices err) : Violates (.access p name indices) err
  | receiver {p : Pos} {name m : Bytes} {indices args : List Expr} {err : ParseError}
    (h : PlaceViolates env p name indices err) : Violates (.method p name indices m args) err
  | negated {p : Pos} {e : Expr} {t : Option Ty} {err : ParseError} (ht : infer env e = .ok t)
    (h : e.require t Ty.isNumeric .numeric = .error err) : Violates (.neg p e) err
  | agreement {p : Pos} {op : BinaryOp} {lhs rhs : Expr} {l r : Option Ty} {err : ParseError}
    (hl : infer env lhs = .ok l) (hr : infer env rhs = .ok r)
    (h : BinaryOp.requireAgreement l r rhs = .error err) : Violates (.binary p op lhs rhs) err
  | operand {p : Pos} {op : BinaryOp} {lhs rhs e : Expr} {t : Option Ty} {err : ParseError}
    (he : e = lhs ∨ e = rhs) (ht : infer env e = .ok t)
    (h : op.requireOperand e t = .error err) : Violates (.binary p op lhs rhs) err
  | truth {p : Pos} {op : LogicalOp} {lhs rhs e : Expr} {t : Option Ty} {err : ParseError}
    (he : e = lhs ∨ e = rhs) (ht : infer env e = .ok t) (h : e.requireBool t = .error err) :
    Violates (.logical p op lhs rhs) err
  | element {p : Pos} {elements : List Expr} {merged t : Ty} {e : Expr} (he : e ∈ elements)
    (ht : infer env e = .ok (some t)) (h : merged.merge? t = none) :
    Violates (.list p elements) (.mismatch [] (.type merged) (e.got t) e.pos)
  | arity {p : Pos} {name : Bytes} {args : List Expr} {f : Signature}
    (hf : env.function? name = some f) (h : f.params.length ≠ args.length) :
    Violates (.call p name args) (.arity f.name f.params.length args.length p)
  | argument {p : Pos} {name : Bytes} {args : List Expr} {f : Signature} {param : Param}
    {arg : Expr} {err : ParseError} (hf : env.function? name = some f)
    (hlen : f.params.length = args.length) (hmem : (param, arg) ∈ f.params.zip args)
    (h : Unassignable env param.name param.type arg.pos arg err) :
    Violates (.call p name args) err

/-- What the rule of a statement itself reports, apart from the expressions and the
    statements in it. -/
inductive Stmt.Violates : Stmt → ParseError → Prop
  | ifTruth {p : Pos} {cond : Expr} {b : Block} {b' : Option Block} {t : Ty}
    (ht : infer env cond = .ok (some t)) (h : t ≠ .bool) :
    Violates (.if_ p cond b b') (.mismatch [] (.type .bool) (cond.ungrouped.got t) cond.pos)
  | whileTruth {p : Pos} {cond : Expr} {b : Block} {t : Ty}
    (ht : infer env cond = .ok (some t)) (h : t ≠ .bool) :
    Violates (.while_ p cond b) (.mismatch [] (.type .bool) (cond.ungrouped.got t) cond.pos)
  | bound {p : Pos} {var : Bytes} {start stop e : Expr} {b : Block} {err : ParseError}
    (he : e = start ∨ e = stop) (h : Unassignable env var .int e.pos e err) :
    Violates (.for_ p var start stop b) err
  | init {p : Pos} {name : Bytes} {type : Ty} {init : Expr} {err : ParseError}
    (h : Unassignable env name type init.pos init err) : Violates (.let_ p name type init) err
  | target {p : Pos} {name : Bytes} {indices : List Expr} {value : Expr} {err : ParseError}
    (h : PlaceViolates env p name indices err) : Violates (.assign p name indices value) err
  | value {p : Pos} {name : Bytes} {indices : List Expr} {value : Expr} {t elem : Ty}
    {err : ParseError} (ht : env.type? name = some t)
    (helem : inferIndices env p (some t) indices = .ok (some elem))
    (h : Unassignable env name elem value.pos value err) :
    Violates (.assign p name indices value) err

/-- If an expression is a call of a known function, then it has as many arguments as
    the function has parameters, and each may stand for its parameter. -/
def Expr.CallsRight (e : Expr) : Prop :=
  ∀ p name args f, e = .call p name args → env.function? name = some f →
    f.params.length = args.length ∧
      ∀ param arg, (param, arg) ∈ f.params.zip args → Assignable env param.type arg

end

/-! ## §2. Judgements on lists -/

/-- A result gives itself, and an error that is in `E` whatever it is. -/
theorem gives_self {ε α : Type} {r : Except ε α} {E : ε → Prop} (h : ∀ e, r = .error e → E e) :
    Gives r (fun a => r = .ok a) E := by
  cases r with
  | ok a => exact rfl
  | error e => exact h e rfl

/-- What is given is what the result is. -/
theorem Gives.known {ε α : Type} {r : Except ε α} {Q : α → Prop} {E : ε → Prop}
    (h : Gives r Q E) : Gives r (fun a => r = .ok a ∧ Q a) E := by
  cases r with
  | ok a => exact ⟨rfl, h⟩
  | error e => exact h

/-- Both judgements on an expression find that all calls in it are right, or give an
    error in `E`; where a type is declared, this may be that the expression is not
    what may stand there. -/
structure Examined (env : Env) (E : ParseError → Prop) (e : Expr) : Prop where
  infers : Gives (infer env e) (fun _ => ∀ part ∈ e.parts, part.CallsRight env) E
  checks : ∀ declared name pos, (∀ err, Unassignable env name declared pos e err → E err) →
    Gives (checkAgainst env declared name pos e)
      (fun _ => (∀ part ∈ e.parts, part.CallsRight env) ∧ Assignable env declared e) E

section
variable {env : Env} {E : ParseError → Prop} {es : List Expr} (h : ∀ e ∈ es, Examined env E e)
include h

theorem inferIndices_examined {pos : Pos} {t : Option Ty}
    (hown : ∀ err, IndexViolates env pos t es err → E err) :
    Gives (inferIndices env pos t es)
      (fun _ => ∀ part ∈ Expr.partsOf es, part.CallsRight env) E := by
  induction es generalizing t with
  | nil =>
    rw [inferIndices]
    exact List.forall_mem_nil _
  | cons e rest ih =>
    obtain ⟨hhead, htail⟩ := List.forall_mem_cons.mp h
    rw [inferIndices]
    apply hhead.infers.known.bind
    rintro i ⟨hfound, hright⟩
    apply (gives_self fun err herr => hown err (.index hfound herr)).bind
    intro _ _
    apply (gives_self fun err herr => hown err (.indexed herr)).bind
    intro elem helem
    apply (ih htail fun err herr => hown err (.next helem herr)).weaken
    intro _ hrest
    exact List.forall_mem_append.mpr ⟨hright, hrest⟩

theorem inferElements_examined {merged : Ty}
    (hown : ∀ merged e t, e ∈ es → infer env e = .ok (some t) → merged.merge? t = none →
      E (.mismatch [] (.type merged) (e.got t) e.pos)) :
    Gives (inferElements env merged es)
      (fun _ => ∀ part ∈ Expr.partsOf es, part.CallsRight env) E := by
  induction es generalizing merged with
  | nil =>
    rw [inferElements]
    exact List.forall_mem_nil _
  | cons e rest ih =>
    obtain ⟨hhead, htail⟩ := List.forall_mem_cons.mp h
    rw [inferElements]
    apply hhead.infers.known.bind
    rintro found ⟨hfound, hright⟩
    -- whatever the types have merged to, the other elements are examined alike
    have hrest : ∀ merged, Gives (inferElements env merged rest)
        (fun _ => ∀ part ∈ Expr.partsOf (e :: rest), part.CallsRight env) E := by
      intro merged
      apply (ih htail fun merged e' t he' => hown merged e' t (List.mem_cons_of_mem e he')).weaken
      intro _ hrest
      exact List.forall_mem_append.mpr ⟨hright, hrest⟩
    split
    · exact hrest _
    · split
      · exact hrest _
      · next hmerge => exact hown _ e _ List.mem_cons_self hfound hmerge

theorem inferEach_examined :
    Gives (inferEach env es) (fun _ => ∀ part ∈ Expr.partsOf es, part.CallsRight env) E := by
  induction es with
  | nil =>
    rw [inferEach]
    exact List.forall_mem_nil _
  | cons e rest ih =>
    obtain ⟨hhead, htail⟩ := List.forall_mem_cons.mp h
    rw [inferEach]
    apply hhead.infers.bind
    intro _ hright
    apply (ih htail).weaken
    intro _ hrest
    exact List.forall_mem_append.mpr ⟨hright, hrest⟩

theorem checkArgs_examined {params : List Param} (hlen : params.length = es.length)
    (hown : ∀ param arg err, (param, arg) ∈ params.zip es →
      Unassignable env param.name param.type arg.pos arg err → E err) :
    Gives (checkArgs env params es)
      (fun _ => (∀ part ∈ Expr.partsOf es, part.CallsRight env)
        ∧ ∀ param arg, (param, arg) ∈ params.zip es → Assignable env param.type arg) E := by
  induction es generalizing params with
  | nil =>
    rw [checkArgs]
    · refine ⟨List.forall_mem_nil _, ?_⟩
      intro param arg hmem
      rw [List.zip_nil_right] at hmem
      cases hmem
    · intro _ _ _ _ _ hcons
      cases hcons
  | cons e rest ih =>
    obtain ⟨hhead, htail⟩ := List.forall_mem_cons.mp h
    cases params with
    | nil => cases hlen
    | cons p params =>
      rw [checkArgs]
      rw [List.zip_cons_cons] at hown ⊢
      -- the first argument against the first parameter, and the others against the others
      apply (hhead.checks p.type p.name e.pos fun err => hown p e err List.mem_cons_self).bind
      rintro _ ⟨hright, hassignable⟩
      apply (ih htail (Nat.succ.inj hlen) fun param arg err hmem =>
        hown param arg err (List.mem_cons_of_mem _ hmem)).weaken
      rintro _ ⟨hrest, hzip⟩
      refine ⟨List.forall_mem_append.mpr ⟨hright, hrest⟩, ?_⟩
      intro param arg hmem
      rcases List.mem_cons.mp hmem with heq | hmem
      · cases heq
        exact hassignable
      · exact hzip param arg hmem

end

/-! ## §3. Expressions -/

/-- What is no call of a known function is right. -/
theorem Expr.callsRight_of_ne {env : Env} {e : Expr} (h : ∀ p name args, e ≠ .call p name args) :
    e.CallsRight env := fun p name args _ he => absurd he (h p name args)

section
variable {env : Env} {E : ParseError → Prop}

/-- Of a plain expression it is enough to find the type. -/
theorem Examined.of_infer {e : Expr} (he : e.isPlain = true)
    (h : Gives (infer env e) (fun _ => ∀ part ∈ e.parts, part.CallsRight env) E) :
    Examined env E e where
  infers := h
  checks := by
    intro declared name pos hown
    -- to stand under a type is to have one that is accepted, or none that is known
    rw [checkAgainst_of_infer he]
    apply h.known.bind
    rintro found ⟨hfound, hright⟩
    cases found with
    | none =>
      refine ⟨hright, .plain he hfound ?_⟩
      intro t ht
      cases ht
    | some t =>
      dsimp only
      split
      · next haccepts =>
        refine ⟨hright, .plain he hfound ?_⟩
        intro u hu
        cases hu
        exact haccepts
      · next haccepts =>
        exact hown _ (.plain he hfound (Bool.not_eq_true _ ▸ haccepts))

/-- The type of a name is known, or the place where it stands violates its rule. -/
theorem typeOf_examined {name : Bytes} {pos : Pos} {indices : List Expr}
    (hown : ∀ err, PlaceViolates env pos name indices err → E err) :
    Gives (env.typeOf name pos) (fun t => env.type? name = some t) E := by
  apply (env.typeOf_gives name pos ?_).weaken
  · rintro t ⟨b, hb, rfl⟩
    unfold Env.type?
    rw [hb]
    rfl
  · intro hnone
    apply hown _ (.unbound _)
    unfold Env.type?
    rw [hnone]
    rfl

/-- A name with indices is right if they are and its place violates no rule. -/
theorem place_examined {name : Bytes} {pos : Pos} {indices : List Expr}
    (h : ∀ e ∈ indices, Examined env E e)
    (hown : ∀ err, PlaceViolates env pos name indices err → E err) :
    Gives (env.typeOf name pos >>= fun t => inferIndices env pos (some t) indices)
      (fun _ => ∀ part ∈ Expr.partsOf indices, part.CallsRight env) E := by
  apply (typeOf_examined hown).bind
  intro t ht
  exact inferIndices_examined h fun err herr => hown err (.indices ht herr)

namespace Examined
variable {p : Pos} {name : Bytes} {e lhs rhs : Expr} {indices elements args : List Expr}

theorem literal (p : Pos) (v : Literal) : Examined env E (.literal p v) := by
  refine of_infer rfl ?_
  rw [infer_literal]
  intro part hpart
  obtain rfl := List.mem_singleton.mp hpart
  exact Expr.callsRight_of_ne fun _ _ _ => Expr.noConfusion

theorem access (hown : ∀ err, (Expr.access p name indices).Violates env err → E err)
    (hindices : ∀ e ∈ indices, Examined env E e) : Examined env E (.access p name indices) := by
  refine of_infer rfl ?_
  rw [infer, Expr.parts]
  apply (place_examined hindices fun err herr => hown err (.access herr)).weaken
  intro _ hright
  exact List.forall_mem_cons.mpr
    ⟨Expr.callsRight_of_ne fun _ _ _ => Expr.noConfusion, hright⟩

theorem neg (hown : ∀ err, (Expr.neg p e).Violates env err → E err) (he : Examined env E e) :
    Examined env E (.neg p e) := by
  refine of_infer rfl ?_
  rw [infer, Expr.parts]
  apply he.infers.known.bind
  rintro t ⟨ht, hright⟩
  apply (gives_self fun err herr => hown err (.negated ht herr)).bind
  intro _ _
  exact List.forall_mem_cons.mpr
    ⟨Expr.callsRight_of_ne fun _ _ _ => Expr.noConfusion, hright⟩

theorem binary {op : BinaryOp}
    (hown : ∀ err, (Expr.binary p op lhs rhs).Violates env err → E err)
    (hl : Examined env E lhs) (hr : Examined env E rhs) :
    Examined env E (.binary p op lhs rhs) := by
  refine of_infer rfl ?_
  rw [infer, Expr.parts]
  apply hl.infers.known.bind
  rintro l ⟨htl, hlhs⟩
  apply hr.infers.known.bind
  rintro r ⟨htr, hrhs⟩
  apply (gives_self fun err herr => hown err (.agreement htl htr herr)).bind
  intro _ _
  apply (gives_self fun err herr => hown err (.operand (.inl rfl) htl herr)).bind
  intro _ _
  apply (gives_self fun err herr => hown err (.operand (.inr rfl) htr herr)).bind
  intro _ _
  exact List.forall_mem_cons.mpr ⟨Expr.callsRight_of_ne fun _ _ _ => Expr.noConfusion,
    List.forall_mem_append.mpr ⟨hlhs, hrhs⟩⟩

theorem logical {op : LogicalOp}
    (hown : ∀ err, (Expr.logical p op lhs rhs).Violates env err → E err)
    (hl : Examined env E lhs) (hr : Examined env E rhs) :
    Examined env E (.logical p op lhs rhs) := by
  refine of_infer rfl ?_
  rw [infer, Expr.parts]
  -- the left operand has to be a truth value before the right one is looked at
  apply hl.infers.known.bind
  rintro l ⟨htl, hlhs⟩
  apply (gives_self fun err herr => hown err (.truth (.inl rfl) htl herr)).bind
  intro _ _
  apply hr.infers.known.bind
  rintro r ⟨htr, hrhs⟩
  apply (gives_self fun err herr => hown err (.truth (.inr rfl) htr herr)).bind
  intro _ _
  exact List.forall_mem_cons.mpr ⟨Expr.callsRight_of_ne fun _ _ _ => Expr.noConfusion,
    List.forall_mem_append.mpr ⟨hlhs, hrhs⟩⟩

theorem group (p : Pos) (he : Examined env E e) : Examined env E (.group p e) := by
  have hgroup : (Expr.group p e).CallsRight env :=
    Expr.callsRight_of_ne fun _ _ _ => Expr.noConfusion
  refine ⟨?_, ?_⟩
  · rw [infer_group, Expr.parts]
    apply he.infers.weaken
    intro _ hright
    exact List.forall_mem_cons.mpr ⟨hgroup, hright⟩
  · intro declared name pos hown
    rw [checkAgainst, Expr.parts]
    apply (he.checks declared name pos fun err herr => hown err (.group herr)).weaken
    rintro _ ⟨hright, hassignable⟩
    exact ⟨List.forall_mem_cons.mpr ⟨hgroup, hright⟩, .group hassignable⟩

theorem list (hown : ∀ err, (Expr.list p elements).Violates env err → E err)
    (h : ∀ e ∈ elements, Examined env E e) : Examined env E (.list p elements) := by
  have hlist : (Expr.list p elements).CallsRight env :=
    Expr.callsRight_of_ne fun _ _ _ => Expr.noConfusion
  refine ⟨?_, ?_⟩
  · rw [infer, Expr.parts]
    apply (inferElements_examined h fun merged e t he ht hmerge =>
      hown _ (.element he ht hmerge)).bind
    intro _ hright
    exact List.forall_mem_cons.mpr ⟨hlist, hright⟩
  · intro declared name pos hunassignable
    rw [Expr.parts, List.forall_mem_cons, Expr.forall_partsOf]
    cases declared with
    | list elem =>
      rw [checkAgainst]
      have hchecks : ∀ e ∈ elements, Gives (checkAgainst env elem name e.pos e)
          (fun _ => (∀ part ∈ e.parts, part.CallsRight env) ∧ Assignable env elem e) E :=
        fun e he => (h e he).checks elem name e.pos fun err herr =>
          hunassignable err (.element he herr)
      apply (checkElements_gives hchecks).weaken
      intro _ hall
      exact ⟨⟨hlist, fun e he => (hall e he).1⟩, .list fun e he => (hall e he).2⟩
    -- a list literal is no value of any other type
    | _ =>
      rw [checkAgainst]
      · exact hunassignable _ (.noList rfl)
      · intro elem h
        cases h

theorem call (hown : ∀ err, (Expr.call p name args).Violates env err → E err)
    (hargs : ∀ e ∈ args, Examined env E e) : Examined env E (.call p name args) := by
  refine of_infer rfl ?_
  rw [infer, Expr.parts]
  split
  -- of a function that is not in the table nothing is known
  · next hunknown =>
    apply (inferEach_examined hargs).bind
    intro _ hright
    refine List.forall_mem_cons.mpr ⟨?_, hright⟩
    intro p' name' args' f he hf
    cases he
    cases hunknown.symm.trans hf
  · next f hf =>
    split
    · next hlen =>
      apply (checkArgs_examined hargs hlen fun param arg err hmem herr =>
        hown err (.argument hf hlen hmem herr)).bind
      rintro _ ⟨hright, hassignable⟩
      refine List.forall_mem_cons.mpr ⟨?_, hright⟩
      intro p' name' args' g he hg
      cases he
      obtain rfl : f = g := Option.some.inj (hf.symm.trans hg)
      exact ⟨hlen, hassignable⟩
    · next hlen => exact hown _ (.arity hf hlen)

theorem method {m : Bytes}
    (hown : ∀ err, (Expr.method p name indices m args).Violates env err → E err)
    (hindices : ∀ e ∈ indices, Examined env E e) (hargs : ∀ e ∈ args, Examined env E e) :
    Examined env E (.method p name indices m args) := by
  refine of_infer rfl ?_
  rw [infer, Expr.parts, ← bind_assoc]
  apply (place_examined hindices fun err herr => hown err (.receiver herr)).bind
  intro _ hright
  apply (inferEach_examined hargs).bind
  intro _ hright'
  exact List.forall_mem_cons.mpr ⟨Expr.callsRight_of_ne fun _ _ _ => Expr.noConfusion,
    List.forall_mem_append.mpr ⟨hright, hright'⟩⟩

end Examined

/-- What the parts of an expression violate, the judgements report.  The two are
    proved together, for a call checks its arguments against the parameters. -/
theorem examined {e : Expr} (h : ∀ part ∈ e.parts, ∀ err, part.Violates env err → E err) :
    Examined env E e := by
  induction e with
  | literal p v => exact .literal p v
  | access p name indices ih =>
    rw [Expr.parts, List.forall_mem_cons, Expr.forall_partsOf] at h
    exact .access h.1 fun e he => ih e he (h.2 e he)
  | neg p e ih =>
    rw [Expr.parts, List.forall_mem_cons] at h
    exact .neg h.1 (ih h.2)
  | binary p op lhs rhs ihl ihr =>
    rw [Expr.parts, List.forall_mem_cons, List.forall_mem_append] at h
    exact .binary h.1 (ihl h.2.1) (ihr h.2.2)
  | logical p op lhs rhs ihl ihr =>
    rw [Expr.parts, List.forall_mem_cons, List.forall_mem_append] at h
    exact .logical h.1 (ihl h.2.1) (ihr h.2.2)
  | group p inner ih =>
    rw [Expr.parts, List.forall_mem_cons] at h
    exact .group p (ih h.2)
  | list p elements ih =>
    rw [Expr.parts, List.forall_mem_cons, Expr.forall_partsOf] at h
    exact .list h.1 fun e he => ih e he (h.2 e he)
  | call p name args ih =>
    rw [Expr.parts, List.forall_mem_cons, Expr.forall_partsOf] at h
    exact .call h.1 fun e he => ih e he (h.2 e he)
  | method p name indices m args ihi iha =>
    rw [Expr.parts, List.forall_mem_cons, List.forall_mem_append, Expr.forall_partsOf,
      Expr.forall_partsOf] at h
    have hindices : ∀ e ∈ indices, Examined env E e := fun e he => ihi e he (h.2.1 e he)
    have hargs : ∀ e ∈ args, Examined env E e := fun e he => iha e he (h.2.2 e he)
    exact .method h.1 hindices hargs

end

/-! ## §4. Statements -/

section
variable {env : Env} {E : ParseError → Prop}

/-- A condition is right, or its type is known and is not that of truth values. -/
theorem checkTruth_examined {cond : Expr} (h : Examined env E cond)
    (hown : ∀ t, infer env cond = .ok (some t) → t ≠ .bool →
      E (.mismatch [] (.type .bool) (cond.ungrouped.got t) cond.pos)) :
    Gives (env.checkTruth cond) (fun _ => ∀ part ∈ cond.parts, part.CallsRight env) E := by
  unfold Env.checkTruth
  apply h.infers.known.bind
  rintro found ⟨hfound, hright⟩
  cases found with
  | none => exact hright
  | some t =>
    dsimp only
    split
    · exact hright
    · next ht => exact hown t hfound ht

theorem checkType_examined {type : Ty} {e : Expr} {name : Bytes} (h : Examined env E e)
    (hown : ∀ err, Unassignable env name type e.pos e err → E err) :
    Gives (checkType env type e name) (fun _ => ∀ part ∈ e.parts, part.CallsRight env) E :=
  (h.checks type name e.pos hown).weaken fun _ hright => hright.1

theorem checkBounds_examined {var : Bytes} {start stop : Expr} (hstart : Examined env E start)
    (hstop : Examined env E stop)
    (hown : ∀ e err, e = start ∨ e = stop → Unassignable env var .int e.pos e err → E err) :
    Gives (env.checkBounds var start stop)
      (fun _ => ∀ part ∈ start.parts ++ stop.parts, part.CallsRight env) E := by
  unfold Env.checkBounds
  apply (checkType_examined hstart fun err => hown start err (.inl rfl)).bind
  intro _ hright
  apply (checkType_examined hstop fun err => hown stop err (.inr rfl)).weaken
  intro _ hright'
  exact List.forall_mem_append.mpr ⟨hright, hright'⟩

/-- A store is right, or its target or its value violates a rule, or the binding
    refuses the value. -/
theorem store_examined {pos : Pos} {name : Bytes} {indices : List Expr} {value : Expr}
    (hindices : ∀ e ∈ indices, Examined env E e) (hvalue : Examined env E value)
    (hown : ∀ err, (Stmt.assign pos name indices value).Violates env err → E err)
    (hrefused : ∀ err : ParseError, err.isRefused = true → E err) :
    Gives (env.store pos name indices value)
      (fun env' => env'.Matches env
        ∧ ∀ part ∈ Expr.partsOf indices ++ value.parts, part.CallsRight env) E := by
  have hplace : ∀ err, PlaceViolates env pos name indices err → E err := fun err herr =>
    hown err (.target herr)
  unfold Env.store
  apply (typeOf_examined hplace).bind
  intro t ht
  obtain ⟨b, hb, rfl⟩ := Option.map_eq_some_iff.mp ht
  -- a store ends with an assignment, when the rest is known to be right
  have hassign : ∀ v, (∀ part ∈ Expr.partsOf indices ++ value.parts, part.CallsRight env) →
      Gives (env.assign name v (some pos))
        (fun env' => env'.Matches env
          ∧ ∀ part ∈ Expr.partsOf indices ++ value.parts, part.CallsRight env) E := by
    intro v hright
    apply (Env.assign_gives hb v (some pos)).known.mono
    · rintro env' ⟨hok, rfl⟩
      exact ⟨⟨rfl, Env.layers_assign hok⟩, hright⟩
    · exact hrefused
  cases indices with
  | nil =>
    have hwhole : inferIndices env pos (some b.type) [] = .ok (some b.type) := by
      rw [inferIndices]
    apply (checkType_examined hvalue fun err herr => hown err (.value ht hwhole herr)).bind
    intro _ hright
    exact hassign _ hright
  | cons index rest =>
    apply (inferIndices_examined hindices fun err herr => hplace err (.indices ht herr)).known.bind
    rintro elem ⟨helem, hright⟩
    cases elem with
    | some elem =>
      apply (checkType_examined hvalue fun err herr => hown err (.value ht helem herr)).bind
      intro _ hright'
      exact hassign _ (List.forall_mem_append.mpr ⟨hright, hright'⟩)
    | none =>
      apply hvalue.infers.bind
      intro _ hright'
      exact hassign _ (List.forall_mem_append.mpr ⟨hright, hright'⟩)

end

/-! ## §5. Wrong numbers of arguments -/

/-- What is reported of operands and indices, and where a type is declared, is a
    mismatch. -/
def ParseError.IsMismatch (err : ParseError) : Prop :=
  ∃ name wanted got pos, err = .mismatch name wanted got pos

theorem ParseError.isMismatch (pos : Pos) (name : Bytes) (wanted : Wanted) (got : Got) :
    (mismatch name wanted got pos).IsMismatch := ⟨name, wanted, got, pos, rfl⟩

section
variable {env : Env}

theorem Unassignable.isMismatch {name : Bytes} {declared : Ty} {pos : Pos} {e : Expr}
    {err : ParseError} (h : Unassignable env name declared pos e err) : err.IsMismatch := by
  induction h with
  | group _ ih => exact ih
  | noList _ => exact ParseError.isMismatch _ _ _ _
  | element _ _ ih => exact ih
  | plain _ _ _ => exact ParseError.isMismatch _ _ _ _

theorem IndexViolates.isMismatch {pos : Pos} {t : Option Ty} {indices : List Expr}
    {err : ParseError} (h : IndexViolates env pos t indices err) : err.IsMismatch := by
  induction h with
  | index _ h => exact (Expr.require_gives (ParseError.isMismatch _) _ _ _).of_error h
  | indexed h => exact (elementType_gives (ParseError.isMismatch _) _).of_error h
  | next _ _ ih => exact ih

theorem PlaceViolates.cases_error {pos : Pos} {name : Bytes} {indices : List Expr}
    {err : ParseError} (h : PlaceViolates env pos name indices err) :
    (∃ name pos, err = .undeclared name pos) ∨ err.IsMismatch := by
  cases h with
  | unbound _ => exact .inl ⟨_, _, rfl⟩
  | indices _ h => exact .inr h.isMismatch

/-- What the rule of an expression reports is a name without a binding, a mismatch, or
    the number of arguments in a call of a known function. -/
theorem Expr.Violates.cases_error {e : Expr} {err : ParseError} (h : e.Violates env err) :
    ((∃ name pos, err = .undeclared name pos) ∨ err.IsMismatch)
      ∨ ∃ p name args f, e = .call p name args ∧ env.function? name = some f
        ∧ f.params.length ≠ args.length ∧ err = .arity f.name f.params.length args.length p := by
  cases h with
  | access h | receiver h => exact .inl h.cases_error
  | negated _ h =>
    exact .inl (.inr ((Expr.require_gives (ParseError.isMismatch _) _ _ _).of_error h))
  | agreement _ _ h =>
    exact .inl (.inr ((BinaryOp.requireAgreement_gives (ParseError.isMismatch _) _ _).of_error h))
  | operand _ _ h =>
    exact .inl (.inr ((BinaryOp.requireOperand_gives _ (ParseError.isMismatch _) _).of_error h))
  | truth _ _ h =>
    exact .inl (.inr ((Expr.require_gives (ParseError.isMismatch _) _ _ _).of_error h))
  | element _ _ _ => exact .inl (.inr (ParseError.isMismatch _ _ _ _))
  | arity hf h => exact .inr ⟨_, _, _, _, rfl, hf, h, rfl⟩
  | argument _ _ _ h => exact .inl (.inr h.isMismatch)

/-- What the rule of a statement reports is a name without a binding, or a mismatch. -/
theorem Stmt.Violates.cases_error {s : Stmt} {err : ParseError} (h : s.Violates env err) :
    (∃ name pos, err = .undeclared name pos) ∨ err.IsMismatch := by
  cases h with
  | ifTruth _ _ | whileTruth _ _ => exact .inr (ParseError.isMismatch _ _ _ _)
  | bound _ h | init h | value _ _ h => exact .inr h.isMismatch
  | target h => exact h.cases_error

end

/-! ## §6. Rules in environments that agree

A rule looks at the types of expressions and names and at functions, and these are
the same. -/

section
variable {a b : Env} (h : a.Agrees b)
include h

theorem Assignable.congr {declared : Ty} {e : Expr} (hassignable : Assignable a declared e) :
    Assignable b declared e := by
  induction hassignable with
  | group _ ih => exact .group ih
  | list _ ih => exact .list ih
  | plain he hfound haccepts => exact .plain he (infer_alike h _ ▸ hfound) haccepts

theorem Unassignable.congr {name : Bytes} {declared : Ty} {pos : Pos} {e : Expr}
    {err : ParseError} (hun : Unassignable a name declared pos e err) :
    Unassignable b name declared pos e err := by
  induction hun with
  | group _ ih => exact .group ih
  | noList hno => exact .noList hno
  | element he _ ih => exact .element he ih
  | plain he hfound hrejects => exact .plain he (infer_alike h _ ▸ hfound) hrejects

theorem IndexViolates.congr {pos : Pos} {t : Option Ty} {indices : List Expr} {err : ParseError}
    (hviolates : IndexViolates a pos t indices err) : IndexViolates b pos t indices err := by
  induction hviolates with
  | index hfound herr => exact .index (infer_alike h _ ▸ hfound) herr
  | indexed herr => exact .indexed herr
  | next helem _ ih => exact .next helem ih

theorem PlaceViolates.congr {pos : Pos} {name : Bytes} {indices : List Expr} {err : ParseError}
    (hviolates : PlaceViolates a pos name indices err) : PlaceViolates b pos name indices err := by
  cases hviolates with
  | unbound hnone => exact .unbound (h.types_eq ▸ hnone)
  | indices ht hindices => exact .indices (h.types_eq ▸ ht) (hindices.congr h)

theorem Expr.Violates.congr {e : Expr} {err : ParseError} (hviolates : e.Violates a err) :
    e.Violates b err := by
  cases hviolates with
  | access hplace => exact .access (hplace.congr h)
  | receiver hplace => exact .receiver (hplace.congr h)
  | negated ht herr => exact .negated (infer_alike h _ ▸ ht) herr
  | agreement hl hr herr =>
    exact .agreement (infer_alike h _ ▸ hl) (infer_alike h _ ▸ hr) herr
  | operand he ht herr => exact .operand he (infer_alike h _ ▸ ht) herr
  | truth he ht herr => exact .truth he (infer_alike h _ ▸ ht) herr
  | element he ht hmerge => exact .element he (infer_alike h _ ▸ ht) hmerge
  | arity hf hlen => exact .arity (h.function?_eq _ ▸ hf) hlen
  | argument hf hlen hmem hun => exact .argument (h.function?_eq _ ▸ hf) hlen hmem (hun.congr h)

theorem Stmt.Violates.congr {s : Stmt} {err : ParseError} (hviolates : s.Violates a err) :
    s.Violates b err := by
  cases hviolates with
  | ifTruth ht hne => exact .ifTruth (infer_alike h _ ▸ ht) hne
  | whileTruth ht hne => exact .whileTruth (infer_alike h _ ▸ ht) hne
  | bound he hun => exact .bound he (hun.congr h)
  | init hun => exact .init (hun.congr h)
  | target hplace => exact .target (hplace.congr h)
  | value ht helem hun =>
    exact .value (h.types_eq ▸ ht) (inferIndices_alike h _ _ _ ▸ helem)
      (hun.congr h)

theorem Expr.CallsRight.congr {e : Expr} (hright : e.CallsRight a) : e.CallsRight b := by
  intro p name args f he hf
  obtain ⟨hlen, hargs⟩ := hright p name args f he (h.function?_eq name ▸ hf)
  exact ⟨hlen, fun param arg hmem => (hargs param arg hmem).congr h⟩

end

end Lumen
