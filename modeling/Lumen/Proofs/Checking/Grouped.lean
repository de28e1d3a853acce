/-
  Lumen.Proofs.Checking.Grouped — parentheses do not matter to any check.

  Two programs may differ in the parentheses that their expressions stand in, and so
  in places.  The checks look through parentheses in four ways: the type of a group
  is that of what it holds, a declared type is asked of what it holds, a condition is
  named without its group, and the constant of a group is that of what it holds.  A
  list literal in parentheses is still checked element by element.

  What is found in place of a wanted type may be named by its text, or by its type
  alone if it stands in parentheses.  So two errors are compared by their gist: the
  kind, what was wanted, and the name.  By these the checks come out alike, and those
  that pass leave the same scopes.

  Main statements:
    * `Expr.bare` / `Stmt.bare` — trees without parentheses and places;
    * `Env.judge_bare` — the judgements on expressions;
    * `Expr.constant_bare`, `Env.store_bare` — constants and assignments;
    * `Stmt.check_bare` — the walk over a statement;
    * `parentheses_transparent` — statements that differ in parentheses only.
-/
import Lumen.Proofs.Checking.Effects
import Lumen.Proofs.Checking.Rewritten

namespace Lumen

/-! ## §1. Verdicts -/

/-- What an error says of a program in which parentheses do not count. -/
structure ParseError.Gist where
  kind : String
  expected : Bytes
  name : Bytes
deriving DecidableEq, Repr

def ParseError.gist (e : ParseError) : Gist := ⟨e.kindName, e.expectedText, e.name⟩

/-- The gist of an error, or a failure that is none. -/
def Failure.gist : Failure → Failure ⊕ ParseError.Gist
  | .error e => .inr e.gist
  | f => .inl f

section
variable {α β ε γ : Type}

/-- What a check has come to: its result, or the gist of its error. -/
abbrev verdict (r : Except ParseError α) : Except ParseError.Gist α := r.mapError ParseError.gist

/-- What a walk has come to: its environment, or the gist of its error. -/
abbrev Walk.verdict (r : Walk) : Except (Failure ⊕ ParseError.Gist) Env :=
  r.mapError Failure.gist

/-- Two results with errors that look the same are the same, or errors that look the
    same. -/
theorem mapError_eq_cases {view : ε → γ} {r r' : Except ε α}
    (h : r.mapError view = r'.mapError view) :
    (∃ a, r = .ok a ∧ r' = .ok a) ∨ ∃ e e', r = .error e ∧ r' = .error e' ∧ view e = view e' := by
  cases r with
  | ok a =>
    cases r' with
    | ok a' => exact .inl ⟨a, rfl, congrArg Except.ok (Except.ok.inj h).symm⟩
    | error e' => cases h
  | error e =>
    cases r' with
    | ok a' => cases h
    | error e' => exact .inr ⟨e, e', rfl, rfl, Except.error.inj h⟩

/-- What errors look like passes through sequences of checks. -/
theorem bind_mapError {view : ε → γ} {r r' : Except ε α} {k k' : α → Except ε β}
    (h : r.mapError view = r'.mapError view)
    (hk : ∀ a, (k a).mapError view = (k' a).mapError view) :
    (r >>= k).mapError view = (r' >>= k').mapError view := by
  rcases mapError_eq_cases h with ⟨a, rfl, rfl⟩ | ⟨e, e', rfl, rfl, hview⟩
  · exact hk a
  · exact congrArg Except.error hview

theorem mapError_orFail {r r' : Except ParseError α} (h : verdict r = verdict r') :
    (orFail r).mapError Failure.gist = (orFail r').mapError Failure.gist := by
  rcases mapError_eq_cases h with ⟨a, rfl, rfl⟩ | ⟨e, e', rfl, rfl, hgist⟩
  · rfl
  · exact congrArg (Except.error ∘ Sum.inr) hgist

end

/-! ## §2. Trees without parentheses -/

namespace Expr

mutual
/-- The same expression with no parentheses in it, and all places forgotten. -/
def bare : Expr → Expr
  | literal _ v => literal {} v
  | access _ name indices => access {} name (bareAll indices)
  | neg _ e => neg {} e.bare
  | binary _ op lhs rhs => binary {} op lhs.bare rhs.bare
  | logical _ op lhs rhs => logical {} op lhs.bare rhs.bare
  | group _ inner => inner.bare
  | list _ elements => list {} (bareAll elements)
  | call _ name args => call {} name (bareAll args)
  | method _ name indices m args => method {} name (bareAll indices) m (bareAll args)

/-- The same expressions with no parentheses in them, and all places forgotten. -/
def bareAll : List Expr → List Expr
  | [] => []
  | e :: rest => e.bare :: bareAll rest
end

/-- Parentheses around an expression are gone. -/
@[simp] theorem bare_group (p : Pos) (e : Expr) : (group p e).bare = e.bare := by rw [bare]

theorem bareAll_eq_map (es : List Expr) : bareAll es = es.map bare := by
  induction es with
  | nil => rfl
  | cons e rest ih => rw [bareAll, List.map_cons, ih]

theorem pos_bare (e : Expr) : e.bare.pos = {} := by
  induction e with
  | group p inner ih => rw [bare_group, ih]
  | _ => rw [bare]; rfl

theorem rewriting_bare : Rewriting bare fun _ => {} where
  pos := pos_bare
  literal _ _ := by rw [bare]
  access _ _ _ := by rw [bare, bareAll_eq_map]
  neg _ _ := by rw [bare]
  binary _ _ _ _ := by rw [bare]
  logical _ _ _ _ := by rw [bare]
  group p e := .inl (bare_group p e)
  list _ _ := by rw [bare, bareAll_eq_map]
  call _ _ _ := by rw [bare, bareAll_eq_map]
  method _ _ _ _ _ := by rw [bare, bareAll_eq_map, bareAll_eq_map]

/-- Parentheses are no part of a constant. -/
theorem constant_bare (e : Expr) : e.bare.constant = e.constant := rewriting_bare.constant e

end Expr

namespace Stmt

mutual
/-- The same statement with no parentheses in its expressions, and all places
    forgotten. -/
def bare : Stmt → Stmt
  | expr _ e => expr {} e.bare
  | assign _ name indices value => assign {} name (Expr.bareAll indices) value.bare
  | let_ _ name type init => let_ {} name type init.bare
  | print _ value => print {} value.bare
  | if_ _ cond (.mk _ ss) none => if_ {} cond.bare (.mk {} (bareAll ss)) none
  | if_ _ cond (.mk _ ss) (some (.mk _ others)) =>
    if_ {} cond.bare (.mk {} (bareAll ss)) (some (.mk {} (bareAll others)))
  | while_ _ cond (.mk _ ss) => while_ {} cond.bare (.mk {} (bareAll ss))
  | for_ _ var start stop (.mk _ ss) => for_ {} var start.bare stop.bare (.mk {} (bareAll ss))
  | fn _ name params (.mk _ ss) => fn {} name params (.mk {} (bareAll ss))
  | return_ _ none => return_ {} none
  | return_ _ (some e) => return_ {} (some e.bare)

/-- The same statements with no parentheses in their expressions, and all places
    forgotten. -/
def bareAll : List Stmt → List Stmt
  | [] => []
  | s :: rest => s.bare :: bareAll rest
end

/-- The same block with no parentheses in its expressions, and all places forgotten. -/
def bareBlock (b : Block) : Block := .mk {} (bareAll b.stmts)

section
variable (p : Pos) (cond : Expr) (body : Block)

theorem bare_if (else_ : Option Block) :
    (if_ p cond body else_).bare = if_ {} cond.bare (bareBlock body) (else_.map bareBlock) := by
  obtain ⟨q, ss⟩ := body
  rcases else_ with _ | ⟨q', others⟩
  · rw [bare]; rfl
  · rw [bare]; rfl

theorem bare_while : (while_ p cond body).bare = while_ {} cond.bare (bareBlock body) := by
  obtain ⟨q, ss⟩ := body
  rw [bare]; rfl

theorem bare_for (var : Bytes) (start stop : Expr) :
    (for_ p var start stop body).bare = for_ {} var start.bare stop.bare (bareBlock body) := by
  obtain ⟨q, ss⟩ := body
  rw [bare]; rfl

theorem bare_fn (name : Bytes) (params : List Param) :
    (fn p name params body).bare = fn {} name params (bareBlock body) := by
  obtain ⟨q, ss⟩ := body
  rw [bare]; rfl

theorem bare_return (value : Option Expr) :
    (return_ p value).bare = return_ {} (value.map Expr.bare) := by
  cases value <;> rw [bare] <;> rfl

end

end Stmt

/-! ## §3. Checks of single statements -/

namespace Env

theorem typeOf_verdict (env : Env) (name : Bytes) (pos pos' : Pos) :
    verdict (env.typeOf name pos) = verdict (env.typeOf name pos') := by
  unfold typeOf
  cases env.lookup? name <;> rfl

/-- Parentheses do not matter to a judgement. -/
theorem judge_bare (env : Env) :
    JudgementCongruence env env Expr.bare (fun _ => {}) fun _ r r' => verdict r = verdict r' where
  toRewriting := Expr.rewriting_bare
  ofOk _ := rfl
  ofBind := bind_mapError
  ofGot _ _ _ _ _ := rfl
  ofMismatch _ _ _ _ := rfl
  ofArity _ _ _ _ := rfl
  ofTypeOf name pos := env.typeOf_verdict name pos {}
  shapes _ := rfl

end Env

theorem infer_bare (env : Env) (e : Expr) :
    verdict (infer env e) = verdict (infer env e.bare) := infer_congr env.judge_bare e

theorem checkType_bare (env : Env) (declared : Ty) (e : Expr) (name : Bytes) :
    verdict (checkType env declared e name) = verdict (checkType env declared e.bare name) :=
  checkType_congr env.judge_bare declared e name

namespace Env

theorem checkTruth_bare (env : Env) (cond : Expr) :
    verdict (env.checkTruth cond) = verdict (env.checkTruth cond.bare) :=
  checkTruth_congr env.judge_bare cond

theorem checkBounds_bare (env : Env) (var : Bytes) (start stop : Expr) :
    verdict (env.checkBounds var start stop)
      = verdict (env.checkBounds var start.bare stop.bare) :=
  checkBounds_congr env.judge_bare var start stop

theorem assign_verdict (env : Env) (name : Bytes) (value : Value) (pos pos' : Pos) :
    verdict (env.assign name value (some pos)) = verdict (env.assign name value (some pos')) := by
  unfold assign ScopeStack.assign
  cases env.scopes.lookup? name with
  | none => rfl
  | some b =>
    dsimp only
    cases value.misfit? b.type <;> rfl

theorem store_bare (env : Env) (pos : Pos) (name : Bytes) (indices : List Expr) (value : Expr) :
    verdict (env.store pos name indices value)
      = verdict (env.store {} name (Expr.bareAll indices) value.bare) := by
  rw [Expr.bareAll_eq_map]
  exact store_congr (S := fun r r' => verdict r = verdict r') env.judge_bare bind_mapError
    (fun v => env.assign_verdict name v pos {}) indices value

/-- What a statement declares is the same value. -/
theorem enact_bare (env : Env) (s : Stmt) : env.enact s.bare = env.enact s := by
  cases s with
  | let_ p name type init =>
    rw [Stmt.bare]
    show env.declare name type init.bare.constant = _
    rw [init.constant_bare]
    rfl
  | if_ p cond then_ else_ => rw [Stmt.bare_if]; rfl
  | while_ p cond body => rw [Stmt.bare_while]; rfl
  | for_ p var start stop body => rw [Stmt.bare_for]; rfl
  | fn p name params body => rw [Stmt.bare_fn]; rfl
  | return_ p value => rw [Stmt.bare_return]; rfl
  | _ => rw [Stmt.bare]; rfl

end Env

/-! ## §4. Walks -/

section
variable {ss : List Stmt}
  (h : ∀ s ∈ ss, ∀ env : Env, Walk.verdict (s.check env) = Walk.verdict (s.bare.check env))
include h

theorem checkStmts_bare_of (env : Env) :
    Walk.verdict (checkStmts env ss) = Walk.verdict (checkStmts env (Stmt.bareAll ss)) := by
  induction ss generalizing env with
  | nil => rw [Stmt.bareAll]
  | cons s rest ih =>
    obtain ⟨hhead, htail⟩ := List.forall_mem_cons.mp h
    rw [Stmt.bareAll, checkStmts, checkStmts]
    apply bind_mapError (hhead env)
    intro env₁
    -- from the same environment the same value is declared
    rw [env₁.enact_bare s]
    exact bind_mapError rfl fun env₂ => ih htail env₂

end

theorem blockWalk_bare_of (b : Block)
    (h : ∀ s ∈ b.stmts, ∀ env : Env, Walk.verdict (s.check env) = Walk.verdict (s.bare.check env))
    (env : Env) (locals : List Param) :
    Walk.verdict (Parse.blockWalk env locals b)
      = Walk.verdict (Parse.blockWalk env locals (Stmt.bareBlock b)) :=
  bind_mapError rfl fun inside => bind_mapError (checkStmts_bare_of h inside) fun _ => rfl

/-- Parentheses do not matter to the walk over a statement, by induction on the
    statement: the blocks in it are walked over alike. -/
theorem Stmt.check_bare (s : Stmt) (env : Env) :
    Walk.verdict (s.check env) = Walk.verdict (s.bare.check env) := by
  have hinfer : ∀ (env : Env) (e : Expr), Walk.verdict (orFail (infer env e) >>= fun _ => pure env)
      = Walk.verdict (orFail (infer env e.bare) >>= fun _ => pure env) :=
    fun env e => bind_mapError (mapError_orFail (infer_bare env e)) fun _ => rfl
  induction s generalizing env with
  | expr p e =>
    rw [bare, check, check]
    exact hinfer env e
  | assign p name indices value =>
    rw [bare, check, check]
    exact mapError_orFail (env.store_bare p name indices value)
  | let_ p name type init =>
    rw [bare, check, check]
    exact bind_mapError (mapError_orFail (checkType_bare env type init name)) fun _ => rfl
  | print p value =>
    rw [bare, check, check]
    exact hinfer env value
  | if_ p cond q ss else_ ih ih' =>
    have hcond := mapError_orFail (env.checkTruth_bare cond)
    rw [bare_if]
    cases else_ with
    | none =>
      rw [Option.map_none, Parse.check_if_none, Parse.check_if_none]
      exact bind_mapError hcond fun _ => blockWalk_bare_of (.mk q ss) ih env []
    | some others =>
      rw [Option.map_some, Parse.check_if_some, Parse.check_if_some]
      refine bind_mapError hcond fun _ => bind_mapError (blockWalk_bare_of (.mk q ss) ih env []) ?_
      exact fun env₁ => blockWalk_bare_of others (ih' others rfl) env₁ []
  | while_ p cond q ss ih =>
    rw [bare_while, Parse.check_while, Parse.check_while]
    exact bind_mapError (mapError_orFail (env.checkTruth_bare cond)) fun _ =>
      blockWalk_bare_of (.mk q ss) ih env []
  | for_ p var start stop q ss ih =>
    rw [bare_for, Parse.check_for, Parse.check_for]
    exact bind_mapError (mapError_orFail (env.checkBounds_bare var start stop)) fun _ =>
      blockWalk_bare_of (.mk q ss) ih env _
  | fn p name params q ss ih =>
    rw [bare_fn, Parse.check_fn, Parse.check_fn]
    exact blockWalk_bare_of (.mk q ss) ih env params
  | return_ p value =>
    cases value with
    | none => rw [bare]; rfl
    | some e =>
      rw [bare, check, check]
      exact hinfer env e

/-! ## §5. Statements that differ in parentheses -/

/-- A function without its body. -/
def Signature.head (f : Signature) : Signature := { f with body := none }

namespace Env

/-- An environment without the bodies of its functions. -/
def heads (env : Env) : Env := { env with functions := env.functions.map Signature.head }

theorem register_heads (env : Env) (name : Bytes) (params : List Param) (body body' : Option Block)
    (pos pos' : Pos) :
    verdict ((env.register ⟨name, params, body⟩ pos).map heads)
      = verdict ((env.register ⟨name, params, body'⟩ pos').map heads) := by
  unfold register
  dsimp only
  cases env.function? name with
  | some f => rfl
  | none => simp [Except.map, heads, Signature.head]

/-- At top level a function is registered without a look at its body, and any other
    statement takes effect as in a block. -/
theorem enactTop_bare (env : Env) (s : Stmt) :
    verdict ((env.enactTop s).map heads) = verdict ((env.enactTop s.bare).map heads) := by
  have hblock := env.enact_bare s
  cases s with
  | fn p name params body =>
    rw [Stmt.bare_fn]
    exact env.register_heads name params _ _ p {}
  | if_ p cond then_ else_ => rw [Stmt.bare_if]; rfl
  | while_ p cond body => rw [Stmt.bare_while]; rfl
  | for_ p var start stop body => rw [Stmt.bare_for]; rfl
  | return_ p value => rw [Stmt.bare_return]; rfl
  | let_ p name type init =>
    rw [Stmt.bare] at hblock ⊢
    exact congrArg (fun r => verdict (Except.map heads r)) hblock.symm
  | _ => rw [Stmt.bare]; rfl

end Env

namespace Parse

/-- The walks tell what the checked runs come to. -/
theorem statement_bare {on off : Options} (hon : on.checked = true) (hoff : off.checked = false)
    {a a' : Stmt} (h : a.bare = a'.bare) {s s' t t' : State} (henv : s.env = s'.env)
    (hread : statement off s = .ok a t) (hread' : statement off s' = .ok a' t') :
    (∃ u u', statement on s = .ok a u ∧ statement on s' = .ok a' u' ∧ u.env = u'.env)
      ∨ ∃ f f' u u', statement on s = .error f u ∧ statement on s' = .error f' u'
        ∧ f.gist = f'.gist := by
  -- each checked run ends as the walk over what the unchecked one has read
  have hwalks : Walk.verdict (a.check s.env) = Walk.verdict (a'.check s'.env) := by
    rw [a.check_bare, h, ← a'.check_bare, henv]
  have hrun := run_of_walk (statement_then_walk hon hoff hread s.env s.trace)
  have hrun' := run_of_walk (statement_then_walk hon hoff hread' s'.env s'.trace)
  rcases mapError_eq_cases hwalks with ⟨env, ha, ha'⟩ | ⟨f, f', ha, ha', hgist⟩
  · obtain ⟨u, hu, hleaves, -⟩ := hrun.1 env ha
    obtain ⟨u', hu', hleaves', -⟩ := hrun'.1 env ha'
    exact .inl ⟨u, u', hu, hu', hleaves.trans hleaves'.symm⟩
  · obtain ⟨u, hu⟩ := hrun.2 f ha
    obtain ⟨u', hu'⟩ := hrun'.2 f' ha'
    exact .inr ⟨f, f', u, u', hu, hu', hgist⟩

/-- Parentheses never change checking.  Let two statements be the same but for the
    parentheses in their expressions, and for places; so are a statement and the same
    with any of the expressions in it put in parentheses.  Whatever scopes are open and
    whatever functions are known, the walks over both end in the same environment, or
    fail with the same kind of error, the same text of what was wanted and the same
    name.  So it is when the statements take effect, but for the bodies with which
    functions are registered.  And if a parser that does not check reads the one from
    one state and the other from another, then in a common environment a parser that
    checks reads both and leaves the same environment, or fails on both likewise. -/
theorem parentheses_transparent {a a' : Stmt} (h : a.bare = a'.bare) :
    (∀ env : Env,
      Walk.verdict (a.check env) = Walk.verdict (a'.check env)
        ∧ env.enact a = env.enact a'
        ∧ verdict ((env.enactTop a).map Env.heads) = verdict ((env.enactTop a').map Env.heads))
      ∧ ∀ (on off : Options), on.checked = true → off.checked = false →
        ∀ s s' t t' : State, s.env = s'.env →
          statement off s = .ok a t → statement off s' = .ok a' t' →
          (∃ u u', statement on s = .ok a u ∧ statement on s' = .ok a' u' ∧ u.env = u'.env)
            ∨ ∃ f f' u u', statement on s = .error f u ∧ statement on s' = .error f' u'
              ∧ f.gist = f'.gist := by
  refine ⟨fun env => ⟨?_, ?_, ?_⟩, fun on off hon hoff s s' t t' henv hread hread' => ?_⟩
  · rw [a.check_bare, h, ← a'.check_bare]
  · rw [← env.enact_bare a, h, env.enact_bare a']
  · rw [env.enactTop_bare a, h, ← env.enactTop_bare a']
  · exact statement_bare hon hoff h henv hread hread'

/-- The statement `let x: list<int> = [-1]`, and the same with the list and the number
    in parentheses: they are read and checked alike. -/
theorem parentheses_transparent_list :
    let front : List Token :=
      [⟨.word .let_, {}⟩, ⟨.ident [120], {}⟩, ⟨.mark .colon, {}⟩, ⟨.word .list, {}⟩,
        ⟨.mark .lt, {}⟩, ⟨.word .int, {}⟩, ⟨.mark .gt, {}⟩, ⟨.mark .equal, {}⟩]
    let s : State :=
      { cursor := .ofTokens (front ++ [⟨.mark .lbracket, {}⟩, ⟨.mark .minus, {}⟩,
          ⟨.literal (.int 1), {}⟩, ⟨.mark .rbracket, {}⟩]) }
    let s' : State :=
      { cursor := .ofTokens (front ++ [⟨.mark .lparen, {}⟩, ⟨.mark .lbracket, {}⟩,
          ⟨.mark .minus, {}⟩, ⟨.mark .lparen, {}⟩, ⟨.literal (.int 1), {}⟩, ⟨.mark .rparen, {}⟩,
          ⟨.mark .rbracket, {}⟩, ⟨.mark .rparen, {}⟩]) }
    let a : Stmt := .let_ {} [120] (.list .int) (.list {} [.neg {} (.literal {} (.int 1))])
    let a' : Stmt :=
      .let_ {} [120] (.list .int)
        (.group {} (.list {} [.neg {} (.group {} (.literal {} (.int 1)))]))
    a.bare = a'.bare
      ∧ (∀ env : Env, Walk.verdict (a.check env) = Walk.verdict (a'.check env))
      ∧ ∃ u u', statement { checked := true, trace := false } s = .ok a u
        ∧ statement { checked := true, trace := false } s' = .ok a' u' ∧ u.env = u'.env := by
  intro front s s' a a'
  have hbare : a.bare = a'.bare := rfl
  have hread : ∃ t, statement { checked := false, trace := false } s = .ok a t := ⟨_, rfl⟩
  have hread' : ∃ t, statement { checked := false, trace := false } s' = .ok a' t := ⟨_, rfl⟩
  obtain ⟨t, ht⟩ := hread
  obtain ⟨t', ht'⟩ := hread'
  obtain ⟨hwalks, hruns⟩ := parentheses_transparent hbare
  refine ⟨hbare, fun env => (hwalks env).1, ?_⟩
  -- the list fits the declared type, so the runs do not fail
  refine (hruns _ _ rfl rfl s s' t t' rfl ht ht').resolve_right ?_
  rintro ⟨f, -, u, -, hfails, -⟩
  obtain ⟨b, v, hb⟩ : ∃ b v, statement { checked := true, trace := false } s = .ok b v :=
    Ends.gives (by decide +kernel)
  rw [hb] at hfails
  cases hfails

end Parse
end Lumen
