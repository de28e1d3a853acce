/-
  Lumen.Proofs.Scoping.Stored — what a statement leaves in the bindings around it.

  An assignment in the text of a statement stores what is known of its value in the
  binding that its name resolves to, and one into an element stores that nothing is
  known any more.  A walk over the statement makes all of these stores in the order of
  the text, each of them once.  It does not ask whether the code of a branch or a body
  runs: so what a binding holds afterwards is what the last store into it left there,
  and if there is none, what it held before.

  In particular a value may be known after a loop that never runs.

  Main statements:
    * `Stmt.stores` — the stores in a statement, in the order of the text;
    * `Overwrites` — what some stores leave, with `Overwrites.trans`;
    * `Stmt.check_leaves` — statements, with all that stands in their blocks;
    * `statement_stores` — the same of a parser, in any state;
    * `skipped_store_known` — a value that code which may not run has made known.
-/
import Lumen.Proofs.Checking.Effects

namespace Lumen

/-! ## §1. Stores -/

/-- An assignment: what it stores into, and what is known of that afterwards. -/
structure Store where
  target : Use
  value : Value

namespace Store

/-- A store, seen from outside a block that it stands in. -/
def inside (b : OpenBlock) (st : Store) : Store := { st with target := st.target.inside b }

/-- A store changes the binding of a name in scope `i`. -/
def Reaches (st : Store) (s : ScopeStack) (i : Nat) (name : Bytes) : Prop :=
  st.target.name = name ∧ st.target.ResolvesTo s i

end Store

mutual
/-- The stores in a statement, in the order of the text, each with the blocks of the
    statement around it. -/
def Stmt.stores : Stmt → List Store
  | .assign p name indices value =>
    [⟨{ name, pos := p, isTarget := true },
      match indices with
      | [] => value.constant
      | _ :: _ => .unknown⟩]
  | .if_ _ _ (.mk _ ss) none => storesIn [] [] ss
  | .if_ _ _ (.mk _ ss) (some (.mk _ others)) => storesIn [] [] ss ++ storesIn [] [] others
  | .while_ _ _ (.mk _ ss) => storesIn [] [] ss
  | .for_ _ var _ _ (.mk _ ss) => storesIn [⟨var, .int⟩] [] ss
  | .fn _ _ params (.mk _ ss) => storesIn params [] ss
  | .expr _ _ | .let_ _ _ _ _ | .print _ _ | .return_ _ _ => []

/-- The stores in the statements that come after `before` in a block. -/
def storesIn (locals : List Param) (before : List Stmt) : List Stmt → List Store
  | [] => []
  | s :: rest =>
    s.stores.map (Store.inside ⟨locals, before⟩) ++ storesIn locals (before ++ [s]) rest
end

/-! ## §2. What stores leave -/

/-- A binding after some stores is as it was, if none of them reaches it, and has the
    value of the last that does otherwise. -/
def Overwrites (stores : List Store) (before after : Env) : Prop :=
  ∀ i name,
    (after.scopes.binding? i name = before.scopes.binding? i name
      ∧ ∀ st ∈ stores, ¬ st.Reaches before.scopes i name)
    ∨ ∃ front st rest, stores = front ++ st :: rest ∧ st.Reaches before.scopes i name
      ∧ (∀ later ∈ rest, ¬ later.Reaches before.scopes i name)
      ∧ after.scopes.binding? i name
        = (before.scopes.binding? i name).map fun b => ⟨b.type, st.value⟩

namespace Overwrites

variable {us vs : List Store} {a b c : Env}

theorem refl (env : Env) : Overwrites [] env env :=
  fun _ _ => .inl ⟨rfl, List.forall_mem_nil _⟩

/-- No scope gets or loses a name. -/
theorem isSome_binding? (h : Overwrites us a b) (i : Nat) (name : Bytes) :
    (b.scopes.binding? i name).isSome = (a.scopes.binding? i name).isSome := by
  rcases h i name with ⟨heq, -⟩ | ⟨_, _, _, -, -, -, heq⟩
  · rw [heq]
  · rw [heq, Option.isSome_map]

theorem reaches_iff (h : Overwrites us a b) (st : Store) (i : Nat) (name : Bytes) :
    st.Reaches b.scopes i name ↔ st.Reaches a.scopes i name :=
  and_congr_right fun _ => and_congr_right fun _ =>
    ScopeStack.nearest_congr fun j => h.isSome_binding? j st.target.name

/-- Some stores after others. -/
theorem trans (h : Overwrites us a b) (h' : Overwrites vs b c) : Overwrites (us ++ vs) a c := by
  intro i name
  rcases h' i name with ⟨heq', hnone'⟩ | ⟨front, st, rest, rfl, hst, hrest, heq'⟩
  · -- none of the later stores reaches the binding
    have hlater : ∀ st ∈ vs, ¬ st.Reaches a.scopes i name := by
      intro st hmem hst
      exact hnone' st hmem ((h.reaches_iff st i name).mpr hst)
    rcases h i name with ⟨heq, hnone⟩ | ⟨front, st, rest, rfl, hst, hrest, heq⟩
    · exact .inl ⟨heq'.trans heq, List.forall_mem_append.mpr ⟨hnone, hlater⟩⟩
    · refine .inr ⟨front, st, rest ++ vs, by simp, hst, ?_, heq'.trans heq⟩
      exact List.forall_mem_append.mpr ⟨hrest, hlater⟩
  · refine .inr ⟨us ++ front, st, rest, by simp, (h.reaches_iff st i name).mp hst, ?_, ?_⟩
    · intro later hmem hlater
      exact hrest later hmem ((h.reaches_iff later i name).mpr hlater)
    · -- the type is the same all along
      rw [heq']
      rcases h i name with ⟨heq, -⟩ | ⟨_, _, _, -, -, -, heq⟩
      · rw [heq]
      · rw [heq, Option.map_map]
        rfl

/-- A value that is known afterwards was there before, or the last store into the
    binding has left it. -/
theorem value_cases (h : Overwrites us a b) {i : Nat} {name : Bytes} {after : Binding}
    (hafter : b.scopes.binding? i name = some after) :
    ∃ before, a.scopes.binding? i name = some before ∧ before.type = after.type
      ∧ (after.value = before.value ∧ (∀ st ∈ us, ¬ st.Reaches a.scopes i name)
        ∨ ∃ front st rest, us = front ++ st :: rest ∧ st.Reaches a.scopes i name
          ∧ (∀ later ∈ rest, ¬ later.Reaches a.scopes i name) ∧ after.value = st.value) := by
  rcases h i name with ⟨heq, hnone⟩ | ⟨front, st, rest, hsplit, hst, hrest, heq⟩
  · exact ⟨after, heq.symm.trans hafter, rfl, .inl ⟨rfl, hnone⟩⟩
  · rw [hafter] at heq
    obtain ⟨before, hbefore, rfl⟩ := Option.map_eq_some_iff.mp heq.symm
    exact ⟨before, hbefore, rfl, .inr ⟨front, st, rest, hsplit, hst, hrest, rfl⟩⟩

end Overwrites

/-! ## §3. Assignments -/

/-- Only one scope is nearest. -/
theorem ScopeStack.Nearest.unique {s : ScopeStack} {name : Bytes} {i j : Nat}
    (hi : s.Nearest name i) (hj : s.Nearest name j) : i = j := by
  have hle : ∀ {k l : Nat}, s.Nearest name k → s.Nearest name l → k ≤ l := by
    intro k l hk hl
    by_contra hlt
    have hnone := hk.2 l (Nat.lt_of_not_le hlt)
    rw [← Option.not_isSome_iff_eq_none] at hnone
    exact hnone hl.1
  exact Nat.le_antisymm (hle hi hj) (hle hj hi)

/-- A store replaces the nearest binding of its name. -/
theorem overwrites_replaceNearest {env : Env} {st : Store} (hfree : st.target.isDeclared = false)
    {b : Binding} (hb : env.lookup? st.target.name = some b) :
    Overwrites [st] env
      { env with scopes := env.scopes.replaceNearest st.target.name ⟨b.type, st.value⟩ } := by
  obtain ⟨i, hnear, hbinding⟩ := ScopeStack.lookup?_eq_some_iff.mp hb
  intro j name
  have hafter := ScopeStack.binding?_replaceNearest hnear ⟨b.type, st.value⟩ j name
  by_cases hsame : j = i ∧ name = st.target.name
  · obtain ⟨rfl, rfl⟩ := hsame
    right
    refine ⟨[], st, [], rfl, ⟨rfl, hfree, hnear⟩, List.forall_mem_nil _, ?_⟩
    rw [hafter, if_pos ⟨rfl, rfl⟩, hbinding]
    rfl
  · left
    refine ⟨by rw [hafter, if_neg hsame], List.forall_mem_singleton.mpr ?_⟩
    rintro ⟨rfl, -, hnear'⟩
    exact hsame ⟨hnear'.unique hnear, rfl⟩

/-- A walk that is not stopped leaves what some stores leave. -/
abbrev Leaves {ε : Type} (env : Env) (stores : List Store) (r : Except ε Env) : Prop :=
  Gives r (Overwrites stores env) fun _ => True

/-- Whatever comes before, it is enough to look at what is done in the end. -/
theorem gives_after {ε α β : Type} (r : Except ε α) {k : α → Except ε β} {Q : β → Prop}
    (hk : ∀ a, Gives (k a) Q fun _ => True) : Gives (r >>= k) Q fun _ => True := by
  cases r with
  | ok a => exact hk a
  | error e => exact trivial

/-- The value that is stored is known if the whole variable is assigned to. -/
theorem store_leaves (env : Env) (pos : Pos) (name : Bytes) (indices : List Expr) (value : Expr) :
    Leaves env (Stmt.stores (.assign pos name indices value))
      (env.store pos name indices value) := by
  -- an assignment overwrites the nearest binding of the name
  have hassign : ∀ v : Value, Leaves env [⟨{ name, pos, isTarget := true }, v⟩]
      (env.assign name v (some pos)) := by
    intro v
    cases hrun : env.assign name v (some pos) with
    | error e => exact trivial
    | ok env' =>
      obtain ⟨b, hb, -, rfl⟩ := Env.assign_eq_ok hrun
      have htarget : (⟨{ name, pos, isTarget := true }, v⟩ : Store).target.isDeclared = false := rfl
      exact overwrites_replaceNearest htarget hb
  unfold Env.store
  apply gives_after
  intro declared
  cases indices with
  | nil =>
    rw [Stmt.stores]
    exact gives_after _ fun _ => hassign value.constant
  | cons index rest =>
    rw [Stmt.stores]
    apply gives_after
    intro elem
    cases elem with
    | some elem => exact gives_after _ fun _ => hassign .unknown
    | none => exact gives_after _ fun _ => hassign .unknown

/-! ## §4. Statements -/

/-- What stores leave in a block, seen from outside of it. -/
theorem Inside.overwrites {outer outer' env env' : Env} {b : OpenBlock} {stores : List Store}
    (h : Inside outer b env) (h' : Inside outer' b env') (hstores : Overwrites stores env env') :
    Overwrites (stores.map (Store.inside b)) outer outer' := by
  -- a store reaches a scope from within as it does from outside
  have hreaches : ∀ (st : Store) i name, st.Reaches env.scopes (i + 1) name
      ↔ (st.inside b).Reaches outer.scopes i name :=
    fun st i name => and_congr_right fun _ => h.resolvesTo_iff st.target i
  have hnone : ∀ (others : List Store) i name,
      (∀ st ∈ others, ¬ st.Reaches env.scopes (i + 1) name) →
        ∀ st ∈ others.map (Store.inside b), ¬ st.Reaches outer.scopes i name := by
    intro others i name hothers
    rw [List.forall_mem_map]
    exact fun st hst hreach => hothers st hst ((hreaches st i name).mpr hreach)
  intro i name
  have hcases := hstores (i + 1) name
  rw [h.binding?_succ, h'.binding?_succ] at hcases
  rcases hcases with ⟨heq, hno⟩ | ⟨front, st, rest, rfl, hst, hrest, heq⟩
  · exact .inl ⟨heq, hnone stores i name hno⟩
  · refine .inr ⟨front.map (Store.inside b), st.inside b, rest.map (Store.inside b), by simp,
      (hreaches st i name).mp hst, hnone rest i name hrest, heq⟩

/-- A check leaves everything. -/
theorem leaves_check {α : Type} (env : Env) (r : Except ParseError α) :
    Leaves env [] (orFail r >>= fun _ => .ok env) :=
  gives_after _ fun _ => Overwrites.refl env

/-- The statements of a block, each of which takes effect before the next. -/
theorem checkStmts_leaves {ss : List Stmt}
    (hss : ∀ s ∈ ss, ∀ env, Leaves env s.stores (s.check env)) {outer env : Env}
    {locals : List Param} {before : List Stmt}
    (h : Inside outer ⟨locals, before⟩ env) :
    Leaves outer (storesIn locals before ss) (checkStmts env ss >>= Env.pop) := by
  induction ss generalizing outer env before with
  | nil =>
    show Leaves outer [] env.pop
    rw [h.pop_eq]
    exact Overwrites.refl outer
  | cons s rest ih =>
    obtain ⟨hhead, htail⟩ := List.forall_mem_cons.mp hss
    rw [checkStmts, storesIn]
    cases hcheck : s.check env with
    | error f => exact trivial
    | ok env₁ =>
      -- what the statement leaves is seen from outside, and the others go on from there
      have hfirst : Overwrites s.stores env env₁ := (hhead env).of_ok hcheck
      obtain ⟨outer₁, hinside, -, -⟩ := (h.step (s.check_resolves env)).of_ok hcheck
      cases henact : env₁.enact s with
      | error e =>
        show Leaves outer _ ((orFail (env₁.enact s) >>= fun env => checkStmts env rest) >>= Env.pop)
        rw [henact]
        exact trivial
      | ok env₂ =>
        have hrest := ih htail ((hinside.enact s).of_ok henact)
        show Leaves outer _ ((orFail (env₁.enact s) >>= fun env => checkStmts env rest) >>= Env.pop)
        rw [henact]
        exact hrest.weaken fun env' h' => (h.overwrites hinside hfirst).trans h'

/-- A block in a scope of its own. -/
theorem checkBlock_leaves {ss : List Stmt}
    (hss : ∀ s ∈ ss, ∀ env, Leaves env s.stores (s.check env)) (env : Env) (locals : List Param) :
    Leaves env (storesIn locals [] ss)
      (orFail (env.push.declareAll locals) >>= fun env => checkStmts env ss >>= Env.pop) := by
  obtain ⟨inside, hdeclare, hinside⟩ := (Inside.push env).declareAll locals
  rw [hdeclare]
  exact checkStmts_leaves hss hinside

/-- A statement leaves what its stores leave, in the order of the text, whether or not
    the code that they stand in runs. -/
theorem Stmt.check_leaves (s : Stmt) (env : Env) : Leaves env s.stores (s.check env) := by
  induction s generalizing env with
  | expr p e | print p e =>
    rw [Stmt.check, Stmt.stores]
    exact leaves_check env _
  | let_ p name type init =>
    rw [Stmt.check, Stmt.stores]
    exact leaves_check env _
  | return_ p value =>
    cases value with
    | none =>
      rw [Stmt.check, Stmt.stores]
      exact Overwrites.refl env
    | some e =>
      rw [Stmt.check, Stmt.stores]
      exact leaves_check env _
  | assign p name indices value =>
    rw [Stmt.check]
    exact gives_orFail.mpr (store_leaves env p name indices value)
  | if_ p cond q ss else_ ihs ihelse =>
    have hthen : Leaves env (storesIn [] [] ss) (checkStmts env.push ss >>= Env.pop) :=
      checkBlock_leaves ihs env []
    cases else_ with
    | none =>
      rw [Stmt.check, Stmt.stores]
      exact gives_after _ fun _ => hthen
    | some b =>
      obtain ⟨q', others⟩ := b
      rw [Stmt.check, Stmt.stores]
      apply gives_after
      intro _
      have helse : ∀ env : Env, Leaves env (storesIn [] [] others)
          (checkStmts env.push others >>= Env.pop) := fun env =>
        checkBlock_leaves (ihelse _ rfl) env []
      -- the stores of both blocks are left, though one of them runs at most
      have hboth := hthen.bind fun env' h' => (helse env').weaken fun _ h'' => h'.trans h''
      simp only [bind_assoc] at hboth
      exact hboth
  | while_ p cond q ss ih =>
    rw [Stmt.check, Stmt.stores]
    exact gives_after _ fun _ => checkBlock_leaves ih env []
  | for_ p var start stop q ss ih =>
    rw [Stmt.check, Stmt.stores]
    exact gives_after _ fun _ => checkBlock_leaves ih env _
  | fn p name params q ss ih =>
    rw [Stmt.check, Stmt.stores]
    exact checkBlock_leaves ih env params

/-! ## §5. Parsers -/

/-- Whether the code of a statement's blocks may not run at all. -/
def Stmt.maySkip : Stmt → Bool
  | .while_ _ _ _ | .for_ _ _ _ _ _ | .fn _ _ _ _ | .if_ _ _ _ none => true
  | _ => false

namespace Parse

/-- **A store counts whether or not it runs.**  When a parser in any state has accepted a
    statement, each binding of a scope that was there before holds what the last assignment
    to it in the text of the statement stores, and what it held before if there is none.  So
    if its value is known, then it was known before, or that assignment is to the whole
    variable and has this constant. -/
theorem statement_stores (trace : Bool) {s t : State} {a : Stmt}
    (h : statement { checked := true, trace } s = .ok a t) :
    Overwrites a.stores s.env t.env
      ∧ ∀ i name after, t.env.scopes.binding? i name = some after →
        ∃ before, s.env.scopes.binding? i name = some before ∧ before.type = after.type
          ∧ (after.value = before.value
            ∨ ∃ st ∈ a.stores, st.Reaches s.env.scopes i name ∧ after.value = st.value) := by
  have hstores : Overwrites a.stores s.env t.env :=
    (a.check_leaves s.env).of_ok (statement_walks rfl h)
  refine ⟨hstores, ?_⟩
  intro i name after hafter
  obtain ⟨before, hbefore, htype, hcases⟩ := hstores.value_cases hafter
  refine ⟨before, hbefore, htype, ?_⟩
  rcases hcases with ⟨hsame, -⟩ | ⟨front, st, rest, hsplit, hst, -, hvalue⟩
  · exact .inl hsame
  · exact .inr ⟨st, by simp [hsplit], hst, hvalue⟩

/-- A parser before `while false x = 2 end`; the value of `x` is one. -/
def skipping : State where
  cursor := .ofTokens [⟨.word .while_, {}⟩, ⟨.literal (.bool false), {}⟩, ⟨.ident [120], {}⟩,
    ⟨.mark .equal, {}⟩, ⟨.literal (.int 2), {}⟩, ⟨.word .end_, {}⟩, ⟨.eof, {}⟩]
  env := { scopes := { global := [([120], ⟨.int, .scalar (.int 1)⟩)] } }

/-- Whether a parser gives a statement whose code may not run, after which an integer is
    known to be the value of a name in the innermost scope. -/
def knowsAfter (m : ParseM Stmt) (s : State) (name : Bytes) (n : Int64) : Bool :=
  match m s with
  | .ok a t => a.maySkip && (t.env.scopes.binding? 0 name).any fun b =>
      match b.value with
      | .scalar v => v == .int n
      | _ => false
  | .error _ _ => false

theorem exists_of_knowsAfter {m : ParseM Stmt} {s : State} {name : Bytes} {n : Int64}
    (h : knowsAfter m s name n = true) :
    ∃ a t b, m s = .ok a t ∧ a.maySkip = true ∧ t.env.scopes.binding? 0 name = some b
      ∧ b.value = .scalar (.int n) := by
  unfold knowsAfter at h
  cases hrun : m s with
  | error f t =>
    rw [hrun] at h
    cases h
  | ok a t =>
    rw [hrun] at h
    simp only [Bool.and_eq_true, Option.any_eq_true] at h
    obtain ⟨hskip, b, hb, hvalue⟩ := h
    refine ⟨a, t, b, rfl, hskip, hb, ?_⟩
    split at hvalue
    · next v hv => rw [hv, eq_of_beq hvalue]
    · cases hvalue

theorem knowsAfter_skipping :
    knowsAfter (statement { checked := true, trace := false }) skipping [120] 2 = true := by
  decide +kernel

/-- The loop is accepted, and the assignment in its body tells the value of `x`. -/
theorem statement_stores_skipped :
    ∃ a t, statement { checked := true, trace := false } skipping = .ok a t
      ∧ (∃ b, t.env.scopes.binding? 0 [120] = some b ∧ b.value = .scalar (.int 2))
      ∧ Overwrites a.stores skipping.env t.env
      ∧ ∀ i name after, t.env.scopes.binding? i name = some after →
        ∃ before, skipping.env.scopes.binding? i name = some before ∧ before.type = after.type
          ∧ (after.value = before.value
            ∨ ∃ st ∈ a.stores, st.Reaches skipping.env.scopes i name
              ∧ after.value = st.value) := by
  obtain ⟨a, t, b, hrun, -, hb, hvalue⟩ := exists_of_knowsAfter knowsAfter_skipping
  exact ⟨a, t, hrun, ⟨b, hb, hvalue⟩, statement_stores false hrun⟩

/-- A value may be known after a statement whose code may not run, and was another one
    before: the loop is never entered, but two is known to be the value of `x`. -/
theorem skipped_store_known :
    ¬ ∀ (trace : Bool) (s t : State) (a : Stmt),
      statement { checked := true, trace } s = .ok a t → a.maySkip = true →
        ∀ i name after, t.env.scopes.binding? i name = some after → after.value.isKnown = true →
          ∃ before, s.env.scopes.binding? i name = some before ∧ before.value = after.value := by
  intro h
  obtain ⟨a, t, after, hrun, hskip, hafter, hvalue⟩ := exists_of_knowsAfter knowsAfter_skipping
  have hknown : after.value.isKnown = true := by rw [hvalue]; rfl
  obtain ⟨before, hbefore, hsame⟩ := h false skipping t a hrun hskip 0 [120] after hafter hknown
  -- before the loop the value was one
  have hone : skipping.env.scopes.binding? 0 [120] = some ⟨.int, .scalar (.int 1)⟩ := rfl
  obtain rfl := Option.some.inj (hone.symm.trans hbefore)
  rw [hvalue] at hsame
  cases hsame

end Parse
end Lumen
