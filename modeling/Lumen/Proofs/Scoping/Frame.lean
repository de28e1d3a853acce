/-
  Lumen.Proofs.Scoping.Frame — what a walk over statements leaves as it was.

  A statement opens scopes and closes them again.  Of the scopes that were there
  before, none gets or loses a name, and no type changes; a value changes only
  where an assignment says so, that is, if the name of the assignment is not
  declared in the statement around it and resolves to that very binding.

  The same induction tells when a walk finds an undeclared name.  Every use in
  what was walked over is declared in the blocks around it or bound outside;
  the first that is neither is what the walk reports.

  Main statements:
    * `Frames` — what stays, and when a value may change;
    * `Inside` — how the scope of a block agrees with the statements before;
    * `Resolves` — both halves, for the result of a walk;
    * `checkStmts_inside` — the statements of a block, one by one;
    * `Stmt.check_resolves` / `checkBlock_resolves` — statements and blocks.
-/
import Mathlib.Tactic.Set
import Lumen.Proofs.Scoping.Bindings
import Lumen.Proofs.Checking.Static

namespace Lumen

/-! ## §1. Frames -/

/-- A use means the binding of its name in scope `i` outside of all the blocks
    around it. -/
def Use.ResolvesTo (u : Use) (s : ScopeStack) (i : Nat) : Prop :=
  u.isDeclared = false ∧ s.Nearest u.name i

/-- A use is declared in the blocks around it, or bound outside. -/
def Env.Binds (env : Env) (u : Use) : Prop :=
  u.isDeclared = true ∨ (env.lookup? u.name).isSome = true

/-- What is left of an environment after something with certain uses: all scopes
    with their names and types, all functions, and all values but those that are
    assigned to. -/
structure Frames (uses : List Use) (before after : Env) : Prop where
  depth_eq : after.depth = before.depth
  functions_eq : after.functions = before.functions
  types_eq : ∀ i name, (after.scopes.binding? i name).map Binding.type
    = (before.scopes.binding? i name).map Binding.type
  values_eq : ∀ i name, after.scopes.binding? i name = before.scopes.binding? i name
    ∨ ∃ u ∈ uses, u.isTarget = true ∧ u.name = name ∧ u.ResolvesTo before.scopes i

namespace Frames

variable {us vs : List Use} {a b c : Env}

theorem refl (uses : List Use) (env : Env) : Frames uses env env :=
  ⟨rfl, rfl, fun _ _ => rfl, fun _ _ => .inl rfl⟩

theorem isSome_binding? (h : Frames us a b) (name : Bytes) (i : Nat) :
    (b.scopes.binding? i name).isSome = (a.scopes.binding? i name).isSome := by
  simpa using congrArg Option.isSome (h.types_eq i name)

theorem resolvesTo_iff (h : Frames us a b) (u : Use) (i : Nat) :
    u.ResolvesTo b.scopes i ↔ u.ResolvesTo a.scopes i :=
  and_congr_right fun _ => ScopeStack.nearest_congr (h.isSome_binding? u.name)

theorem binds_iff (h : Frames us a b) (u : Use) : b.Binds u ↔ a.Binds u := by
  unfold Env.Binds Env.lookup?
  rw [ScopeStack.isSome_lookup?_congr (h.isSome_binding? u.name)]

/-- What is left after two things in a row. -/
theorem trans (h : Frames us a b) (h' : Frames vs b c) : Frames (us ++ vs) a c where
  depth_eq := h'.depth_eq.trans h.depth_eq
  functions_eq := h'.functions_eq.trans h.functions_eq
  types_eq i name := (h'.types_eq i name).trans (h.types_eq i name)
  values_eq i name := by
    rcases h'.values_eq i name with heq' | hassigned
    · rcases h.values_eq i name with heq | hassigned
      · exact .inl (heq'.trans heq)
      · obtain ⟨u, hu, htarget, hname, hres⟩ := hassigned
        exact .inr ⟨u, List.mem_append_left vs hu, htarget, hname, hres⟩
    · -- names are where they were, so a target resolves as it did before
      obtain ⟨u, hu, htarget, hname, hres⟩ := hassigned
      exact .inr ⟨u, List.mem_append_right us hu, htarget, hname, (h.resolvesTo_iff u i).mp hres⟩

end Frames

/-! ## §2. Results of walks -/

/-- If a failure is an undeclared name, then one of some uses is to blame. -/
def Unbound (env : Env) (uses : List Use) (f : Failure) : Prop :=
  ∀ name pos, f = .error (.undeclared name pos) →
    ∃ u ∈ uses, u.name = name ∧ u.pos = pos ∧ ¬ env.Binds u

/-- What comes of a walk over something with certain uses: they are all bound, and
    the rest of the environment stays; or it fails, and an undeclared name is
    one of the uses. -/
def Resolves (env : Env) (uses : List Use) (r : Except Failure Env) : Prop :=
  Gives r (fun env' => Frames uses env env' ∧ ∀ u ∈ uses, env.Binds u) (Unbound env uses)

section
variable {env : Env} {us vs : List Use}

theorem Unbound.mono {f : Failure} (h : Unbound env us f) (hsub : us ⊆ vs) :
    Unbound env vs f := by
  intro name pos hf
  obtain ⟨u, hu, hrest⟩ := h name pos hf
  exact ⟨u, hsub hu, hrest⟩

/-- A refusal is no undeclared name. -/
theorem unbound_of_refused {e : ParseError} (h : e.isRefused = true) :
    Unbound env us (.error e) := by
  intro name pos he
  cases he
  cases h

theorem resolves_ok : Resolves env [] (.ok env) := ⟨.refl [] env, List.forall_mem_nil _⟩

/-- One walk after another. -/
theorem Resolves.bind {r : Except Failure Env} {k : Env → Except Failure Env}
    (h : Resolves env us r) (hk : ∀ env', r = .ok env' → Resolves env' vs (k env')) :
    Resolves env (us ++ vs) (r >>= k) := by
  cases r with
  | error f => exact Unbound.mono h (List.subset_append_left us vs)
  | ok env₁ =>
    obtain ⟨hframes, hbound⟩ := h
    apply (hk env₁ rfl).mono
    · intro env₂ h₂
      refine ⟨hframes.trans h₂.1, List.forall_mem_append.mpr ⟨hbound, ?_⟩⟩
      intro u hu
      exact (hframes.binds_iff u).mp (h₂.2 u hu)
    · intro f hf name pos hundeclared
      obtain ⟨u, hu, hname, hpos, hunbound⟩ := hf name pos hundeclared
      refine ⟨u, List.mem_append_right us hu, hname, hpos, ?_⟩
      rw [← hframes.binds_iff u]
      exact hunbound

/-- A check changes nothing. -/
theorem resolves_check {α : Type} {r : Except ParseError α}
    (h : Gives r (fun _ => ∀ u ∈ us, env.Binds u) fun e => Unbound env us (.error e)) :
    Resolves env us (orFail r >>= fun _ => .ok env) := by
  cases r with
  | error e => exact h
  | ok a => exact ⟨.refl us env, h⟩

/-- A walk after a check. -/
theorem Resolves.check_bind {α : Type} {r : Except ParseError α} {k : Except Failure Env}
    (h : Resolves env us (orFail r >>= fun _ => .ok env)) (hk : Resolves env vs k) :
    Resolves env (us ++ vs) (orFail r >>= fun _ => k) := by
  have hbind : Resolves env (us ++ vs) ((orFail r >>= fun _ => .ok env) >>= fun _ => k) := by
    apply h.bind
    intro env' hok
    cases r with
    | error e => cases hok
    | ok a =>
      cases hok
      exact hk
  cases r with
  | error e => exact hbind
  | ok a => exact hbind

/-! ## §3. Expressions -/

/-- What the types object to is no undeclared name. -/
theorem blames_unbound (pos : Pos) : Blames (fun err => Unbound env us (.error err)) pos := by
  constructor
  · intro _ _ _ _ _ h
    cases h
  · intro _ _ _ _ _ h
    cases h

/-- Every use in an expression is looked up. -/
theorem judged_binds {e : Expr} (hsub : e.uses ⊆ us) :
    Judged env env.Binds (fun err => Unbound env us (.error err)) e := by
  apply judged
  · exact fun part _ => blames_unbound part.pos
  · intro u hu
    refine (env.typeOf_gives u.name u.pos ?_).weaken ?_
    · intro hnone name pos h
      cases h
      refine ⟨u, hsub hu, rfl, rfl, ?_⟩
      intro hbinds
      -- a use in an expression refers to nothing that the statement declares itself
      rcases hbinds with hdeclared | hbound
      · rw [Expr.eq_of_mem_uses hu] at hdeclared
        cases hdeclared
      · rw [hnone] at hbound
        cases hbound
    · intro t ht
      obtain ⟨b, hb, -⟩ := ht
      exact .inr (Option.isSome_iff_exists.mpr ⟨b, hb⟩)

theorem infer_resolves (env : Env) (e : Expr) :
    Resolves env e.uses (orFail (infer env e) >>= fun _ => .ok env) :=
  resolves_check (judged_binds (List.Subset.refl _)).infers

theorem checkTruth_resolves (env : Env) (cond : Expr) :
    Resolves env cond.uses (orFail (env.checkTruth cond) >>= fun _ => .ok env) :=
  resolves_check (Env.checkTruth_judged (judged_binds (List.Subset.refl _)))

theorem checkBounds_resolves (env : Env) (var : Bytes) (start stop : Expr) :
    Resolves env (start.uses ++ stop.uses)
      (orFail (env.checkBounds var start stop) >>= fun _ => .ok env) :=
  resolves_check (Env.checkBounds_judged
    (judged_binds (List.subset_append_left start.uses stop.uses))
    (judged_binds (List.subset_append_right start.uses stop.uses)) var)

theorem checkType_resolves (env : Env) (type : Ty) (e : Expr) (name : Bytes) :
    Resolves env e.uses (orFail (checkType env type e name) >>= fun _ => .ok env) := by
  have hjudged : Judged env env.Binds (fun err => Unbound env e.uses (.error err)) e :=
    judged_binds (List.Subset.refl e.uses)
  exact resolves_check (hjudged.checks type name e.pos hjudged.blames)

end

/-! ## §4. Assignments -/

/-- Storing a value in a name that is bound replaces its nearest binding. -/
theorem Env.assign_gives {env : Env} {name : Bytes} {b : Binding}
    (hb : env.lookup? name = some b) (value : Value) (pos : Option Pos) :
    Gives (env.assign name value pos)
      (fun env' => env' = { env with scopes := env.scopes.replaceNearest name ⟨b.type, value⟩ })
      fun e => e.isRefused = true := by
  have hlookup : env.scopes.lookup? name = some b := hb
  unfold Env.assign ScopeStack.assign
  rw [hlookup]
  dsimp only
  split <;> rfl

/-- The nearest binding of a name gets a new value, and nothing else changes. -/
theorem frames_replaceNearest {env : Env} {uses : List Use} {u : Use} (hu : u ∈ uses)
    (htarget : u.isTarget = true) (hfree : u.isDeclared = false) {b : Binding}
    (hb : env.lookup? u.name = some b) (value : Value) :
    Frames uses env
      { env with scopes := env.scopes.replaceNearest u.name ⟨b.type, value⟩ } := by
  obtain ⟨i, hnear, hbinding⟩ := ScopeStack.lookup?_eq_some_iff.mp hb
  have hafter := ScopeStack.binding?_replaceNearest hnear ⟨b.type, value⟩
  refine ⟨ScopeStack.depth_replaceNearest _ _ _, rfl, ?_, ?_⟩
  · intro j name
    rw [hafter]
    split
    · next h => rw [h.1, h.2, hbinding]; rfl
    · rfl
  · intro j name
    rw [hafter]
    split
    · next h => exact .inr ⟨u, hu, htarget, h.2.symm, hfree, h.1 ▸ hnear⟩
    · exact .inl rfl

theorem store_resolves (env : Env) (pos : Pos) (name : Bytes) (indices : List Expr)
    (value : Expr) :
    Resolves env ({ name, pos, isTarget := true } :: (Expr.usesOf indices ++ value.uses))
      (orFail (env.store pos name indices value)) := by
  set target : Use := { name, pos, isTarget := true } with htarget
  set us := target :: (Expr.usesOf indices ++ value.uses) with hus
  have hmem : target ∈ us := List.mem_cons_self
  have hindices : ∀ e ∈ indices, e.uses ⊆ us := fun e he u hu =>
    List.mem_cons_of_mem _ (List.mem_append_left _ (List.mem_flatMap.mpr ⟨e, he, hu⟩))
  have hvalue : value.uses ⊆ us := fun u hu =>
    List.mem_cons_of_mem _ (List.mem_append_right _ hu)
  have hjudged : Judged env env.Binds (fun err => Unbound env us (.error err)) value :=
    judged_binds hvalue
  -- the target is looked up first
  refine gives_orFail.mpr ((env.typeOf_gives name pos ?_).bind ?_)
  · intro hnone name' pos' h
    cases h
    refine ⟨target, hmem, rfl, rfl, ?_⟩
    intro hbinds
    rcases hbinds with hdeclared | hbound
    · cases hdeclared
    · rw [hnone] at hbound
      cases hbound
  · rintro declared ⟨b, hb, -⟩
    have hbound : env.Binds target := .inr (Option.isSome_iff_exists.mpr ⟨b, hb⟩)
    -- and is assigned to in the end, when all other uses are known to be bound
    have hassign : ∀ v, (∀ u ∈ Expr.usesOf indices, env.Binds u) →
        (∀ u ∈ value.uses, env.Binds u) →
        Gives (env.assign name v (some pos))
          (fun env' => Frames us env env' ∧ ∀ u ∈ us, env.Binds u)
          fun err => Unbound env us (.error err) := by
      intro v hi hv
      apply (Env.assign_gives hb v (some pos)).mono
      · rintro env' rfl
        exact ⟨frames_replaceNearest hmem rfl rfl hb v,
          List.forall_mem_cons.mpr ⟨hbound, List.forall_mem_append.mpr ⟨hi, hv⟩⟩⟩
      · exact fun err h => unbound_of_refused h
    cases indices with
    | nil =>
      apply (hjudged.checks declared name value.pos hjudged.blames).bind
      intro _ hv
      exact hassign _ (List.forall_mem_nil _) hv
    | cons index rest =>
      apply (inferIndices_judged (blames_unbound pos) fun e he => judged_binds (hindices e he)).bind
      intro elem hi
      cases elem with
      | some elem =>
        apply (hjudged.checks elem name value.pos hjudged.blames).bind
        intro _ hv
        exact hassign _ hi hv
      | none =>
        apply hjudged.infers.bind
        intro _ hv
        exact hassign _ hi hv

/-! ## §5. Blocks

While the statements of a block are walked over, the innermost scope has just the
names that the block declares up to there. -/

/-- The innermost scope is that of an open block; the others are `outer`. -/
structure Inside (outer : Env) (b : OpenBlock) (env : Env) : Prop where
  pop_eq : env.pop = .ok outer
  declares_eq : ∀ name, (env.scopes.binding? 0 name).isSome = b.declares name

namespace Inside

variable {outer env : Env} {b : OpenBlock}

theorem binding?_succ (h : Inside outer b env) (i : Nat) (name : Bytes) :
    env.scopes.binding? (i + 1) name = outer.scopes.binding? i name :=
  (ScopeStack.binding?_pop? (Env.pop_eq_ok_iff.mp h.pop_eq).1 i name).symm

theorem nearest_succ_iff (h : Inside outer b env) (name : Bytes) (i : Nat) :
    env.scopes.Nearest name (i + 1)
      ↔ b.declares name = false ∧ outer.scopes.Nearest name i := by
  rw [ScopeStack.nearest_succ fun j => (h.binding?_succ j name).symm, ← h.declares_eq name,
    Option.isSome_eq_false_iff, Option.isNone_iff_eq_none]

/-- A use resolves in the same way from within the block and from outside. -/
theorem resolvesTo_iff (h : Inside outer b env) (u : Use) (i : Nat) :
    u.ResolvesTo env.scopes (i + 1) ↔ (u.inside b).ResolvesTo outer.scopes i := by
  unfold Use.ResolvesTo
  rw [h.nearest_succ_iff, Use.isDeclared_inside, Use.name_inside, Bool.or_eq_false_iff, and_assoc]

theorem binds_iff (h : Inside outer b env) (u : Use) :
    env.Binds u ↔ outer.Binds (u.inside b) := by
  have hlookup : (env.lookup? u.name).isSome = true
      ↔ b.declares u.name = true ∨ (outer.lookup? u.name).isSome = true := by
    unfold Env.lookup?
    rw [ScopeStack.isSome_lookup?_iff, ScopeStack.isSome_lookup?_iff]
    constructor
    · rintro ⟨i, hi⟩
      cases i with
      | zero => exact .inl ((h.declares_eq u.name).symm.trans hi)
      | succ i => exact .inr ⟨i, (h.binding?_succ i u.name) ▸ hi⟩
    · rintro (hdeclared | ⟨i, hi⟩)
      · exact ⟨0, (h.declares_eq u.name).trans hdeclared⟩
      · exact ⟨i + 1, (h.binding?_succ i u.name).symm ▸ hi⟩
  unfold Env.Binds
  rw [hlookup, Use.isDeclared_inside, Use.name_inside, Bool.or_eq_true, or_assoc]

/-- Entering a scope opens a block in which nothing is declared. -/
theorem push (env : Env) : Inside env {} env.push := ⟨rfl, fun _ => rfl⟩

/-- What is declared in the innermost scope is declared in the block. -/
theorem declare (h : Inside outer b env) (name : Bytes) (type : Ty) (value : Value)
    {b' : OpenBlock} (hb' : ∀ other, b'.declares other = (b.declares other || other == name)) :
    Gives (env.declare name type value) (Inside outer b') fun e => e.isRefused = true := by
  unfold Env.declare
  split
  · rfl
  · obtain ⟨hpop, hfunctions⟩ := Env.pop_eq_ok_iff.mp h.pop_eq
    refine ⟨Env.pop_eq_ok_iff.mpr ⟨ScopeStack.pop?_define hpop _ _, hfunctions⟩, ?_⟩
    intro other
    rw [hb', ← h.declares_eq, ScopeStack.binding?_define]
    by_cases hother : other = name
    · simp [hother]
    · simp [hother]

/-- The header of a block declares its variables; nothing is refused. -/
theorem declareAll (locals : List Param) {done : List Param} (h : Inside outer ⟨done, []⟩ env) :
    ∃ env', env.declareAll locals = .ok env' ∧ Inside outer ⟨done ++ locals, []⟩ env' := by
  induction locals generalizing env done with
  | nil => exact ⟨env, rfl, (List.append_nil done).symm ▸ h⟩
  | cons p rest ih =>
    have hdeclares : ∀ other, (OpenBlock.mk (done ++ [p]) []).declares other
        = ((OpenBlock.mk done []).declares other || other == p.name) := by
      intro other
      simp [OpenBlock.declares, List.any_append, Bool.beq_comm]
    have hgives := h.declare p.name p.type .unknown hdeclares
    cases hrun : env.declare p.name p.type .unknown with
    | error e =>
      -- nothing is known of its value, so nothing is refused
      rw [Env.declare, Value.misfit?_unknown] at hrun
      cases hrun
    | ok env₁ =>
      obtain ⟨env', hrest, hinside⟩ := ih (hgives.of_ok hrun)
      refine ⟨env', ?_, ?_⟩
      · unfold Env.declareAll
        rw [List.foldlM_cons, hrun]
        exact hrest
      · rwa [List.append_assoc] at hinside

/-- A completed statement takes effect in the block. -/
theorem enact {locals : List Param} {before : List Stmt}
    (h : Inside outer ⟨locals, before⟩ env) (s : Stmt) :
    Gives (env.enact s) (Inside outer ⟨locals, before ++ [s]⟩) fun e => e.isRefused = true := by
  cases s with
  | let_ p name type init =>
    apply h.declare
    intro other
    rw [OpenBlock.declares_snoc]
    congr 1
    simp [Stmt.declared?, BEq.comm]
  | _ =>
    refine ⟨h.pop_eq, ?_⟩
    intro other
    rw [OpenBlock.declares_snoc, h.declares_eq]
    simp [Stmt.declared?]

/-- A walk over one statement, seen from outside of the block. -/
theorem step (h : Inside outer b env) {uses : List Use} {r : Except Failure Env}
    (hr : Resolves env uses r) :
    Gives r (fun env₁ => ∃ outer₁, Inside outer₁ b env₁
        ∧ Frames (uses.map (Use.inside b)) outer outer₁
        ∧ ∀ u ∈ uses.map (Use.inside b), outer.Binds u)
      (Unbound outer (uses.map (Use.inside b))) := by
  cases r with
  | error f =>
    intro name pos hf
    obtain ⟨u, hu, hname, hpos, hunbound⟩ := hr name pos hf
    refine ⟨u.inside b, List.mem_map_of_mem hu, hname, hpos, ?_⟩
    exact fun hb => hunbound ((h.binds_iff u).mpr hb)
  | ok env₁ =>
    obtain ⟨hframes, hbound⟩ := hr
    have hdepth := ScopeStack.depth_pop? (Env.pop_eq_ok_iff.mp h.pop_eq).1
    -- the scope of the block is still open after the statement, and can be left
    have hmany : 1 < env₁.scopes.depth := by
      have hsame : env₁.scopes.depth = env.scopes.depth := hframes.depth_eq
      have hpos := outer.scopes.depth_pos
      omega
    obtain ⟨scopes, hpop⟩ := ScopeStack.exists_pop? hmany
    have hinside : Inside { env₁ with scopes } b env₁ := by
      refine ⟨Env.pop_eq_ok_iff.mpr ⟨hpop, rfl⟩, ?_⟩
      intro name
      rw [hframes.isSome_binding?, h.declares_eq]
    refine ⟨_, hinside, ⟨?_, ?_, ?_, ?_⟩, ?_⟩
    · have hsame : env₁.scopes.depth = env.scopes.depth := hframes.depth_eq
      have hdepth₁ := ScopeStack.depth_pop? hpop
      show scopes.depth = outer.scopes.depth
      omega
    · exact hframes.functions_eq.trans (Env.pop_eq_ok_iff.mp h.pop_eq).2
    · intro i name
      rw [← hinside.binding?_succ, ← h.binding?_succ]
      exact hframes.types_eq (i + 1) name
    · intro i name
      rw [← hinside.binding?_succ, ← h.binding?_succ]
      rcases hframes.values_eq (i + 1) name with heq | ⟨u, hu, htarget, hname, hres⟩
      · exact .inl heq
      · have hinside := (h.resolvesTo_iff u i).mp hres
        exact .inr ⟨u.inside b, List.mem_map_of_mem hu, htarget, hname, hinside⟩
    · intro u hu
      obtain ⟨v, hv, rfl⟩ := List.mem_map.mp hu
      exact (h.binds_iff v).mp (hbound v hv)

end Inside

/-! ## §6. Statements -/

/-- The statements of a block, each of which takes effect before the next. -/
theorem checkStmts_inside {ss : List Stmt}
    (hss : ∀ s ∈ ss, ∀ env : Env, Resolves env s.uses (s.check env)) {outer env : Env}
    {locals : List Param} {before : List Stmt} (h : Inside outer ⟨locals, before⟩ env) :
    Resolves outer (usesIn locals before ss) (checkStmts env ss >>= Env.pop) := by
  induction ss generalizing outer env before with
  | nil =>
    show Resolves outer [] env.pop
    rw [h.pop_eq]
    exact resolves_ok
  | cons s rest ih =>
    obtain ⟨hhead, htail⟩ := List.forall_mem_cons.mp hss
    have hstep := h.step (hhead env)
    rw [checkStmts, usesIn]
    cases hcheck : s.check env with
    | error f => exact Unbound.mono (hstep.of_error hcheck) (List.subset_append_left _ _)
    | ok env₁ =>
      obtain ⟨outer₁, hinside, hframes, hbound⟩ := hstep.of_ok hcheck
      have henact := hinside.enact s
      cases hrun : env₁.enact s with
      | error e =>
        have hrefused := henact.of_error hrun
        show Gives ((orFail (env₁.enact s) >>= fun env => checkStmts env rest) >>= Env.pop) _ _
        rw [hrun]
        exact unbound_of_refused hrefused
      | ok env₂ =>
        -- what is left after this statement, and after the others
        have hfirst : Resolves outer (s.uses.map (Use.inside ⟨locals, before⟩)) (.ok outer₁) :=
          ⟨hframes, hbound⟩
        have hrest := ih htail (henact.of_ok hrun)
        have hboth := hfirst.bind (k := fun _ => checkStmts env₂ rest >>= Env.pop)
          fun _ hok => by cases hok; exact hrest
        show Resolves outer _
          ((orFail (env₁.enact s) >>= fun env => checkStmts env rest) >>= Env.pop)
        rw [hrun]
        exact hboth

/-- A block in a scope of its own. -/
theorem checkBlock_resolves {ss : List Stmt}
    (hss : ∀ s ∈ ss, ∀ env : Env, Resolves env s.uses (s.check env)) (env : Env)
    (locals : List Param) :
    Resolves env (usesIn locals [] ss)
      (orFail (env.push.declareAll locals) >>= fun env => checkStmts env ss >>= Env.pop) := by
  obtain ⟨inside, hdeclare, hinside⟩ := (Inside.push env).declareAll locals
  rw [hdeclare]
  exact checkStmts_inside hss hinside

/-- A statement leaves what was there before it, but for its assignments, and all of
    its uses are bound; or the first that is not is what the walk reports. -/
theorem Stmt.check_resolves (s : Stmt) (env : Env) : Resolves env s.uses (s.check env) := by
  induction s generalizing env with
  | expr p e | print p e =>
    rw [Stmt.check, Stmt.uses]
    exact infer_resolves env e
  | assign p name indices value =>
    rw [Stmt.check, Stmt.uses]
    exact store_resolves env p name indices value
  | let_ p name type init =>
    rw [Stmt.check, Stmt.uses]
    exact checkType_resolves env type init name
  | if_ p cond q ss else_ ihs ihelse =>
    have hthen : ∀ env : Env, Resolves env (usesIn [] [] ss)
        (checkStmts env.push ss >>= Env.pop) := fun env => checkBlock_resolves ihs env []
    cases else_ with
    | none =>
      rw [Stmt.check, Stmt.uses]
      exact (checkTruth_resolves env cond).check_bind (hthen env)
    | some b =>
      obtain ⟨q', others⟩ := b
      rw [Stmt.check, Stmt.uses]
      have helse : ∀ env : Env, Resolves env (usesIn [] [] others)
          (checkStmts env.push others >>= Env.pop) := fun env =>
        checkBlock_resolves (ihelse _ rfl) env []
      -- the second block is walked over after the first
      have hboth := (hthen env).bind fun env' _ => helse env'
      simp only [bind_assoc] at hboth
      exact (checkTruth_resolves env cond).check_bind hboth
  | while_ p cond q ss ih =>
    rw [Stmt.check, Stmt.uses]
    exact (checkTruth_resolves env cond).check_bind (checkBlock_resolves ih env [])
  | for_ p var start stop q ss ih =>
    rw [Stmt.check, Stmt.uses]
    exact (checkBounds_resolves env var start stop).check_bind (checkBlock_resolves ih env _)
  | fn p name params q ss ih =>
    rw [Stmt.check, Stmt.uses]
    exact checkBlock_resolves ih env params
  | return_ p value =>
    cases value with
    | none =>
      rw [Stmt.check, Stmt.uses]
      exact resolves_ok
    | some e =>
      rw [Stmt.check, Stmt.uses]
      exact infer_resolves env e

end Lumen
