/-
  Lumen.Proofs.Scoping.TopLevel — what a walk over a whole program adds.

  At top level there is no scope to be closed again: each `let` stays in the
  innermost scope, where a later one of the same name takes its place, and each
  function stays in the table, where no name may come twice.  All else is as for
  statements in a block, and nothing from inside a block is left.

  Main statements:
    * `Stmt.signature?`, `Program.lastLet?` — what the top level declares;
    * `Grows` — what is there after a program;
    * `Program.check_grows` — a walk over a program, statement by statement.
-/
import Mathlib.Data.List.Induction
import Lumen.Proofs.Scoping.Frame

namespace Lumen

/-! ## §1. Declarations at top level -/

/-- The function that a statement defines. -/
def Stmt.signature? : Stmt → Option Signature
  | fn _ name params body => some ⟨name, params, some body⟩
  | _ => none

/-- The type that a statement declares for a name, if it is a `let` of that name. -/
def Stmt.letType? (name : Bytes) : Stmt → Option Ty
  | let_ _ other type _ => if other == name then some type else none
  | _ => none

/-- The type in the last `let` of a name at top level. -/
def Program.lastLet? (p : Program) (name : Bytes) : Option Ty :=
  p.reverse.findSome? (Stmt.letType? name)

theorem Program.lastLet?_snoc (p : Program) (s : Stmt) (name : Bytes) :
    Program.lastLet? (p ++ [s]) name = (s.letType? name).or (p.lastLet? name) := by
  unfold Program.lastLet?
  rw [List.reverse_append, List.reverse_singleton, List.singleton_append, List.findSome?_cons]
  cases s.letType? name <;> rfl

theorem Stmt.isSome_letType? (s : Stmt) (name : Bytes) :
    (s.letType? name).isSome = (s.declared? == some name) := by
  cases s with
  | let_ p other type init =>
    by_cases h : other = name
    · simp [letType?, declared?, h]
    · simp [letType?, declared?, h]
  | _ => rfl

/-- The top level declares the names of its `let`s. -/
theorem Program.declares_eq (p : Program) (name : Bytes) :
    (OpenBlock.mk [] p).declares name = (p.lastLet? name).isSome := by
  induction p using List.reverseRecOn with
  | nil => rfl
  | append_singleton p s ih =>
    have hsnoc := OpenBlock.declares_snoc [] p s name
    rw [hsnoc, ih, Program.lastLet?_snoc, Option.isSome_or, Stmt.isSome_letType?, Bool.or_comm]

theorem usesIn_snoc (locals : List Param) (before ss : List Stmt) (s : Stmt) :
    usesIn locals before (ss ++ [s])
      = usesIn locals before ss ++ s.uses.map (Use.inside ⟨locals, before ++ ss⟩) := by
  induction ss generalizing before with
  | nil => simp [usesIn]
  | cons first rest ih =>
    rw [List.cons_append, usesIn, usesIn, ih, List.append_assoc, List.append_assoc]
    rfl

/-! ## §2. Growth -/

/-- What is there after a program: the scopes with their names and types, but the
    innermost one with the last `let` of each name; the functions that were there,
    and then those of the program. -/
structure Grows (p : Program) (before after : Env) : Prop where
  depth_eq : after.depth = before.depth
  functions_eq : after.functions = before.functions ++ p.filterMap Stmt.signature?
  functions_nodup : (before.functions.map Signature.name).Nodup →
    (after.functions.map Signature.name).Nodup
  outer_types_eq : ∀ i name, (after.scopes.binding? (i + 1) name).map Binding.type
    = (before.scopes.binding? (i + 1) name).map Binding.type
  inner_types_eq : ∀ name, (after.scopes.binding? 0 name).map Binding.type
    = (p.lastLet? name).or ((before.scopes.binding? 0 name).map Binding.type)
  values_eq : ∀ i name, after.scopes.binding? i name = before.scopes.binding? i name
    ∨ (i = 0 ∧ (p.lastLet? name).isSome = true)
    ∨ ∃ u ∈ p.uses, u.isTarget = true ∧ u.name = name ∧ u.ResolvesTo before.scopes i

namespace Grows

variable {p : Program} {a b c : Env}

theorem refl (env : Env) : Grows [] env env :=
  ⟨rfl, (List.append_nil _).symm, id, fun _ _ => rfl, fun _ => rfl, fun _ _ => .inl rfl⟩

theorem isSome_inner (h : Grows p a b) (name : Bytes) :
    (b.scopes.binding? 0 name).isSome
      = ((OpenBlock.mk [] p).declares name || (a.scopes.binding? 0 name).isSome) := by
  rw [Program.declares_eq]
  simpa using congrArg Option.isSome (h.inner_types_eq name)

theorem isSome_outer (h : Grows p a b) (name : Bytes) (i : Nat) :
    (b.scopes.binding? (i + 1) name).isSome = (a.scopes.binding? (i + 1) name).isSome := by
  simpa using congrArg Option.isSome (h.outer_types_eq i name)

/-- A name that the program does not declare is bound where it was before. -/
theorem isSome_binding? (h : Grows p a b) {name : Bytes}
    (hfree : (OpenBlock.mk [] p).declares name = false) (i : Nat) :
    (b.scopes.binding? i name).isSome = (a.scopes.binding? i name).isSome := by
  cases i with
  | zero => rw [h.isSome_inner, hfree, Bool.false_or]
  | succ i => exact h.isSome_outer name i

theorem binds_iff (h : Grows p a b) (u : Use) : b.Binds u ↔ a.Binds (u.inside ⟨[], p⟩) := by
  unfold Env.Binds Env.lookup?
  rw [Use.isDeclared_inside, Use.name_inside]
  cases hdecl : (OpenBlock.mk [] p).declares u.name with
  | false => rw [ScopeStack.isSome_lookup?_congr (h.isSome_binding? hdecl), Bool.or_false]
  | true =>
    have hbound : (b.scopes.lookup? u.name).isSome = true :=
      ScopeStack.isSome_lookup?_iff.mpr ⟨0, by rw [h.isSome_inner, hdecl, Bool.true_or]⟩
    simp [hbound]

/-- A use after the program means what the program declares, or what it meant
    before. -/
theorem resolvesTo_cases (h : Grows p a b) {u : Use} {i : Nat}
    (hres : u.ResolvesTo b.scopes i) :
    (i = 0 ∧ (p.lastLet? u.name).isSome = true) ∨ (u.inside ⟨[], p⟩).ResolvesTo a.scopes i := by
  obtain ⟨hfree, hnear⟩ := hres
  cases hdecl : (OpenBlock.mk [] p).declares u.name with
  | true =>
    -- the innermost scope has the name, so it is the nearest that does
    refine .inl ⟨?_, (Program.declares_eq p u.name).symm.trans hdecl⟩
    have hinner : (b.scopes.binding? 0 u.name).isSome = true := by
      rw [h.isSome_inner, hdecl, Bool.true_or]
    by_contra hi
    rw [hnear.2 0 (Nat.pos_of_ne_zero hi)] at hinner
    cases hinner
  | false =>
    refine .inr ⟨?_, (ScopeStack.nearest_congr (h.isSome_binding? hdecl)).mp hnear⟩
    rw [Use.isDeclared_inside, hfree, hdecl, Bool.or_false]

/-- What is left after one more statement, before it takes effect. -/
theorem frames (h : Grows p a b) {uses : List Use} (h' : Frames uses b c) (i : Nat)
    (name : Bytes) :
    c.scopes.binding? i name = a.scopes.binding? i name
      ∨ (i = 0 ∧ (p.lastLet? name).isSome = true)
      ∨ ∃ u ∈ p.uses ++ uses.map (Use.inside ⟨[], p⟩), u.isTarget = true ∧ u.name = name
        ∧ u.ResolvesTo a.scopes i := by
  rcases h'.values_eq i name with heq' | ⟨u, hu, htarget, rfl, hres⟩
  · rcases h.values_eq i name with heq | hlet | ⟨u, hu, hrest⟩
    · exact .inl (heq'.trans heq)
    · exact .inr (.inl hlet)
    · exact .inr (.inr ⟨u, List.mem_append_left _ hu, hrest⟩)
  · rcases h.resolvesTo_cases hres with hlet | hres
    · exact .inr (.inl hlet)
    · exact .inr (.inr ⟨_, List.mem_append_right _ (List.mem_map_of_mem hu), htarget, rfl, hres⟩)

end Grows

/-! ## §3. Statements at top level -/

/-- What a completed statement does at top level. -/
structure Enacts (s : Stmt) (before after : Env) : Prop where
  depth_eq : after.depth = before.depth
  functions_eq : after.functions = before.functions ++ s.signature?.toList
  functions_nodup : (before.functions.map Signature.name).Nodup →
    (after.functions.map Signature.name).Nodup
  bindings_eq : ∀ i name, i ≠ 0 ∨ (s.letType? name).isSome = false →
    after.scopes.binding? i name = before.scopes.binding? i name
  types_eq : ∀ name, (after.scopes.binding? 0 name).map Binding.type
    = (s.letType? name).or ((before.scopes.binding? 0 name).map Binding.type)

/-- A statement that declares nothing has no effect. -/
theorem enacts_refl {s : Stmt} (hsig : s.signature? = none) (hlet : ∀ name, s.letType? name = none)
    (env : Env) : Enacts s env env := by
  refine ⟨rfl, ?_, id, fun _ _ _ => rfl, ?_⟩
  · rw [hsig]
    exact (List.append_nil _).symm
  · intro name
    rw [hlet]
    rfl

theorem Env.register_enacts (env : Env) (p : Pos) (name : Bytes) (params : List Param)
    (body : Block) (uses : List Use) :
    Gives (env.register ⟨name, params, some body⟩ p) (Enacts (.fn p name params body) env)
      fun e => Unbound env uses (.error e) := by
  unfold Env.register
  split
  · intro _ _ h
    cases h
  · next hnone =>
    refine ⟨rfl, rfl, ?_, fun _ _ _ => rfl, fun _ => rfl⟩
    intro hnodup
    -- no function of that name was found, so it is new
    have hnew : name ∉ env.functions.map Signature.name := by
      intro hmem
      obtain ⟨f, hf, hname⟩ := List.mem_map.mp hmem
      have hnot := List.find?_eq_none.mp hnone f hf
      exact hnot (beq_iff_eq.mpr hname)
    simpa [List.nodup_append] using ⟨hnodup, fun f hf h => hnew (List.mem_map.mpr ⟨f, hf, h⟩)⟩

theorem Env.declare_enacts (env : Env) (p : Pos) (name : Bytes) (type : Ty) (init : Expr)
    (value : Value) (uses : List Use) :
    Gives (env.declare name type value) (Enacts (.let_ p name type init) env)
      fun e => Unbound env uses (.error e) := by
  unfold Env.declare
  split
  · exact unbound_of_refused rfl
  · refine ⟨ScopeStack.depth_define _ _ _, (List.append_nil _).symm, id, ?_, ?_⟩
    · intro i other h
      show (env.scopes.define name ⟨type, value⟩).binding? i other = _
      rw [ScopeStack.binding?_define]
      split
      · next heq =>
        rcases h with hi | hother
        · exact absurd heq.1 hi
        · simp [Stmt.letType?, heq.2] at hother
      · rfl
    · intro other
      show ((env.scopes.define name ⟨type, value⟩).binding? 0 other).map _ = _
      rw [ScopeStack.binding?_define]
      -- only the declared name gets a type in the innermost scope
      by_cases h : other = name
      · simp [Stmt.letType?, h]
      · simp [Stmt.letType?, h, Ne.symm h]

theorem Env.enactTop_enacts (env : Env) (s : Stmt) (uses : List Use) :
    Gives (env.enactTop s) (Enacts s env) fun e => Unbound env uses (.error e) := by
  cases s with
  | fn p name params body => exact env.register_enacts p name params body uses
  | let_ p name type init => exact env.declare_enacts p name type init _ uses
  | _ => exact enacts_refl rfl (fun _ => rfl) env

/-- One more statement at top level, and what it declares. -/
theorem Grows.snoc {p : Program} {s : Stmt} {a b c d : Env} (h : Grows p a b)
    (h' : Frames s.uses b c) (h'' : Enacts s c d) : Grows (p ++ [s]) a d where
  depth_eq := h''.depth_eq.trans (h'.depth_eq.trans h.depth_eq)
  functions_eq := by
    rw [h''.functions_eq, h'.functions_eq, h.functions_eq, List.filterMap_append,
      List.append_assoc]
    cases hs : s.signature? <;> simp [hs]
  functions_nodup hnodup := by
    apply h''.functions_nodup
    rw [h'.functions_eq]
    exact h.functions_nodup hnodup
  outer_types_eq i name := by
    rw [h''.bindings_eq (i + 1) name (.inl (Nat.succ_ne_zero i)), h'.types_eq, h.outer_types_eq]
  inner_types_eq name := by
    rw [h''.types_eq, h'.types_eq, h.inner_types_eq, Program.lastLet?_snoc, Option.or_assoc]
  values_eq i name := by
    rw [Program.lastLet?_snoc, Option.isSome_or]
    have huses : Program.uses (p ++ [s]) = p.uses ++ s.uses.map (Use.inside ⟨[], p⟩) :=
      usesIn_snoc [] [] p s
    rw [huses]
    -- a `let` of the name gives it a value; otherwise the value is from before
    by_cases hlet : i = 0 ∧ (s.letType? name).isSome = true
    · exact .inr (.inl ⟨hlet.1, by rw [hlet.2, Bool.true_or]⟩)
    · have hkept : i ≠ 0 ∨ (s.letType? name).isSome = false := by
        by_cases hi : i = 0
        · exact .inr (Bool.eq_false_iff.mpr fun hsome => hlet ⟨hi, hsome⟩)
        · exact .inl hi
      rw [h''.bindings_eq i name hkept]
      rcases h.frames h' i name with heq | ⟨hi, hsome⟩ | hassigned
      · exact .inl heq
      · exact .inr (.inl ⟨hi, by rw [hsome, Bool.or_true]⟩)
      · exact .inr (.inr hassigned)

/-! ## §4. Programs -/

theorem Program.check_snoc (env : Env) (p : Program) (s : Stmt) :
    Program.check env (p ++ [s]) = Program.check env p >>= fun env =>
      s.check env >>= fun env => orFail (env.enactTop s) := by
  unfold Program.check
  rw [List.foldlM_append]
  simp only [List.foldlM_cons, List.foldlM_nil, bind_pure]

/-- A walk over a program leaves what was there before, but for its assignments, and
    adds what the top level declares.  All uses are bound; or the first that is
    not is what the walk reports. -/
theorem Program.check_grows (env : Env) (p : Program) :
    Gives (Program.check env p) (fun env' => Grows p env env' ∧ ∀ u ∈ p.uses, env.Binds u)
      (Unbound env p.uses) := by
  induction p using List.reverseRecOn with
  | nil => exact ⟨.refl env, List.forall_mem_nil _⟩
  | append_singleton p s ih =>
    have huses : Program.uses (p ++ [s]) = Program.uses p ++ s.uses.map (Use.inside ⟨[], p⟩) :=
      usesIn_snoc [] [] p s
    rw [Program.check_snoc, huses]
    cases hp : Program.check env p with
    | error f => exact (ih.of_error hp).mono (List.subset_append_left _ _)
    | ok env₁ =>
      obtain ⟨hgrows, hbound⟩ := ih.of_ok hp
      show Gives (s.check env₁ >>= _) _ _
      have hcheck := s.check_resolves env₁
      cases hs : s.check env₁ with
      | error f =>
        -- unbound after the statements before it, and not declared by them either
        intro name pos hf
        obtain ⟨u, hu, hname, hpos, hunbound⟩ := hcheck.of_error hs name pos hf
        refine ⟨_, List.mem_append_right _ (List.mem_map_of_mem hu), hname, hpos, ?_⟩
        rw [← hgrows.binds_iff u]
        exact hunbound
      | ok env₂ =>
        obtain ⟨hframes, hbound'⟩ := hcheck.of_ok hs
        have hall : ∀ u ∈ Program.uses p ++ s.uses.map (Use.inside ⟨[], p⟩), env.Binds u := by
          refine List.forall_mem_append.mpr ⟨hbound, ?_⟩
          intro u hu
          obtain ⟨v, hv, rfl⟩ := List.mem_map.mp hu
          exact (hgrows.binds_iff v).mp (hbound' v hv)
        show Gives (orFail (env₂.enactTop s)) _ _
        apply (gives_orFail.mpr (env₂.enactTop_enacts s [])).mono
        · exact fun env₃ henacts => ⟨hgrows.snoc hframes henacts, hall⟩
        · intro f hf name pos hundeclared
          -- no use is to blame for what an effect reports
          obtain ⟨u, hu, -⟩ := hf name pos hundeclared
          cases hu

/-! ## §5. Looking up functions -/

/-- A function in a table without duplicates is found by its name. -/
theorem function?_of_mem {env : Env} (h : (env.functions.map Signature.name).Nodup)
    {f : Signature} (hf : f ∈ env.functions) : env.function? f.name = some f := by
  unfold Env.function?
  revert h hf
  generalize env.functions = fs
  intro h hf
  induction fs with
  | nil => cases hf
  | cons g rest ih =>
    obtain ⟨hnew, hrest⟩ := List.nodup_cons.mp h
    rcases List.mem_cons.mp hf with rfl | hmem
    · exact List.find?_cons_of_pos (beq_self_eq_true _)
    · have hne : g.name ≠ f.name := by
        intro heq
        exact hnew (heq ▸ List.mem_map_of_mem hmem)
      rw [List.find?_cons_of_neg (by simpa using hne)]
      exact ih hrest hmem

/-- What is found is in the table and has the name. -/
theorem mem_of_function? {env : Env} {name : Bytes} {f : Signature}
    (h : env.function? name = some f) : f ∈ env.functions ∧ f.name = name :=
  ⟨List.mem_of_find?_eq_some h, by simpa using List.find?_some h⟩

end Lumen
