/-
  Lumen.Proofs.Checking.Fitting — constants fit wherever their expressions are
  accepted.

  An expression is accepted under a declared type by comparing types, and its
  value is stored there by looking at the value.  The two agree for every type
  that can be declared: the judgement knows the type of whatever has a known
  scalar value, and it walks into a list literal just as the value does.

  A binding therefore refuses nothing that was checked before, as long as all
  bindings have types that can be declared.

  Main statements:
    * `infer_of_constant` — the type of a known scalar is known;
    * `checkAgainst_fits` — what is accepted fits;
    * `ScopeStack.Forall` — what every binding has, and the steps that keep it;
    * `Env.store_kept` / `Env.enact_kept` — a store and a declaration that were
      checked are not refused.
-/
import Lumen.Proofs.Checking.Static

namespace Lumen

/-! ## §1. Constants and their types -/

theorem Literal.ofLiteral_neg? {v w : Literal} (h : v.neg? = some w) :
    Ty.ofLiteral w = Ty.ofLiteral v := by
  cases v <;> cases h <;> rfl

/-- Only a number with a sign before it has a known scalar value again. -/
theorem Expr.constant_neg {p : Pos} {e : Expr} {w : Literal}
    (h : (Expr.neg p e).constant = .scalar w) :
    ∃ v, e.constant = .scalar v ∧ v.neg? = some w := by
  rw [Expr.constant] at h
  split at h
  · next v hv =>
    refine ⟨v, hv, ?_⟩
    cases hneg : v.neg? with
    | none => rw [hneg] at h; cases h
    | some u => rw [hneg] at h; cases h; rfl
  · cases h

/-- The value of a sign and what it stands before is a scalar or unknown. -/
theorem Expr.constant_neg_cases (p : Pos) (e : Expr) :
    (Expr.neg p e).constant = .unknown ∨ ∃ w, (Expr.neg p e).constant = .scalar w := by
  rw [Expr.constant]
  split
  · next v _ =>
    cases hneg : v.neg? with
    | none => exact .inl rfl
    | some w => exact .inr ⟨w, rfl⟩
  · exact .inl rfl

/-- The type of an expression with a known scalar value is known: it is that of
    the value. -/
theorem infer_of_constant {env : Env} {e : Expr} {v : Literal} (h : e.constant = .scalar v) :
    GivesStatic (infer env e) fun t => t = some (Ty.ofLiteral v) := by
  induction e generalizing v with
  | literal p w =>
    rw [Expr.constant] at h
    cases h
    rw [infer_literal]
    rfl
  | group p inner ih =>
    rw [constant_group] at h
    rw [infer_group]
    exact ih h
  | neg p e ih =>
    obtain ⟨u, hu, hneg⟩ := Expr.constant_neg h
    rw [infer]
    -- a sign wants a number behind it, and leaves the type as it is
    apply (ih hu).bind
    intro t ht
    apply (Expr.require_gives (blames_static e.pos).mismatch t _ _).bind
    intro _ _
    rw [Literal.ofLiteral_neg? hneg]
    exact ht
  | list p elements =>
    rw [Expr.constant] at h
    split at h <;> cases h
  | access | binary | logical | call | method => rw [Expr.constant] at h <;> cases h

/-! ## §2. What is accepted fits -/

/-- A type that can be declared accepts just the scalars of its own kind. -/
theorem Ty.eq_ofLiteral_of_accepts {declared : Ty} (hdecl : declared.isDeclarable = true)
    {v : Literal} (h : declared.accepts (Ty.ofLiteral v) = true) : declared = Ty.ofLiteral v := by
  cases declared <;> cases v <;> simp_all [accepts, ofLiteral, isDeclarable]

theorem Value.misfit?_scalar (v : Literal) :
    Value.misfit? (Ty.ofLiteral v) (.scalar v) = none := by
  cases v <;> rfl

/-- Values that fit one by one fit as the items of a list. -/
theorem Value.misfitItem?_constants {elem : Ty} {es : List Expr}
    (h : ∀ e ∈ es, e.constant.misfit? elem = none) {items : List Value}
    (hitems : constants? es = some items) (index : Nat) :
    Value.misfitItem? elem index items = none := by
  induction es generalizing items index with
  | nil =>
    rw [constants?] at hitems
    cases hitems
    rfl
  | cons e rest ih =>
    obtain ⟨hhead, htail⟩ := List.forall_mem_cons.mp h
    rw [constants?] at hitems
    split at hitems
    · cases hitems
    · obtain ⟨vs, hvs, rfl⟩ := Option.map_eq_some_iff.mp hitems
      rw [Value.misfitItem?, hhead]
      exact ih htail hvs (index + 1)

/-- An expression of which no more than its type is asked fits where it is
    accepted: its value is a scalar, or it is not known. -/
theorem checkAgainst_fits_of_infer {env : Env} {declared : Ty}
    (hdecl : declared.isDeclarable = true) {name : Bytes} {pos : Pos} {e : Expr}
    (he : e.isPlain = true) (hvalue : e.constant = .unknown ∨ ∃ v, e.constant = .scalar v) :
    GivesStatic (checkAgainst env declared name pos e)
      fun _ => e.constant.misfit? declared = none := by
  -- what is not known fits anywhere
  rcases hvalue with hv | ⟨v, hv⟩
  · refine (checkAgainst_static env declared name pos e).weaken ?_
    intro _ _
    rw [hv, Value.misfit?_unknown]
  · rw [checkAgainst_of_infer he]
    apply (infer_of_constant hv).bind
    intro t ht
    rw [ht]
    show GivesStatic (if declared.accepts (Ty.ofLiteral v) then _ else _) _
    split
    · next hacc =>
      show e.constant.misfit? declared = none
      rw [hv, Ty.eq_ofLiteral_of_accepts hdecl hacc]
      exact Value.misfit?_scalar v
    · rfl

/-- Where an expression is accepted under a type that can be declared, its value
    fits, as far as it is known. -/
theorem checkAgainst_fits (env : Env) {declared : Ty} (hdecl : declared.isDeclarable = true)
    (name : Bytes) (pos : Pos) (e : Expr) :
    GivesStatic (checkAgainst env declared name pos e)
      fun _ => e.constant.misfit? declared = none := by
  induction e generalizing declared pos with
  | literal p v =>
    exact checkAgainst_fits_of_infer hdecl rfl (.inr ⟨v, by rw [Expr.constant]⟩)
  | neg p e => exact checkAgainst_fits_of_infer hdecl rfl (Expr.constant_neg_cases p e)
  | group p inner ih =>
    rw [checkAgainst, constant_group]
    exact ih hdecl pos
  | list p elements ih =>
    cases declared with
    -- the elements fit one by one, and so their values do if all are known
    | list elem =>
      have helem : elem.isDeclarable = true := hdecl
      rw [checkAgainst]
      refine (checkElements_gives fun e he => ih e he helem e.pos).weaken ?_
      intro _ hall
      rw [Expr.constant]
      split
      · next items hitems =>
        rw [Value.misfit?]
        exact Value.misfitItem?_constants hall hitems 0
      · exact Value.misfit?_unknown _
    | _ =>
      rw [checkAgainst]
      · rfl
      · intro elem h
        cases h
  | access | binary | logical | call | method =>
    exact checkAgainst_fits_of_infer hdecl rfl (.inl (Expr.constant.eq_def _))

/-! ## §3. What every binding has -/

namespace Scope

theorem mem_insert {name : Bytes} {b : Binding} {scope : Scope} {entry : Bytes × Binding}
    (h : entry ∈ scope.insert name b) : entry = (name, b) ∨ entry ∈ scope := by
  induction scope with
  | nil => exact .inl (List.mem_singleton.mp h)
  | cons first rest ih =>
    rw [insert] at h
    split at h
    · rcases List.mem_cons.mp h with heq | hmem
      · exact .inl heq
      · exact .inr (List.mem_cons_of_mem first hmem)
    · rcases List.mem_cons.mp h with heq | hmem
      · exact .inr (heq ▸ List.mem_cons_self)
      · exact (ih hmem).imp id (List.mem_cons_of_mem first)

theorem mem_of_find? {scope : Scope} {name : Bytes} {b : Binding} (h : scope.find? name = some b) :
    ∃ entry ∈ scope, entry.2 = b := by
  obtain ⟨entry, hentry, hb⟩ := Option.map_eq_some_iff.mp h
  exact ⟨entry, List.mem_of_find?_eq_some hentry, hb⟩

end Scope

namespace ScopeStack

/-- Every binding in every open scope has some property. -/
def Forall (P : Binding → Prop) (s : ScopeStack) : Prop :=
  ∀ scope ∈ s.scopes, ∀ entry ∈ scope, P entry.2

variable {P : Binding → Prop} {s : ScopeStack}

theorem forall_empty : Forall P empty := by
  intro scope hscope entry hentry
  rw [List.mem_singleton.mp hscope] at hentry
  cases hentry

theorem Forall.push (h : s.Forall P) : s.push.Forall P := by
  intro scope hscope
  rcases List.mem_cons.mp hscope with rfl | hscope
  · exact List.forall_mem_nil _
  · exact h scope hscope

theorem Forall.pop? (h : s.Forall P) {t : ScopeStack} (hpop : s.pop? = some t) : t.Forall P := by
  unfold ScopeStack.pop? at hpop
  split at hpop
  · cases hpop
  · next first outer hinner =>
    cases hpop
    intro scope hscope
    refine h scope ?_
    show scope ∈ s.inner ++ [s.global]
    rw [hinner]
    exact List.mem_cons_of_mem first hscope

theorem Forall.lookup? (h : s.Forall P) {name : Bytes} {b : Binding}
    (hb : s.lookup? name = some b) : P b := by
  obtain ⟨scope, hscope, hfind⟩ := List.exists_of_findSome?_eq_some hb
  obtain ⟨entry, hentry, rfl⟩ := Scope.mem_of_find? hfind
  exact h scope hscope entry hentry

theorem forall_insert {scope : Scope} (h : ∀ entry ∈ scope, P entry.2) {name : Bytes} {b : Binding}
    (hb : P b) : ∀ entry ∈ scope.insert name b, P entry.2 := by
  intro entry hentry
  rcases Scope.mem_insert hentry with rfl | hmem
  · exact hb
  · exact h entry hmem

theorem Forall.define (h : s.Forall P) (name : Bytes) {b : Binding} (hb : P b) :
    (s.define name b).Forall P := by
  obtain ⟨inner, global⟩ := s
  cases inner with
  | nil =>
    intro scope hscope
    rw [List.mem_singleton.mp hscope]
    exact forall_insert (h global List.mem_cons_self) hb
  | cons first outer =>
    intro scope hscope
    rcases List.mem_cons.mp hscope with rfl | hscope
    · exact forall_insert (h first List.mem_cons_self) hb
    · exact h scope (List.mem_cons_of_mem first hscope)

theorem forall_replaceNearest_go {name : Bytes} {b : Binding} (hb : P b)
    {inner replaced : List Scope} (h : ∀ scope ∈ inner, ∀ entry ∈ scope, P entry.2)
    (hgo : replaceNearest.go name b inner = some replaced) :
    replaced.length = inner.length ∧ ∀ scope ∈ replaced, ∀ entry ∈ scope, P entry.2 := by
  induction inner generalizing replaced with
  | nil => cases hgo
  | cons first outer ih =>
    obtain ⟨hfirst, houter⟩ := List.forall_mem_cons.mp h
    rw [replaceNearest.go] at hgo
    split at hgo
    -- the name is bound in this scope, or else further out
    · cases hgo
      exact ⟨rfl, List.forall_mem_cons.mpr ⟨forall_insert hfirst hb, houter⟩⟩
    · obtain ⟨rest, hrest, rfl⟩ := Option.map_eq_some_iff.mp hgo
      obtain ⟨hlen, hall⟩ := ih houter hrest
      exact ⟨by simp [hlen], List.forall_mem_cons.mpr ⟨hfirst, hall⟩⟩

theorem Forall.replaceNearest (h : s.Forall P) (name : Bytes) {b : Binding} (hb : P b) :
    (s.replaceNearest name b).Forall P ∧ (s.replaceNearest name b).depth = s.depth := by
  have hinner : ∀ scope ∈ s.inner, ∀ entry ∈ scope, P entry.2 :=
    fun scope hscope => h scope (List.mem_append_left _ hscope)
  have hglobal : ∀ entry ∈ s.global, P entry.2 :=
    h s.global (List.mem_append_right _ (List.mem_singleton.mpr rfl))
  unfold ScopeStack.replaceNearest
  split
  · next inner hgo =>
    obtain ⟨hlen, hall⟩ := forall_replaceNearest_go hb hinner hgo
    refine ⟨List.forall_mem_append.mpr ⟨hall, ?_⟩, by simp [depth, hlen]⟩
    exact fun scope hscope => List.mem_singleton.mp hscope ▸ hglobal
  · refine ⟨List.forall_mem_append.mpr ⟨hinner, ?_⟩, rfl⟩
    exact fun scope hscope => List.mem_singleton.mp hscope ▸ forall_insert hglobal hb

end ScopeStack

/-! ## §4. Environments

What a parse keeps: every binding has a type that can be declared, and a known
number of scopes is open. -/

namespace Env

/-- Whether all bindings have types that can be declared, and how many scopes
    are open above the global one. -/
structure Kept (inner : Nat) (env : Env) : Prop where
  declarable : env.scopes.Forall fun b => b.type.isDeclarable = true
  inner_eq : env.scopes.inner.length = inner

variable {env : Env} {inner : Nat}

theorem kept_empty : Kept 0 empty := ⟨ScopeStack.forall_empty, rfl⟩

theorem Kept.push (h : env.Kept inner) : env.push.Kept (inner + 1) :=
  ⟨h.declarable.push, congrArg (· + 1) h.inner_eq⟩

/-- A scope that was entered can be left. -/
theorem Kept.pop (h : env.Kept (inner + 1)) :
    Gives env.pop (fun env' => env'.Kept inner) fun _ => False := by
  unfold Env.pop
  cases hpop : env.scopes.pop? with
  -- an inner scope is open, so there is one to leave
  | none =>
    unfold ScopeStack.pop? at hpop
    split at hpop
    · next hnil =>
      have hlen := h.inner_eq
      rw [hnil] at hlen
      cases hlen
    · cases hpop
  | some scopes =>
    refine ⟨h.declarable.pop? hpop, ?_⟩
    unfold ScopeStack.pop? at hpop
    split at hpop
    · cases hpop
    · next first outer hcons =>
      cases hpop
      have hlen := h.inner_eq
      rw [hcons] at hlen
      exact Nat.succ.inj hlen

theorem declare_of_fits {name : Bytes} {type : Ty} {value : Value}
    (hfit : value.misfit? type = none) :
    env.declare name type value
      = .ok { env with scopes := env.scopes.define name ⟨type, value⟩ } := by
  rw [declare, hfit]

theorem Kept.declare (h : env.Kept inner) (name : Bytes) {type : Ty}
    (hdecl : type.isDeclarable = true) {value : Value} (hfit : value.misfit? type = none) :
    Gives (env.declare name type value) (fun env' => env'.Kept inner) fun _ => False := by
  rw [declare_of_fits hfit]
  refine ⟨h.declarable.define name hdecl, ?_⟩
  exact (Nat.succ.inj (ScopeStack.depth_define env.scopes name _)).trans h.inner_eq

/-- Nothing is refused where nothing but the type is known. -/
theorem exists_declareAll (env : Env) (locals : List Param) :
    ∃ env', env.declareAll locals = .ok env' := by
  unfold Env.declareAll
  induction locals generalizing env with
  | nil => exact ⟨env, rfl⟩
  | cons p rest ih =>
    rw [List.foldlM_cons, declare_of_fits (Value.misfit?_unknown _)]
    exact ih _

theorem Kept.declareAll (h : env.Kept inner) {locals : List Param}
    (hdecl : ∀ p ∈ locals, p.type.isDeclarable = true) :
    Gives (env.declareAll locals) (fun env' => env'.Kept inner) fun _ => False := by
  unfold Env.declareAll
  induction locals generalizing env with
  | nil => exact h
  | cons p rest ih =>
    obtain ⟨hhead, htail⟩ := List.forall_mem_cons.mp hdecl
    rw [List.foldlM_cons]
    exact (h.declare p.name hhead (Value.misfit?_unknown _)).bind fun env' h' => ih h' htail

/-- Storing a value that fits in a name that is bound. -/
theorem assign_of_fits {name : Bytes} {b : Binding} (hb : env.lookup? name = some b)
    {value : Value} (hfit : value.misfit? b.type = none) (pos : Option Pos) :
    env.assign name value pos
      = .ok { env with scopes := env.scopes.replaceNearest name ⟨b.type, value⟩ } := by
  have hlookup : env.scopes.lookup? name = some b := hb
  have hscopes : env.scopes.assign name value pos
      = .ok (env.scopes.replaceNearest name ⟨b.type, value⟩) := by
    simp only [ScopeStack.assign, hlookup, hfit]
  rw [Env.assign, hscopes]
  rfl

theorem Kept.assign (h : env.Kept inner) {name : Bytes} {b : Binding}
    (hb : env.lookup? name = some b) {value : Value} (hfit : value.misfit? b.type = none)
    (pos : Option Pos) :
    Gives (env.assign name value pos) (fun env' => env'.Kept inner) fun _ => False := by
  have hdecl : b.type.isDeclarable = true := h.declarable.lookup? hb
  obtain ⟨hall, hdepth⟩ := h.declarable.replaceNearest name (b := ⟨b.type, value⟩) hdecl
  rw [assign_of_fits hb hfit]
  exact ⟨hall, (Nat.succ.inj hdepth).trans h.inner_eq⟩

/-- What a store reports was found by its checks; the binding refuses
    nothing. -/
theorem store_kept (h : env.Kept inner) (pos : Pos) (name : Bytes) (indices : List Expr)
    (value : Expr) :
    GivesStatic (env.store pos name indices value) fun env' => env'.Kept inner := by
  unfold store
  apply (env.typeOf_static name pos).bind
  intro declared hdeclared
  obtain ⟨b, hb, rfl⟩ := hdeclared
  cases indices with
  -- the value is stored as it is
  | nil =>
    have hdecl : b.type.isDeclarable = true := h.declarable.lookup? hb
    apply (checkAgainst_fits env hdecl name value.pos value).bind
    intro _ hfit
    exact (h.assign hb hfit _).certain
  -- an element is replaced: of the whole, nothing is known any more
  | cons index rest =>
    have hassign : GivesStatic (env.assign name .unknown (some pos)) fun env' => env'.Kept inner :=
      (h.assign hb (Value.misfit?_unknown _) _).certain
    apply (inferIndices_static env pos _ _).bind
    intro elem _
    split
    · exact (checkAgainst_static env _ name value.pos value).bind fun _ _ => hassign
    · exact (infer_static env value).bind fun _ _ => hassign

theorem Kept.register (h : env.Kept inner) (f : Signature) (pos : Pos) :
    GivesStatic (env.register f pos) fun env' => env'.Kept inner := by
  unfold Env.register
  split
  · rfl
  · exact ⟨h.declarable, h.inner_eq⟩

end Env

/-- Where a `let` was checked, its value fits. -/
theorem Stmt.fits_of_check {env env' : Env} {p : Pos} {name : Bytes} {type : Ty} {init : Expr}
    (hdecl : type.isDeclarable = true)
    (h : (Stmt.let_ p name type init).check env = .ok env') :
    init.constant.misfit? type = none := by
  rw [Stmt.check, checkType] at h
  have hfits := checkAgainst_fits env hdecl name init.pos init
  cases hrun : checkAgainst env type name init.pos init with
  | ok u =>
    rw [hrun] at hfits
    exact hfits
  | error e =>
    rw [hrun] at h
    cases h

/-- Whether the type that a `let` declares can be declared. -/
def Stmt.isDeclarable : Stmt → Bool
  | let_ _ _ type _ => type.isDeclarable
  | _ => true

/-- A completed statement that was checked takes effect: what it declares, if it
    is a declaration, fits. -/
theorem Stmt.enact_kept {env₀ env : Env} {inner : Nat} (h : env.Kept inner) {s : Stmt}
    (hdecl : s.isDeclarable = true) (hcheck : s.check env₀ = .ok env) :
    Gives (env.enact s) (fun env' => env'.Kept inner) fun _ => False := by
  cases s with
  | let_ p name type init => exact h.declare name hdecl (Stmt.fits_of_check hdecl hcheck)
  | _ => exact h

end Lumen
