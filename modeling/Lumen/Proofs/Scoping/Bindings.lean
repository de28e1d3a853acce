/-
  Lumen.Proofs.Scoping.Bindings — scopes by number and name.

  A binding is known by its name and by how far out its scope lies, the
  innermost scope being number 0.  Seen this way, each operation on the stack
  is one law: entering moves every scope one further out, leaving moves it back,
  a definition touches one name of scope 0, and an assignment touches the name
  in the first scope that has it.

  Main statements:
    * `binding?_push_succ` / `binding?_pop?` — entering and leaving;
    * `binding?_define` — a definition changes one binding of the innermost scope;
    * `binding?_replaceNearest` — so does an assignment, of the nearest scope that
      has the name;
    * `lookup?_eq_some_iff` — a look-up gives the nearest binding;
    * `Env.declare_eq_ok` … `Env.register_eq_ok` — what a change has done.
-/
import Mathlib.Data.Nat.Find
import Lumen.Env

namespace Lumen

theorem Scope.find?_insert (scope : Scope) (name other : Bytes) (b : Binding) :
    (scope.insert name b).find? other = if other = name then some b else scope.find? other := by
  split
  · next h => rw [h, Scope.find?_insert_self]
  · next h => exact Scope.find?_insert_of_ne (Ne.symm h) b scope

namespace ScopeStack

/-! ## §1. The binding of a name in a scope -/

/-- The binding of a name in the scope that lies `i` scopes out. -/
def binding? (s : ScopeStack) (i : Nat) (name : Bytes) : Option Binding :=
  s.scopes[i]?.bind fun scope => scope.find? name

/-- Scope `i` is the first, from the inside outwards, that has a name. -/
def Nearest (s : ScopeStack) (name : Bytes) (i : Nat) : Prop :=
  (s.binding? i name).isSome = true ∧ ∀ j < i, s.binding? j name = none

section
variable (scope : Scope) (outer : List Scope) (global : Scope) (name : Bytes)

theorem binding?_global_zero : (ScopeStack.mk [] global).binding? 0 name = global.find? name := rfl

theorem binding?_global_succ (i : Nat) :
    (ScopeStack.mk [] global).binding? (i + 1) name = none := rfl

theorem binding?_cons_zero :
    (ScopeStack.mk (scope :: outer) global).binding? 0 name = scope.find? name := rfl

theorem binding?_cons_succ (i : Nat) :
    (ScopeStack.mk (scope :: outer) global).binding? (i + 1) name
      = (ScopeStack.mk outer global).binding? i name := rfl

end

variable (s : ScopeStack) (name other : Bytes)

@[simp] theorem binding?_push_zero : s.push.binding? 0 name = none := rfl

@[simp] theorem binding?_push_succ (i : Nat) :
    s.push.binding? (i + 1) name = s.binding? i name := rfl

variable {s name}

/-- Leaving moves every scope but the innermost one closer. -/
theorem binding?_pop? {t : ScopeStack} (h : s.pop? = some t) (i : Nat) (name : Bytes) :
    t.binding? i name = s.binding? (i + 1) name := by
  obtain ⟨inner, global⟩ := s
  cases inner with
  | nil => cases h
  | cons scope outer =>
    obtain rfl : ScopeStack.mk outer global = t := Option.some.inj h
    rfl

theorem depth_pop? {t : ScopeStack} (h : s.pop? = some t) : s.depth = t.depth + 1 := by
  obtain ⟨inner, global⟩ := s
  cases inner with
  | nil => cases h
  | cons scope outer =>
    obtain rfl : ScopeStack.mk outer global = t := Option.some.inj h
    rfl

/-- A scope that is not the global one can be left. -/
theorem exists_pop? (h : 1 < s.depth) : ∃ t, s.pop? = some t := by
  obtain ⟨inner, global⟩ := s
  cases inner with
  | nil => exact absurd h (Nat.lt_irrefl 1)
  | cons scope outer => exact ⟨_, rfl⟩

/-! ## §2. Definitions -/

theorem binding?_define (s : ScopeStack) (name other : Bytes) (b : Binding) (i : Nat) :
    (s.define name b).binding? i other
      = if i = 0 ∧ other = name then some b else s.binding? i other := by
  obtain ⟨inner, global⟩ := s
  cases inner with
  | nil =>
    cases i with
    | zero => simpa [define, binding?_global_zero] using Scope.find?_insert global name other b
    | succ i => simp [define, binding?_global_succ]
  | cons scope outer =>
    cases i with
    | zero => simpa [define, binding?_cons_zero] using Scope.find?_insert scope name other b
    | succ i => simp [define, binding?_cons_succ]

/-- A definition touches the innermost scope only, which may be left as well
    before it. -/
theorem pop?_define {t : ScopeStack} (h : s.pop? = some t) (name : Bytes) (b : Binding) :
    (s.define name b).pop? = some t := by
  obtain ⟨inner, global⟩ := s
  cases inner with
  | nil => cases h
  | cons scope outer => exact h

/-! ## §3. Look-ups -/

theorem lookup?_cons (scope : Scope) (outer : List Scope) (global : Scope) (name : Bytes) :
    (ScopeStack.mk (scope :: outer) global).lookup? name
      = (scope.find? name).or ((ScopeStack.mk outer global).lookup? name) := by
  unfold lookup? scopes
  rw [List.cons_append, List.findSome?_cons]
  cases scope.find? name <;> rfl

theorem lookup?_global (global : Scope) (name : Bytes) :
    (ScopeStack.mk [] global).lookup? name = global.find? name := by
  unfold lookup? scopes
  rw [List.nil_append, List.findSome?_cons]
  cases global.find? name <;> rfl

/-- A name is nearest in scope 0 if this scope has it. -/
theorem nearest_zero : s.Nearest name 0 ↔ (s.binding? 0 name).isSome = true := by
  simp [Nearest]

/-- A name is nearest further out if scope 0 does not have it. -/
theorem nearest_succ {i : Nat} {t : ScopeStack}
    (h : ∀ j, t.binding? j name = s.binding? (j + 1) name) :
    s.Nearest name (i + 1) ↔ s.binding? 0 name = none ∧ t.Nearest name i := by
  unfold Nearest
  rw [← h i]
  constructor
  · intro hnear
    refine ⟨hnear.2 0 (Nat.succ_pos i), hnear.1, ?_⟩
    intro j hj
    rw [h j]
    exact hnear.2 (j + 1) (Nat.succ_lt_succ hj)
  · intro hnear
    refine ⟨hnear.2.1, ?_⟩
    intro j hj
    cases j with
    | zero => exact hnear.1
    | succ j =>
      rw [← h j]
      exact hnear.2.2 j (Nat.lt_of_succ_lt_succ hj)

theorem lookup?_eq_some_iff {b : Binding} :
    s.lookup? name = some b ↔ ∃ i, s.Nearest name i ∧ s.binding? i name = some b := by
  obtain ⟨inner, global⟩ := s
  induction inner with
  | nil =>
    rw [lookup?_global]
    constructor
    · intro h
      refine ⟨0, nearest_zero.mpr ?_, h⟩
      rw [binding?_global_zero, h]
      rfl
    · intro h
      obtain ⟨i, -, hb⟩ := h
      cases i with
      | zero => exact hb
      | succ i => cases hb
  | cons scope outer ih =>
    have hout : ∀ j, (ScopeStack.mk outer global).binding? j name
        = (ScopeStack.mk (scope :: outer) global).binding? (j + 1) name := fun _ => rfl
    rw [lookup?_cons]
    cases hfind : scope.find? name with
    | some c =>
      show some c = some b ↔ _
      constructor
      · intro h
        refine ⟨0, nearest_zero.mpr ?_, hfind.trans h⟩
        rw [binding?_cons_zero, hfind]
        rfl
      · intro h
        obtain ⟨i, hnear, hb⟩ := h
        cases i with
        | zero => exact hfind.symm.trans hb
        | succ i =>
          -- this scope has the name, so it is not nearest further out
          have hnone := ((nearest_succ hout).mp hnear).1
          rw [binding?_cons_zero, hfind] at hnone
          cases hnone
    | none =>
      show (ScopeStack.mk outer global).lookup? name = some b ↔ _
      rw [ih]
      constructor
      · intro h
        obtain ⟨i, hnear, hb⟩ := h
        exact ⟨i + 1, (nearest_succ hout).mpr ⟨hfind, hnear⟩, hb⟩
      · intro h
        obtain ⟨i, hnear, hb⟩ := h
        cases i with
        | zero =>
          rw [binding?_cons_zero, hfind] at hb
          cases hb
        | succ i => exact ⟨i, ((nearest_succ hout).mp hnear).2, hb⟩

theorem isSome_lookup?_iff :
    (s.lookup? name).isSome = true ↔ ∃ i, (s.binding? i name).isSome = true := by
  constructor
  · intro h
    obtain ⟨b, hb⟩ := Option.isSome_iff_exists.mp h
    obtain ⟨i, hnear, -⟩ := lookup?_eq_some_iff.mp hb
    exact ⟨i, hnear.1⟩
  · intro h
    -- of the scopes that have the name, the first is meant
    have hfirst := Nat.find_spec h
    obtain ⟨b, hb⟩ := Option.isSome_iff_exists.mp hfirst
    have hnear : s.Nearest name (Nat.find h) := by
      refine ⟨hfirst, ?_⟩
      intro j hj
      exact Option.not_isSome_iff_eq_none.mp (Nat.find_min h hj)
    rw [lookup?_eq_some_iff.mpr ⟨_, hnear, hb⟩]
    rfl

/-- Which scope is nearest depends only on which scopes have the name. -/
theorem nearest_congr {t : ScopeStack}
    (h : ∀ i, (s.binding? i name).isSome = (t.binding? i name).isSome) {i : Nat} :
    s.Nearest name i ↔ t.Nearest name i := by
  unfold Nearest
  simp only [← Option.isNone_iff_eq_none, ← Option.not_isSome, h]

theorem isSome_lookup?_congr {t : ScopeStack}
    (h : ∀ i, (s.binding? i name).isSome = (t.binding? i name).isSome) :
    (s.lookup? name).isSome = (t.lookup? name).isSome := by
  rw [Bool.eq_iff_iff, isSome_lookup?_iff, isSome_lookup?_iff]
  simp only [h]

/-! ## §4. Assignments -/

theorem replaceNearest_cons_some {scope : Scope} {c : Binding} (h : scope.find? name = some c)
    (outer : List Scope) (global : Scope) (b : Binding) :
    (ScopeStack.mk (scope :: outer) global).replaceNearest name b
      = ⟨scope.insert name b :: outer, global⟩ := by
  simp only [replaceNearest, replaceNearest.go, h]

/-- A scope that does not have the name is passed over. -/
theorem replaceNearest_cons_none {scope : Scope} (h : scope.find? name = none)
    (outer : List Scope) (global : Scope) (b : Binding) :
    (ScopeStack.mk (scope :: outer) global).replaceNearest name b
      = ⟨scope :: ((ScopeStack.mk outer global).replaceNearest name b).inner,
        ((ScopeStack.mk outer global).replaceNearest name b).global⟩ := by
  simp only [replaceNearest, replaceNearest.go, h]
  cases replaceNearest.go name b outer <;> rfl

theorem binding?_replaceNearest {i : Nat} (h : s.Nearest name i) (b : Binding) (j : Nat)
    (other : Bytes) :
    (s.replaceNearest name b).binding? j other
      = if j = i ∧ other = name then some b else s.binding? j other := by
  obtain ⟨inner, global⟩ := s
  induction inner generalizing i j with
  | nil =>
    cases i with
    | zero => exact binding?_define ⟨[], global⟩ name other b j
    | succ i => cases h.1
  | cons scope outer ih =>
    have hout : ∀ j, (ScopeStack.mk outer global).binding? j name
        = (ScopeStack.mk (scope :: outer) global).binding? (j + 1) name := fun _ => rfl
    cases i with
    | zero =>
      obtain ⟨c, hc⟩ := Option.isSome_iff_exists.mp (nearest_zero.mp h)
      rw [replaceNearest_cons_some hc]
      exact binding?_define ⟨scope :: outer, global⟩ name other b j
    | succ i =>
      -- the innermost scope does not have the name, so it stays as it is
      obtain ⟨hnone, hnear⟩ := (nearest_succ hout).mp h
      rw [replaceNearest_cons_none hnone]
      cases j with
      | zero => simp [binding?_cons_zero]
      | succ j => simpa [binding?_cons_succ] using ih j hnear

@[simp] theorem depth_replaceNearest (s : ScopeStack) (name : Bytes) (b : Binding) :
    (s.replaceNearest name b).depth = s.depth := by
  obtain ⟨inner, global⟩ := s
  induction inner with
  | nil => rfl
  | cons scope outer ih =>
    cases hfind : scope.find? name with
    | some c =>
      rw [replaceNearest_cons_some hfind]
      rfl
    | none =>
      rw [replaceNearest_cons_none hfind]
      exact congrArg (· + 1) ih

end ScopeStack

/-! ## §5. Changes of environments -/

namespace Env

variable {env : Env}

theorem pop_eq_ok_iff {outer : Env} : env.pop = .ok outer
    ↔ env.scopes.pop? = some outer.scopes ∧ env.functions = outer.functions := by
  unfold pop
  cases env.scopes.pop? with
  | none => simp
  | some scopes =>
    obtain ⟨scopes', functions⟩ := outer
    simp

/-- What is declared or assigned has been found to fit. -/
theorem declare_eq_ok {env' : Env} {name : Bytes} {type : Ty} {value : Value}
    (h : env.declare name type value = .ok env') :
    value.misfit? type = none
      ∧ env' = { env with scopes := env.scopes.define name ⟨type, value⟩ } := by
  unfold declare at h
  split at h
  · cases h
  · next hfit => exact ⟨hfit, (Except.ok.inj h).symm⟩

theorem assign_eq_ok {env' : Env} {name : Bytes} {value : Value} {pos : Option Pos}
    (h : env.assign name value pos = .ok env') :
    ∃ b, env.lookup? name = some b ∧ value.misfit? b.type = none
      ∧ env' = { env with scopes := env.scopes.replaceNearest name ⟨b.type, value⟩ } := by
  unfold assign ScopeStack.assign at h
  split at h
  · cases h
  · next b hb =>
    split at h
    · cases h
    · next hfit => exact ⟨b, hb, hfit, (Except.ok.inj h).symm⟩

theorem pop_eq_ok {env' : Env} (h : env.pop = .ok env') :
    ∃ scopes, env.scopes.pop? = some scopes ∧ env' = { env with scopes } := by
  unfold pop at h
  split at h
  · next scopes hpop => exact ⟨scopes, hpop, (Except.ok.inj h).symm⟩
  · cases h

theorem register_eq_ok {env' : Env} {f : Signature} {pos : Pos}
    (h : env.register f pos = .ok env') :
    env.function? f.name = none ∧ env' = { env with functions := env.functions ++ [f] } := by
  unfold register at h
  split at h
  · cases h
  · next hnone => exact ⟨hnone, (Except.ok.inj h).symm⟩

end Env
end Lumen
