/-
  Lumen.Proofs.Scoping.Agreement — what the types of an expression depend on.

  The judgements ask an environment for two things only: the type of the nearest
  binding of a name, and the function of a name.  Environments that agree on
  these judge every expression alike.

  Scopes are compared as layers, each of which gives types to some names.  An
  assignment changes no layer and a declaration changes the innermost one, so
  environments with the same layers on top of others that agree stay so.

  Main statements:
    * `layers_pop?` … `layers_assign` — the layers after each change;
    * `Env.Agrees.judge` — every check comes out the same;
    * `Env.store_alike` — an assignment is accepted or rejected alike;
    * `Stacked.agrees` — the same layers on top of others that agree.
-/
import Mathlib.Logic.Function.Basic
import Lumen.Proofs.Scoping.Bindings
import Lumen.Proofs.Checking.Rewritten

namespace Lumen

/-! ## §1. Layers -/

/-- The names that a scope declares, with their types. -/
abbrev Layer := Bytes → Option Ty

def Scope.layer (scope : Scope) : Layer := fun name => (scope.find? name).map Binding.type

/-- What the scopes of a stack declare, the innermost first. -/
def ScopeStack.layers (s : ScopeStack) : List Layer := s.scopes.map Scope.layer

theorem Scope.layer_insert (scope : Scope) (name : Bytes) (b : Binding) :
    (scope.insert name b).layer = Function.update scope.layer name (some b.type) := by
  funext other
  unfold layer
  rw [find?_insert, Function.update_apply]
  split <;> rfl

namespace ScopeStack

theorem layers_cons (scope : Scope) (outer : List Scope) (global : Scope) :
    (ScopeStack.mk (scope :: outer) global).layers
      = scope.layer :: (ScopeStack.mk outer global).layers := rfl

theorem layers_pop? {s t : ScopeStack} (h : s.pop? = some t) : s.layers.tail = t.layers := by
  obtain ⟨inner, global⟩ := s
  cases inner with
  | nil => cases h
  | cons scope outer =>
    obtain rfl : ScopeStack.mk outer global = t := Option.some.inj h
    rfl

theorem layers_define (s : ScopeStack) (name : Bytes) (b : Binding) :
    (s.define name b).layers
      = s.layers.modifyHead fun layer => Function.update layer name (some b.type) := by
  obtain ⟨inner, global⟩ := s
  cases inner with
  | nil => exact congrArg ([·]) (global.layer_insert name b)
  | cons scope outer =>
    exact congrArg (· :: (ScopeStack.mk outer global).layers) (scope.layer_insert name b)

/-- A new value of the same type changes no layer. -/
theorem layers_replaceNearest {s : ScopeStack} {name : Bytes} {b : Binding}
    (h : s.lookup? name = some b) (v : Value) :
    (s.replaceNearest name ⟨b.type, v⟩).layers = s.layers := by
  have hsame : ∀ scope : Scope, scope.find? name = some b →
      (scope.insert name ⟨b.type, v⟩).layer = scope.layer := by
    intro scope hfind
    rw [Scope.layer_insert, Function.update_eq_self_iff]
    unfold Scope.layer
    rw [hfind]
    rfl
  obtain ⟨inner, global⟩ := s
  induction inner with
  | nil =>
    rw [lookup?_global] at h
    exact congrArg ([·]) (hsame global h)
  | cons scope outer ih =>
    rw [lookup?_cons] at h
    cases hfind : scope.find? name with
    | some c =>
      rw [hfind] at h
      obtain rfl : c = b := Option.some.inj h
      rw [replaceNearest_cons_some hfind, layers_cons, layers_cons, hsame scope hfind]
    | none =>
      rw [hfind] at h
      rw [replaceNearest_cons_none hfind, layers_cons, layers_cons]
      exact congrArg (scope.layer :: ·) (ih h)

end ScopeStack

/-- The type of a name in the first layer that has it. -/
def typeIn? (layers : List Layer) : Layer := fun name => layers.findSome? fun layer => layer name

namespace Env

/-- What the open scopes declare, the innermost first. -/
def layers (env : Env) : List Layer := env.scopes.layers

/-- The declared type of a name, as seen from the innermost scope. -/
def type? (env : Env) : Layer := fun name => (env.lookup? name).map Binding.type

theorem type?_eq (env : Env) : env.type? = typeIn? env.layers := by
  funext name
  unfold type? lookup? ScopeStack.lookup? typeIn? layers ScopeStack.layers
  rw [List.findSome?_map, List.map_findSome?]
  rfl

theorem layers_ne_nil (env : Env) : env.layers ≠ [] := by
  simp [layers, ScopeStack.layers, ScopeStack.scopes]

theorem layers_declare {env env' : Env} {name : Bytes} {type : Ty} {value : Value}
    (h : env.declare name type value = .ok env') :
    env'.layers = env.layers.modifyHead fun layer => Function.update layer name (some type) := by
  obtain ⟨-, rfl⟩ := declare_eq_ok h
  exact env.scopes.layers_define name ⟨type, value⟩

theorem layers_assign {env env' : Env} {name : Bytes} {value : Value} {pos : Option Pos}
    (h : env.assign name value pos = .ok env') : env'.layers = env.layers := by
  obtain ⟨b, hb, -, rfl⟩ := assign_eq_ok h
  exact ScopeStack.layers_replaceNearest hb value

theorem layers_pop {env outer : Env} (h : env.pop = .ok outer) :
    env.layers.tail = outer.layers :=
  ScopeStack.layers_pop? (pop_eq_ok_iff.mp h).1

/-- A layer that is not the last can be left. -/
theorem exists_pop {env : Env} (h : env.layers.tail ≠ []) : ∃ outer, env.pop = .ok outer := by
  have hdepth : env.layers.length = env.scopes.depth := by
    simp [layers, ScopeStack.layers, ScopeStack.scopes, ScopeStack.depth]
  have htail : 0 < env.layers.tail.length := List.length_pos_iff.mpr h
  rw [List.length_tail] at htail
  obtain ⟨scopes, hpop⟩ := ScopeStack.exists_pop? (s := env.scopes) (by omega)
  exact ⟨{ env with scopes }, pop_eq_ok_iff.mpr ⟨hpop, rfl⟩⟩

end Env

/-! ## §2. Agreement -/

/-- Environments agree if they have the same functions and give every name the same
    type. -/
structure Env.Agrees (a b : Env) : Prop where
  functions_eq : a.functions = b.functions
  types_eq : a.type? = b.type?

/-- Environments match if they have the same functions and, scope by scope, the same
    names with the same types. -/
structure Env.Matches (a b : Env) : Prop where
  functions_eq : a.functions = b.functions
  layers_eq : a.layers = b.layers

theorem Env.Matches.agrees {a b : Env} (h : a.Matches b) : a.Agrees b where
  functions_eq := h.functions_eq
  types_eq := by rw [type?_eq, type?_eq, h.layers_eq]

theorem Env.Matches.refl (env : Env) : env.Matches env := ⟨rfl, rfl⟩

theorem Env.Matches.trans {a b c : Env} (h : a.Matches b) (h' : b.Matches c) : a.Matches c :=
  ⟨h.functions_eq.trans h'.functions_eq, h.layers_eq.trans h'.layers_eq⟩

/-- Two results concur: values that are related, or the same error. -/
inductive Concur {ε α β : Type} (R : α → β → Prop) : Except ε α → Except ε β → Prop
  | ok {a : α} {b : β} (h : R a b) : Concur R (.ok a) (.ok b)
  | error (e : ε) : Concur R (.error e) (.error e)

namespace Concur
variable {ε α α' β β' : Type} {R : α → β → Prop} {R' : α' → β' → Prop}

/-- What comes of the same result is alike if it is for every value. -/
theorem after {γ : Type} (r : Except ε γ) {k : γ → Except ε α} {k' : γ → Except ε β}
    (hk : ∀ c, Concur R (k c) (k' c)) : Concur R (r >>= k) (r >>= k') := by
  cases r with
  | ok c => exact hk c
  | error e => exact .error e

theorem bind {r : Except ε α} {r' : Except ε β} {k : α → Except ε α'} {k' : β → Except ε β'}
    (h : Concur R r r') (hk : ∀ a b, R a b → Concur R' (k a) (k' b)) :
    Concur R' (r >>= k) (r' >>= k') := by
  cases h with
  | ok h => exact hk _ _ h
  | error e => exact .error e

/-- More may be known of the values. -/
theorem of_ok {r : Except ε α} {r' : Except ε β} (h : Concur (fun _ _ => True) r r')
    (hok : ∀ a b, r = .ok a → r' = .ok b → R a b) : Concur R r r' := by
  cases h with
  | ok _ => exact .ok (hok _ _ rfl rfl)
  | error e => exact .error e

end Concur

section
variable {a b : Env} (h : a.Agrees b)
include h

theorem Env.Agrees.function?_eq (name : Bytes) : a.function? name = b.function? name := by
  unfold Env.function?
  rw [h.functions_eq]

/-- A name is bound in both, with the same type, or in none. -/
theorem Env.Agrees.lookup_alike (name : Bytes) :
    a.lookup? name = none ∧ b.lookup? name = none
      ∨ ∃ x y, a.lookup? name = some x ∧ b.lookup? name = some y ∧ x.type = y.type := by
  have hname : (a.lookup? name).map Binding.type = (b.lookup? name).map Binding.type :=
    congrFun h.types_eq name
  cases ha : a.lookup? name with
  | none =>
    rw [ha] at hname
    exact .inl ⟨rfl, Option.map_eq_none_iff.mp hname.symm⟩
  | some x =>
    rw [ha] at hname
    obtain ⟨y, hy, htype⟩ := Option.map_eq_some_iff.mp hname.symm
    exact .inr ⟨x, y, rfl, hy, htype.symm⟩

theorem Env.typeOf_alike (name : Bytes) (pos : Pos) : a.typeOf name pos = b.typeOf name pos := by
  unfold Env.typeOf
  rcases h.lookup_alike name with ⟨ha, hb⟩ | ⟨x, y, ha, hb, htype⟩
  · rw [ha, hb]
  · rw [ha, hb]
    exact congrArg _ htype

end

/-! ## §3. Judgements

What a judgement asks an environment for is the same in both, so the judgements are. -/

section
variable {a b : Env} (h : a.Agrees b)
include h

/-- Environments that agree come to the same result of every check. -/
theorem Env.Agrees.judge : JudgementCongruence a b id id fun _ r r' => r = r' where
  toRewriting := rewriting_id
  ofOk _ := rfl
  ofBind hr hk := by rw [hr, funext hk]
  ofGot _ _ _ _ _ := rfl
  ofMismatch _ _ _ _ := rfl
  ofArity _ _ _ _ := rfl
  ofTypeOf := Env.typeOf_alike h
  shapes name := by rw [h.function?_eq]

theorem infer_alike (e : Expr) : infer a e = infer b e := infer_congr h.judge e

theorem inferIndices_alike (pos : Pos) (t : Option Ty) (indices : List Expr) :
    inferIndices a pos t indices = inferIndices b pos t indices := by
  have hsame := inferIndices_congr h.judge pos t indices
  rwa [List.map_id] at hsame

theorem checkType_alike (declared : Ty) (e : Expr) (name : Bytes) :
    checkType a declared e name = checkType b declared e name :=
  checkType_congr h.judge declared e name

theorem Env.checkTruth_alike (cond : Expr) : a.checkTruth cond = b.checkTruth cond :=
  checkTruth_congr h.judge cond

theorem Env.checkBounds_alike (var : Bytes) (start stop : Expr) :
    a.checkBounds var start stop = b.checkBounds var start stop :=
  checkBounds_congr h.judge var start stop

/-! ## §4. Changes

Whether a change is refused does not depend on the values of bindings. -/

theorem Env.assign_alike (name : Bytes) (value : Value) (pos : Option Pos) :
    Concur (fun _ _ => True) (a.assign name value pos) (b.assign name value pos) := by
  have hlookup : a.scopes.lookup? name = none ∧ b.scopes.lookup? name = none
      ∨ ∃ x y, a.scopes.lookup? name = some x ∧ b.scopes.lookup? name = some y
        ∧ x.type = y.type := h.lookup_alike name
  unfold Env.assign ScopeStack.assign
  rcases hlookup with ⟨ha, hb⟩ | ⟨x, y, ha, hb, htype⟩
  · rw [ha, hb]
    exact .error _
  · rw [ha, hb]
    dsimp only
    rw [htype]
    cases value.misfit? y.type with
    | some m => exact .error _
    | none => exact .ok trivial

theorem Env.register_alike (f : Signature) (pos : Pos) :
    Concur (fun _ _ => True) (a.register f pos) (b.register f pos) := by
  unfold Env.register
  rw [h.function?_eq]
  cases b.function? f.name with
  | some g => exact .error _
  | none => exact .ok trivial

/-- A store ends with an assignment. -/
theorem Env.store_alike {R : Env → Env → Prop} {pos : Pos} {name : Bytes}
    (hassign : ∀ v, Concur R (a.assign name v (some pos)) (b.assign name v (some pos)))
    (indices : List Expr) (value : Expr) :
    Concur R (a.store pos name indices value) (b.store pos name indices value) := by
  have hstore := store_congr h.judge (fun hr hk => hr ▸ Concur.after _ hk) hassign indices value
  rwa [List.map_id] at hstore

end

/-- Whether a value may be declared does not depend on the environment at all. -/
theorem Env.declare_alike (a b : Env) (name : Bytes) (type : Ty) (value : Value) :
    Concur (fun _ _ => True) (a.declare name type value) (b.declare name type value) := by
  unfold Env.declare
  cases value.misfit? type with
  | some m => exact .error _
  | none => exact .ok trivial

/-! ## §5. The same layers on top -/

theorem typeIn?_append (top base : List Layer) (name : Bytes) :
    typeIn? (top ++ base) name = (typeIn? top name).or (typeIn? base name) :=
  List.findSome?_append

/-- A declaration in the innermost layer is seen at once. -/
theorem typeIn?_modifyHead {layers : List Layer} (hne : layers ≠ []) (name : Bytes) (type : Ty) :
    typeIn? (layers.modifyHead fun layer => Function.update layer name (some type))
      = Function.update (typeIn? layers) name (some type) := by
  cases layers with
  | nil => exact absurd rfl hne
  | cons layer rest =>
    funext other
    simp only [typeIn?, List.modifyHead_cons, List.findSome?_cons, Function.update_apply]
    by_cases hother : other = name
    · simp [hother]
    · simp [hother]

/-- Environments with the same functions, and with the same `n` layers on top of others
    that give every name the same type. -/
def Stacked (n : Nat) (a b : Env) : Prop :=
  a.functions = b.functions ∧ ∃ top base base' : List Layer,
    top.length = n ∧ a.layers = top ++ base ∧ b.layers = top ++ base' ∧
      base ≠ [] ∧ base' ≠ [] ∧ typeIn? base = typeIn? base'

namespace Stacked

variable {n : Nat} {a b : Env}

theorem of_agrees (h : a.Agrees b) : Stacked 0 a b := by
  refine ⟨h.functions_eq, [], a.layers, b.layers, rfl, rfl, rfl, a.layers_ne_nil,
    b.layers_ne_nil, ?_⟩
  rw [← Env.type?_eq, ← Env.type?_eq, h.types_eq]

theorem agrees (h : Stacked n a b) : a.Agrees b := by
  obtain ⟨hfunctions, top, base, base', -, ha, hb, -, -, htypes⟩ := h
  refine ⟨hfunctions, ?_⟩
  rw [Env.type?_eq, Env.type?_eq, ha, hb]
  funext name
  rw [typeIn?_append, typeIn?_append, htypes]

theorem push (h : Stacked n a b) : Stacked (n + 1) a.push b.push := by
  obtain ⟨hfunctions, top, base, base', hlen, ha, hb, hrest⟩ := h
  refine ⟨hfunctions, (fun _ => none) :: top, base, base', congrArg (· + 1) hlen, ?_, ?_, hrest⟩
  · exact congrArg ((fun _ => none) :: ·) ha
  · exact congrArg ((fun _ => none) :: ·) hb

/-- Leaving takes away the same layer. -/
theorem pop (h : Stacked (n + 1) a b) :
    ∃ a' b', a.pop = .ok a' ∧ b.pop = .ok b' ∧ Stacked n a' b' := by
  obtain ⟨hfunctions, top, base, base', hlen, ha, hb, hbase, hbase', htypes⟩ := h
  obtain ⟨layer, top, rfl⟩ := List.exists_cons_of_length_eq_add_one hlen
  -- there is a layer on top of the base in both, so both can be left
  have hdeep : ∀ {env : Env} {base : List Layer}, env.layers = (layer :: top) ++ base → base ≠ [] →
      ∃ outer, env.pop = .ok outer := by
    intro env base hlayers hne
    apply Env.exists_pop
    rw [hlayers]
    exact List.append_ne_nil_of_right_ne_nil top hne
  obtain ⟨a', ha'⟩ := hdeep ha hbase
  obtain ⟨b', hb'⟩ := hdeep hb hbase'
  refine ⟨a', b', ha', hb', ?_, top, base, base', Nat.succ.inj hlen, ?_, ?_, hbase, hbase', htypes⟩
  · rw [← (Env.pop_eq_ok_iff.mp ha').2, ← (Env.pop_eq_ok_iff.mp hb').2, hfunctions]
  · rw [← Env.layers_pop ha', ha]
    rfl
  · rw [← Env.layers_pop hb', hb]
    rfl

theorem declare (h : Stacked n a b) {a' b' : Env} {name : Bytes} {type : Ty}
    {value value' : Value} (ha' : a.declare name type value = .ok a')
    (hb' : b.declare name type value' = .ok b') : Stacked n a' b' := by
  obtain ⟨hfunctions, top, base, base', hlen, ha, hb, hbase, hbase', htypes⟩ := h
  have hfunctions' : a'.functions = b'.functions := by
    obtain ⟨-, rfl⟩ := Env.declare_eq_ok ha'
    obtain ⟨-, rfl⟩ := Env.declare_eq_ok hb'
    exact hfunctions
  have ha₁ := Env.layers_declare ha'
  have hb₁ := Env.layers_declare hb'
  refine ⟨hfunctions', ?_⟩
  rw [ha₁, hb₁, ha, hb]
  cases top with
  | nil =>
    -- a declaration outside of the common layers gives the name the same type in both
    refine ⟨[], base.modifyHead _, base'.modifyHead _, hlen, rfl, rfl, ?_, ?_, ?_⟩
    · exact fun hnil => hbase (List.modifyHead_eq_nil_iff.mp hnil)
    · exact fun hnil => hbase' (List.modifyHead_eq_nil_iff.mp hnil)
    · rw [typeIn?_modifyHead hbase, typeIn?_modifyHead hbase', htypes]
  | cons layer top =>
    exact ⟨Function.update layer name (some type) :: top, base, base', hlen, rfl, rfl, hbase,
      hbase', htypes⟩

/-- An assignment changes no types. -/
theorem assign (h : Stacked n a b) {a' b' : Env} {name : Bytes} {value : Value}
    {pos : Option Pos} (ha' : a.assign name value pos = .ok a')
    (hb' : b.assign name value pos = .ok b') : Stacked n a' b' := by
  have ha := Env.layers_assign ha'
  have hb := Env.layers_assign hb'
  obtain ⟨_, -, -, rfl⟩ := Env.assign_eq_ok ha'
  obtain ⟨_, -, -, rfl⟩ := Env.assign_eq_ok hb'
  obtain ⟨hfunctions, hstack⟩ := h
  rw [← ha, ← hb] at hstack
  exact ⟨hfunctions, hstack⟩

theorem register (h : Stacked n a b) {a' b' : Env} {f : Signature} {pos : Pos}
    (ha' : a.register f pos = .ok a') (hb' : b.register f pos = .ok b') : Stacked n a' b' := by
  obtain ⟨-, rfl⟩ := Env.register_eq_ok ha'
  obtain ⟨-, rfl⟩ := Env.register_eq_ok hb'
  exact ⟨congrArg (· ++ [f]) h.1, h.2⟩

end Stacked

end Lumen
