/-
  Lumen.Env — what is known at a place of a program.

  An environment holds the open scopes and the functions that have been
  completed so far.  A binding is only ever given a value that fits its type,
  and a function name is taken once and for all.

  Main statements:
    * `function?_register_self` — a registered function is found;
    * `register_eq_error_iff` — registering fails just for a name that is taken.
-/
import Lumen.Scope
import Lumen.Program

namespace Lumen

/-- A function that can be called.  One that is only declared has no body. -/
structure Signature where
  name : Bytes
  params : List Param
  body : Option Block
deriving Repr

/-- The open scopes and the functions completed so far, in order. -/
structure Env where
  scopes : ScopeStack := {}
  functions : List Signature := []
deriving Repr

namespace Env

/-- Nothing declared yet. -/
def empty : Env := {}

/-! ## §1. Variables -/

/-- The nearest binding of a name. -/
def lookup? (env : Env) (name : Bytes) : Option Binding := env.scopes.lookup? name

/-- The declared type of a name that is used at a place. -/
def typeOf (env : Env) (name : Bytes) (pos : Pos) : Except ParseError Ty :=
  match env.lookup? name with
  | some b => .ok b.type
  | none => .error (.undeclared name pos)

/-- Declares a variable in the innermost scope, if the value fits. -/
def declare (env : Env) (name : Bytes) (type : Ty) (value : Value) : Except ParseError Env :=
  match value.misfit? type with
  | some m => .error (.refused name (.misfit type m.value) none)
  | none => .ok { env with scopes := env.scopes.define name ⟨type, value⟩ }

/-- Stores a value in the nearest binding of a name, if it fits. -/
def assign (env : Env) (name : Bytes) (value : Value) (pos : Option Pos) :
    Except ParseError Env :=
  (env.scopes.assign name value pos).map fun scopes => { env with scopes }

/-- Declares variables of which nothing but the type is known. -/
def declareAll (env : Env) (locals : List Param) : Except ParseError Env :=
  locals.foldlM (fun env p => env.declare p.name p.type .unknown) env

/-- How many scopes are open. -/
def depth (env : Env) : Nat := env.scopes.depth

/-- Enters a new scope. -/
def push (env : Env) : Env := { env with scopes := env.scopes.push }

/-- Leaves the innermost scope. -/
def pop (env : Env) : Except Failure Env :=
  match env.scopes.pop? with
  | some scopes => .ok { env with scopes }
  | none => .error .globalScope

/-! ## §2. Functions -/

/-- The function of a name. -/
def function? (env : Env) (name : Bytes) : Option Signature :=
  env.functions.find? fun f => f.name == name

/-- Adds a function that was completed at a place, unless its name is taken. -/
def register (env : Env) (f : Signature) (pos : Pos) : Except ParseError Env :=
  match env.function? f.name with
  | some _ => .error (.duplicateFunction f.name pos)
  | none => .ok { env with functions := env.functions ++ [f] }

theorem function?_register_self {env env' : Env} {f : Signature} {pos : Pos}
    (h : env.register f pos = .ok env') : env'.function? f.name = some f := by
  unfold register at h
  split at h
  · cases h
  · next hnone =>
    cases h
    unfold function? at hnone ⊢
    rw [List.find?_append, hnone]
    simp

theorem register_eq_error_iff (env : Env) (f : Signature) (pos : Pos) :
    (∃ e, env.register f pos = .error e) ↔ (env.function? f.name).isSome = true := by
  unfold register
  split <;> simp_all

end Env
end Lumen
