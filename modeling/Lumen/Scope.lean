/-
  Lumen.Scope — names and what they are bound to.

  Scopes lie on a stack: the innermost one is on top, and the global scope at
  the bottom is always there.  A name means its nearest binding.  Defining
  touches the innermost scope only; assigning changes the value, never the
  type, of the nearest binding.

  Main statements:
    * `Scope.find?_insert_self` / `Scope.find?_insert_of_ne` — what a scope
      holds after a name was put into it;
    * `ScopeStack.pop?_push` — leaving undoes entering;
    * `ScopeStack.lookup?_define_self` — a definition is seen at once.
-/
import Lumen.Error

namespace Lumen

/-- What a name is bound to. -/
structure Binding where
  type : Ty
  value : Value
deriving Repr

/-! ## §1. One scope -/

/-- The bindings of one scope, in the order in which their names came up. -/
abbrev Scope := List (Bytes × Binding)

namespace Scope

/-- The binding of a name. -/
def find? (scope : Scope) (name : Bytes) : Option Binding :=
  (List.find? (fun entry => entry.1 == name) scope).map Prod.snd

/-- Binds a name, in place of an earlier binding of it. -/
def insert (name : Bytes) (b : Binding) : Scope → Scope
  | [] => [(name, b)]
  | entry :: rest => if entry.1 == name then (name, b) :: rest else entry :: insert name b rest

theorem find?_insert_self (name : Bytes) (b : Binding) (scope : Scope) :
    (scope.insert name b).find? name = some b := by
  induction scope with
  | nil => simp [insert, find?]
  | cons entry rest ih =>
    by_cases h : entry.1 = name
    · simp [insert, find?, h]
    · simpa [insert, find?, h] using ih

theorem find?_insert_of_ne {name other : Bytes} (h : name ≠ other) (b : Binding)
    (scope : Scope) : (scope.insert name b).find? other = scope.find? other := by
  induction scope with
  | nil => simp [insert, find?, h]
  | cons entry rest ih =>
    by_cases he : entry.1 = name
    · simp [insert, find?, he, h]
    · by_cases ho : entry.1 = other
      · have : other ≠ name := fun h' => h h'.symm
        simp [insert, find?, ho, this]
      · simpa [insert, find?, he, ho] using ih

end Scope

/-! ## §2. The stack -/

/-- The scopes that are open at a place, the innermost first, above the global
    one. -/
structure ScopeStack where
  inner : List Scope := []
  global : Scope := []
deriving Repr

namespace ScopeStack

/-- Only the global scope, with nothing in it. -/
def empty : ScopeStack := {}

/-- How many scopes there are. -/
def depth (s : ScopeStack) : Nat := s.inner.length + 1

/-- All scopes, the innermost first. -/
def scopes (s : ScopeStack) : List Scope := s.inner ++ [s.global]

/-- Enters a new scope. -/
def push (s : ScopeStack) : ScopeStack := { s with inner := [] :: s.inner }

/-- Leaves the innermost scope; the global one cannot be left. -/
def pop? (s : ScopeStack) : Option ScopeStack :=
  match s.inner with
  | [] => none
  | _ :: outer => some { s with inner := outer }

/-- The nearest binding of a name. -/
def lookup? (s : ScopeStack) (name : Bytes) : Option Binding :=
  s.scopes.findSome? fun scope => scope.find? name

/-- Binds a name in the innermost scope. -/
def define (s : ScopeStack) (name : Bytes) (b : Binding) : ScopeStack :=
  match s.inner with
  | [] => { s with global := s.global.insert name b }
  | scope :: outer => { s with inner := scope.insert name b :: outer }

/-- Puts a binding in the place of the nearest binding of a name. -/
def replaceNearest (s : ScopeStack) (name : Bytes) (b : Binding) : ScopeStack :=
  match go s.inner with
  | some inner => { s with inner }
  | none => { s with global := s.global.insert name b }
where
  /-- The scopes with the replacement made, if one of them binds the name. -/
  go : List Scope → Option (List Scope)
    | [] => none
    | scope :: outer =>
      match scope.find? name with
      | some _ => some (scope.insert name b :: outer)
      | none => (go outer).map (scope :: ·)

/-- Stores a value in the nearest binding of a name, if it fits the type. -/
def assign (s : ScopeStack) (name : Bytes) (v : Value) (pos : Option Pos) :
    Except ParseError ScopeStack :=
  match s.lookup? name with
  | none => .error (.refused name .unbound pos)
  | some b =>
    match v.misfit? b.type with
    | some m => .error (.refused name (.misfit b.type m.value) pos)
    | none => .ok (s.replaceNearest name ⟨b.type, v⟩)

theorem depth_pos (s : ScopeStack) : 0 < s.depth := Nat.succ_pos _

theorem pop?_push (s : ScopeStack) : s.push.pop? = some s := rfl

@[simp] theorem depth_push (s : ScopeStack) : s.push.depth = s.depth + 1 := rfl

@[simp] theorem depth_define (s : ScopeStack) (name : Bytes) (b : Binding) :
    (s.define name b).depth = s.depth := by
  unfold define
  split <;> simp_all [depth]

theorem lookup?_define_self (s : ScopeStack) (name : Bytes) (b : Binding) :
    (s.define name b).lookup? name = some b := by
  unfold define
  split <;> simp_all [lookup?, scopes, Scope.find?_insert_self]

theorem lookup?_define_of_ne {name other : Bytes} (h : name ≠ other) (s : ScopeStack)
    (b : Binding) : (s.define name b).lookup? other = s.lookup? other := by
  unfold define
  split <;> simp_all [lookup?, scopes, List.findSome?_cons, Scope.find?_insert_of_ne]

/-! ## §3. Steps -/

/-- An operation on the stack. -/
inductive Step where
  | push
  | pop
  | define (name : Bytes) (b : Binding)
  | assign (name : Bytes) (v : Value) (pos : Option Pos)
  | lookup (name : Bytes)

/-- The name a step is about. -/
def Step.name? : Step → Option Bytes
  | push | pop => none
  | define name _ | assign name _ _ | lookup name => some name

/-- Performs a step; a step that fails leaves the stack as it was. -/
def perform (s : ScopeStack) : Step → Except Failure ScopeStack
  | .push => .ok s.push
  | .pop =>
    match s.pop? with
    | some outer => .ok outer
    | none => .error .globalScope
  | .define name b => .ok (s.define name b)
  | .assign name v pos => (s.assign name v pos).mapError .error
  | .lookup _ => .ok s

/-- What a step has shown: the failure, if it failed, and the stack after it. -/
structure Outcome where
  failure : Option Failure
  stack : ScopeStack

/-- The outcomes of steps performed one after the other. -/
def run (s : ScopeStack) : List Step → List Outcome
  | [] => []
  | step :: rest =>
    match s.perform step with
    | .ok t => ⟨none, t⟩ :: t.run rest
    | .error e => ⟨some e, s⟩ :: s.run rest

end ScopeStack
end Lumen
