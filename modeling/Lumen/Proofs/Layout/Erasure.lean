/-
  Lumen.Proofs.Layout.Erasure — judging without places.

  A program without its places is still judged, with errors that have no places
  either.  Nothing that a check asks depends on a place: judging and forgetting the
  places can be done in either order.  So two programs that differ in their places
  alone are accepted alike, or rejected with errors that say the same.

  What an error says is its kind and message, the two texts it is made of, what was
  found, and the name it is about.  None of it needs the place.

  Main statements:
    * `ParseError.saysAs_of_erase_eq` — errors with the same cause say the same;
    * `Env.judge_erase` — judging without places;
    * `Env.store_erase`, `Env.register_erase` — the changes of an environment.
-/
import Lumen.Proofs.Checking.Rewritten
import Lumen.Proofs.Grammar.Spelling

namespace Lumen

/-! ## §1. Errors -/

/-- A token with its place forgotten. -/
def Token.erase (t : Token) : Token := ⟨t.lexeme, {}⟩

namespace ParseError

/-- An error with all places forgotten. -/
def erase : ParseError → ParseError
  | unexpected expected met => unexpected expected (met.map Token.erase)
  | unknownStatement met => unknownStatement met.erase
  | strayTerminator met => strayTerminator met.erase
  | undeclared name _ => undeclared name {}
  | mismatch name wanted got _ => mismatch name wanted got {}
  | duplicateFunction name _ => duplicateFunction name {}
  | arity name expected found _ => arity name expected found {}
  | refused name why pos => refused name why (pos.map fun _ => {})

/-- Two errors say the same, though perhaps of different places. -/
structure SaysAs (e e' : ParseError) : Prop where
  kindName_eq : e.kindName = e'.kindName
  message_eq : e.message = e'.message
  expectedText_eq : e.expectedText = e'.expectedText
  found_eq : e.found?.map Token.lexeme = e'.found?.map Token.lexeme
  foundText_eq : e.foundText = e'.foundText
  name_eq : e.name = e'.name

theorem SaysAs.symm {e e' : ParseError} (h : e.SaysAs e') : e'.SaysAs e :=
  ⟨h.kindName_eq.symm, h.message_eq.symm, h.expectedText_eq.symm, h.found_eq.symm,
    h.foundText_eq.symm, h.name_eq.symm⟩

theorem SaysAs.trans {e e' e'' : ParseError} (h : e.SaysAs e') (h' : e'.SaysAs e'') :
    e.SaysAs e'' :=
  ⟨h.kindName_eq.trans h'.kindName_eq, h.message_eq.trans h'.message_eq,
    h.expectedText_eq.trans h'.expectedText_eq, h.found_eq.trans h'.found_eq,
    h.foundText_eq.trans h'.foundText_eq, h.name_eq.trans h'.name_eq⟩

/-- The token found is the same but for its place. -/
theorem found?_erase (e : ParseError) : e.erase.found? = e.found?.map Token.erase := by
  cases e with
  | unexpected expected met =>
    cases met with
    | none => rfl
    | some t =>
      have hsame : t.erase.isEof = t.isEof := rfl
      simp only [erase, found?, Option.map_some, Option.filter_some, hsame]
      -- the end of the text is not told as found, with its place or without
      split
      · rfl
      · rfl
  | _ => rfl

theorem expectedText_erase (e : ParseError) : e.erase.expectedText = e.expectedText := by
  cases e with
  | refused name why pos => cases why <;> rfl
  | _ => rfl

theorem foundText_unexpected (expected : Expected) (met : Option Token) :
    (unexpected expected met).foundText
      = ((unexpected expected met).found?.map Token.lexeme).elim Lexeme.eof.describe
          Lexeme.describe := by
  rw [foundText]
  cases found? (.unexpected expected met) <;> rfl

theorem foundText_erase (e : ParseError) : e.erase.foundText = e.foundText := by
  cases e with
  | unexpected expected met =>
    have hlexeme : Token.lexeme ∘ Token.erase = Token.lexeme := rfl
    have hfound := found?_erase (.unexpected expected met)
    rw [erase] at hfound ⊢
    rw [foundText_unexpected, foundText_unexpected, hfound, Option.map_map, hlexeme]
  | refused name why pos => cases why <;> rfl
  | _ => rfl

theorem name_erase (e : ParseError) : e.erase.name = e.name := by
  cases e <;> rfl

theorem message_erase (e : ParseError) : e.erase.message = e.message := by
  cases e with
  | unexpected expected met =>
    show ascii "unexpected token: expected " ++ _ ++ ascii ", found "
      ++ (erase (.unexpected expected met)).foundText = _
    rw [foundText_erase]
    rfl
  | refused name why pos => cases why <;> rfl
  | _ => rfl

theorem saysAs_erase (e : ParseError) : e.SaysAs e.erase where
  kindName_eq := by
    cases e with
    | refused name why pos => cases why <;> rfl
    | _ => rfl
  message_eq := e.message_erase.symm
  expectedText_eq := e.expectedText_erase.symm
  found_eq := by
    rw [found?_erase, Option.map_map]
    rfl
  foundText_eq := e.foundText_erase.symm
  name_eq := e.name_erase.symm

theorem saysAs_of_erase_eq {e e' : ParseError} (h : e.erase = e'.erase) : e.SaysAs e' :=
  e.saysAs_erase.trans (h ▸ e'.saysAs_erase.symm)

end ParseError

/-! ## §2. Environments -/

/-- A function with all places in its body forgotten. -/
def Signature.erase (f : Signature) : Signature := { f with body := f.body.map Stmt.eraseBlock }

namespace Env

/-- An environment with all places in function bodies forgotten.  There are none in
    the scopes. -/
def erase (env : Env) : Env := { env with functions := env.functions.map Signature.erase }

@[simp] theorem scopes_erase (env : Env) : env.erase.scopes = env.scopes := rfl

theorem function?_erase (env : Env) (name : Bytes) :
    env.erase.function? name = (env.function? name).map Signature.erase :=
  List.find?_map

end Env

/-! ## §3. Results of checks -/

/-- What a check has come to, with all places forgotten; of a result it is `view`
    that is kept. -/
def forget {α β : Type} (view : α → β) : Except ParseError α → Except ParseError β
  | .ok a => .ok (view a)
  | .error e => .error e.erase

section
variable {α α' β β' : Type} {view : α → β} {view' : α' → β'}

/-- The places of a sequence of checks can be forgotten check by check. -/
theorem bind_forget {r : Except ParseError α} {r' : Except ParseError β}
    {k : α → Except ParseError α'} {k' : β → Except ParseError β'} (h : r' = forget view r)
    (hk : ∀ a, k' (view a) = forget view' (k a)) : r' >>= k' = forget view' (r >>= k) := by
  subst h
  cases r with
  | ok a => exact hk a
  | error e => rfl

end

/-! ## §4. Judgements -/

namespace Expr

theorem pos_erase (e : Expr) : e.erase.pos = {} := by
  cases e <;> rw [erase] <;> rfl

theorem got_erase (e : Expr) (t : Ty) : e.erase.got t = e.got t := by
  cases e <;> rw [erase] <;> rfl

theorem eraseAll_eq_map (es : List Expr) : eraseAll es = es.map erase := by
  induction es with
  | nil => rfl
  | cons e rest ih => rw [eraseAll, List.map_cons, ih]

theorem rewriting_erase : Rewriting erase fun _ => {} where
  pos := pos_erase
  literal _ _ := by rw [erase]
  access _ _ _ := by rw [erase, eraseAll_eq_map]
  neg _ _ := by rw [erase]
  binary _ _ _ _ := by rw [erase]
  logical _ _ _ _ := by rw [erase]
  group _ _ := .inr (by rw [erase])
  list _ _ := by rw [erase, eraseAll_eq_map]
  call _ _ _ := by rw [erase, eraseAll_eq_map]
  method _ _ _ _ _ := by rw [erase, eraseAll_eq_map, eraseAll_eq_map]

/-- Where a constant stands is no part of its value. -/
theorem constant_erase (e : Expr) : e.erase.constant = e.constant := rewriting_erase.constant e

end Expr

namespace Env

theorem typeOf_erase (env : Env) (name : Bytes) (pos : Pos) :
    env.erase.typeOf name {} = forget id (env.typeOf name pos) := by
  have hlookup : env.erase.lookup? name = env.lookup? name := rfl
  unfold typeOf
  rw [hlookup]
  cases env.lookup? name <;> rfl

/-- Judging and forgetting the places can be done in either order. -/
theorem judge_erase (env : Env) :
    JudgementCongruence env env.erase Expr.erase (fun _ => {}) fun _ r r' => r' = forget id r where
  toRewriting := Expr.rewriting_erase
  ofOk _ := rfl
  ofBind := bind_forget
  ofGot _ _ e t _ := by rw [e.got_erase]; rfl
  ofMismatch _ _ _ _ := rfl
  ofArity _ _ _ _ := rfl
  ofTypeOf := env.typeOf_erase
  shapes name := by rw [function?_erase, Option.map_map]; rfl

end Env

/-! ## §5. Checks and changes -/

theorem infer_erase (env : Env) (e : Expr) :
    infer env.erase e.erase = forget id (infer env e) := infer_congr env.judge_erase e

theorem checkType_erase (env : Env) (declared : Ty) (e : Expr) (name : Bytes) :
    checkType env.erase declared e.erase name = forget id (checkType env declared e name) :=
  checkType_congr env.judge_erase declared e name

namespace Env

theorem checkTruth_erase (env : Env) (cond : Expr) :
    env.erase.checkTruth cond.erase = forget id (env.checkTruth cond) :=
  checkTruth_congr env.judge_erase cond

theorem checkBounds_erase (env : Env) (var : Bytes) (start stop : Expr) :
    env.erase.checkBounds var start.erase stop.erase
      = forget id (env.checkBounds var start stop) :=
  checkBounds_congr env.judge_erase var start stop

theorem declare_erase (env : Env) (name : Bytes) (type : Ty) (value : Value) :
    env.erase.declare name type value = forget erase (env.declare name type value) := by
  unfold declare
  cases value.misfit? type <;> rfl

theorem declareAll_erase (env : Env) (locals : List Param) :
    env.erase.declareAll locals = forget erase (env.declareAll locals) := by
  unfold declareAll
  induction locals generalizing env with
  | nil => rfl
  | cons p rest ih =>
    rw [List.foldlM_cons, List.foldlM_cons]
    exact bind_forget (env.declare_erase p.name p.type .unknown) ih

theorem assign_erase (env : Env) (name : Bytes) (value : Value) (pos : Pos) :
    env.erase.assign name value (some {}) = forget erase (env.assign name value (some pos)) := by
  unfold assign ScopeStack.assign
  rw [scopes_erase]
  cases env.scopes.lookup? name with
  | none => rfl
  | some b =>
    dsimp only
    cases value.misfit? b.type <;> rfl

theorem store_erase (env : Env) (pos : Pos) (name : Bytes) (indices : List Expr) (value : Expr) :
    env.erase.store {} name (Expr.eraseAll indices) value.erase
      = forget erase (env.store pos name indices value) := by
  rw [Expr.eraseAll_eq_map]
  exact store_congr (S := fun r r' => r' = forget erase r) env.judge_erase bind_forget
    (fun v => env.assign_erase name v pos) indices value

theorem enact_erase (env : Env) (s : Stmt) :
    env.erase.enact s.erase = forget erase (env.enact s) := by
  cases s with
  | let_ p name type init =>
    rw [Stmt.erase]
    show env.erase.declare name type init.erase.constant = _
    rw [init.constant_erase, declare_erase]
    rfl
  | if_ p cond then_ else_ => rw [Stmt.erase_if]; rfl
  | while_ p cond body => rw [Stmt.erase_while]; rfl
  | for_ p var start stop body => rw [Stmt.erase_for]; rfl
  | fn p name params body => rw [Stmt.erase_fn]; rfl
  | return_ p value => rw [Stmt.erase_return]; rfl
  | _ => rw [Stmt.erase]; rfl

theorem register_erase (env : Env) (f : Signature) (pos : Pos) :
    env.erase.register f.erase {} = forget erase (env.register f pos) := by
  have hname : f.erase.name = f.name := rfl
  unfold register
  rw [hname, function?_erase]
  cases env.function? f.name with
  | some g => rfl
  | none => simp [forget, erase, List.map_append]

end Env

/-! ## §6. Two layouts

Environments and programs that are the same but for their places are told apart by no
check. -/

/-- Two environments have the same scopes, and functions that are the same but for the
    places in their bodies. -/
structure Env.Relaid (a b : Env) : Prop where
  scopes_eq : a.scopes = b.scopes
  functions_eq : a.functions.map Signature.erase = b.functions.map Signature.erase

theorem Env.relaid_iff {a b : Env} : a.Relaid b ↔ a.erase = b.erase := by
  constructor
  · rintro ⟨hscopes, hfunctions⟩
    unfold Env.erase
    rw [hscopes, hfunctions]
  · intro h
    injection h with hscopes hfunctions
    exact ⟨hscopes, hfunctions⟩

/-- Checks that come to the same, places aside, both succeed or both fail. -/
theorem forget_eq_forget {α α' β : Type} {view : α → β} {view' : α' → β}
    {r : Except ParseError α} {r' : Except ParseError α'} (h : forget view r = forget view' r') :
    (∃ a b, r = .ok a ∧ r' = .ok b ∧ view a = view' b)
      ∨ ∃ e e', r = .error e ∧ r' = .error e' ∧ e.erase = e'.erase := by
  cases r with
  | ok a =>
    cases r' with
    | ok b => exact .inl ⟨a, b, rfl, rfl, Except.ok.inj h⟩
    | error e => cases h
  | error e =>
    cases r' with
    | ok b => cases h
    | error e' => exact .inr ⟨e, e', rfl, rfl, Except.error.inj h⟩

section
variable {a b : Env} (h : a.Relaid b)
include h

theorem infer_relaid {e e' : Expr} (he : e.erase = e'.erase) :
    forget id (infer a e) = forget id (infer b e') := by
  rw [← infer_erase, ← infer_erase, Env.relaid_iff.mp h, he]

theorem checkType_relaid (declared : Ty) {e e' : Expr} (he : e.erase = e'.erase) (name : Bytes) :
    forget id (checkType a declared e name) = forget id (checkType b declared e' name) := by
  rw [← checkType_erase, ← checkType_erase, Env.relaid_iff.mp h, he]

namespace Env.Relaid

theorem checkTruth {cond cond' : Expr} (hcond : cond.erase = cond'.erase) :
    forget id (a.checkTruth cond) = forget id (b.checkTruth cond') := by
  rw [← checkTruth_erase, ← checkTruth_erase, relaid_iff.mp h, hcond]

theorem checkBounds (var : Bytes) {start start' stop stop' : Expr}
    (hstart : start.erase = start'.erase) (hstop : stop.erase = stop'.erase) :
    forget id (a.checkBounds var start stop) = forget id (b.checkBounds var start' stop') := by
  rw [← checkBounds_erase, ← checkBounds_erase, relaid_iff.mp h, hstart, hstop]

theorem declareAll (locals : List Param) :
    forget erase (a.declareAll locals) = forget erase (b.declareAll locals) := by
  rw [← declareAll_erase, ← declareAll_erase, relaid_iff.mp h]

theorem store (pos pos' : Pos) (name : Bytes) {indices indices' : List Expr} {value value' : Expr}
    (hindices : Expr.eraseAll indices = Expr.eraseAll indices')
    (hvalue : value.erase = value'.erase) :
    forget erase (a.store pos name indices value)
      = forget erase (b.store pos' name indices' value') := by
  rw [← store_erase, ← store_erase, relaid_iff.mp h, hindices, hvalue]

theorem enact {s s' : Stmt} (hs : s.erase = s'.erase) :
    forget erase (a.enact s) = forget erase (b.enact s') := by
  rw [← enact_erase, ← enact_erase, relaid_iff.mp h, hs]

theorem register {f f' : Signature} (hf : f.erase = f'.erase) (pos pos' : Pos) :
    forget erase (a.register f pos) = forget erase (b.register f' pos') := by
  rw [← register_erase, ← register_erase, relaid_iff.mp h, hf]

theorem push : a.push.Relaid b.push := by
  refine ⟨?_, h.functions_eq⟩
  show a.scopes.push = b.scopes.push
  rw [h.scopes_eq]

/-- There is a scope to leave in both, or in none. -/
theorem pop : (∃ a' b', a.pop = .ok a' ∧ b.pop = .ok b' ∧ a'.Relaid b')
    ∨ a.pop = .error .globalScope ∧ b.pop = .error .globalScope := by
  unfold Env.pop
  rw [h.scopes_eq]
  cases b.scopes.pop? with
  | none => exact .inr ⟨rfl, rfl⟩
  | some scopes => exact .inl ⟨_, _, rfl, rfl, rfl, h.functions_eq⟩

end Env.Relaid

end

end Lumen
