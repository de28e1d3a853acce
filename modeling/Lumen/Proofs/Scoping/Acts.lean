/-
  Lumen.Proofs.Scoping.Acts — what a parse does, act by act.

  A reader does few things besides reading: at top level it begins a statement, it
  enters and leaves scopes, it declares and assigns, it registers a function, and a
  whole parse is finished.  Each act turns one environment into the next, and a traced
  run notes the acts as they come, but for what is declared and assigned.

  So a run is told by its acts.  Those of a statement open and close scopes like
  brackets, and register nothing; those of a program are one statement after the other,
  each followed by what it declares at top level.  A run that fails has made acts, too,
  though it may have left scopes open.  What is stored on the way is unknown or the
  constant of an expression that was read.

  Main statements:
    * `Act`, `Env.Runs` — acts, what they turn and what is noted of them;
    * `Nested`, `Tells` — the acts of a statement and of a program;
    * `Performs` — a reader by its acts, with `Performs.bind` for a sequence;
    * `stmt_performs` / `topStmts_performs` — statements and programs;
    * `Operation.inSteps_performs` — every operation, whatever steps it may take.
-/
import Lumen.Proofs.Checking.Stable
import Lumen.Proofs.Reading.Progress

namespace Lumen

/-! ## §1. Acts -/

/-- Something that a parse does besides reading. -/
inductive Act where
  | begin (first : Token)
  | enter
  | leave
  | declare (name : Bytes) (type : Ty) (value : Value)
  | assign (name : Bytes) (value : Value)
  | register (f : Signature)
  | finish (statements : Nat)

namespace Act

/-- An act turns one environment into another. -/
def Turns : Act → Env → Env → Prop
  | begin _, a, b | finish _, a, b => a = b
  | enter, a, b => a.push = b
  | leave, a, b => a.pop = .ok b
  | declare name type value, a, b => a.declare name type value = .ok b
  | assign name value, a, b => ∃ pos, a.assign name value pos = .ok b
  | register f, a, b => ∃ pos, a.register f pos = .ok b

/-- What a traced run notes of an act, in the environment after it. -/
def events (after : Env) : Act → List Event
  | begin first => [.statement first.pos.line first.lexeme]
  | enter => [.entered after.depth]
  | leave => [.left after.depth]
  | declare _ _ _ | assign _ _ => []
  | register f => [.registered f.name f.params.length]
  | finish n => [.parsed n after.functions.length]

/-- The value that an act stores. -/
def value? : Act → Option Value
  | declare _ _ value | assign _ value => some value
  | _ => none

/-- Whether an act neither opens nor closes anything, and is not noted. -/
def isQuiet : Act → Bool
  | declare _ _ _ | assign _ _ => true
  | _ => false

end Act

/-- Acts lead from one environment to another, and some events are noted of them. -/
inductive Env.Runs : Env → List Act → List Event → Env → Prop where
  | nil (a : Env) : Runs a [] [] a
  | cons {a b c : Env} {act : Act} {acts : List Act} {es : List Event} (h : act.Turns a b)
      (hrest : Runs b acts es c) : Runs a (act :: acts) (act.events b ++ es) c

namespace Env

variable {a b c : Env} {act : Act} {acts more : List Act} {es es' : List Event}

theorem runs_single (act : Act) (h : act.Turns a b) : a.Runs [act] (act.events b) b := by
  simpa using Runs.cons h (.nil b)

theorem Runs.append (h : a.Runs acts es b) (h' : b.Runs more es' c) :
    a.Runs (acts ++ more) (es ++ es') c := by
  induction h with
  | nil => exact h'
  | cons hturn _ ih =>
    rw [List.append_assoc]
    exact .cons hturn (ih h')

/-- Acts in two parts have led to an environment in between. -/
theorem Runs.split (h : a.Runs (acts ++ more) es c) :
    ∃ b first second, a.Runs acts first b ∧ b.Runs more second c ∧ es = first ++ second := by
  induction acts generalizing a es with
  | nil => exact ⟨a, [], es, .nil a, h, rfl⟩
  | cons act acts ih =>
    cases h with
    | cons hturn hrest =>
      obtain ⟨b, first, second, hfirst, hsecond, rfl⟩ := ih hrest
      exact ⟨b, _, second, .cons hturn hfirst, hsecond, (List.append_assoc _ _ _).symm⟩

end Env

/-- Acts that open and close scopes like brackets, and else declare and assign only. -/
inductive Nested : List Act → Prop where
  | nil : Nested []
  | quiet {act : Act} {acts : List Act} (hact : act.isQuiet = true) (h : Nested acts) :
      Nested (act :: acts)
  | scope {inner acts : List Act} (hinner : Nested inner) (h : Nested acts) :
      Nested (.enter :: (inner ++ .leave :: acts))

theorem Nested.append {acts more : List Act} (h : Nested acts) (h' : Nested more) :
    Nested (acts ++ more) := by
  induction h with
  | nil => exact h'
  | quiet hact _ ih => exact .quiet hact ih
  | scope hinner _ _ ih =>
    rw [List.cons_append, List.append_assoc]
    exact .scope hinner ih

/-- What a statement does at top level when it is complete. -/
def Stmt.enacts : Stmt → List Act
  | .fn _ name params body => [.register ⟨name, params, some body⟩]
  | .let_ _ name type init => [.declare name type init.constant]
  | _ => []

/-- The acts of statements at top level, one after the other.  Each begins at its first token,
    and takes effect when it is complete. -/
inductive Tells (o : Options) : Program → List Act → Prop where
  | nil : Tells o [] []
  | cons {s : Stmt} {p : Program} {first : Token} {inner acts : List Act}
      (hfirst : first.pos = s.pos) (hinner : Nested inner) (hrest : Tells o p acts) :
      Tells o (s :: p)
        (.begin first :: (inner ++ ((if o.checked then s.enacts else []) ++ acts)))

/-! ## §2. Changes of the environment as acts -/

/-- Whether acts store values in `V` only. -/
def StoresIn (V : Value → Prop) (acts : List Act) : Prop :=
  ∀ act ∈ acts, ∀ v, act.value? = some v → V v

/-- A value is unknown, or the constant of an expression in `W`. -/
def Value.KnownFrom (W : Expr → Prop) (v : Value) : Prop :=
  v = .unknown ∨ ∃ e, W e ∧ v = e.constant

/-- What a `let` gives its variable is in `W`. -/
def Stmt.Inits (W : Expr → Prop) : Stmt → Prop
  | .let_ _ _ _ init => W init
  | _ => True

section
variable {W : Expr → Prop} {V : Value → Prop} {acts more : List Act}

theorem storesIn_nil : StoresIn V [] := List.forall_mem_nil _

theorem StoresIn.append (h : StoresIn V acts) (h' : StoresIn V more) : StoresIn V (acts ++ more) :=
  List.forall_mem_append.mpr ⟨h, h'⟩

theorem storesIn_single {act : Act} (h : ∀ v, act.value? = some v → V v) : StoresIn V [act] :=
  List.forall_mem_singleton.mpr h

theorem Stmt.Inits.storesIn {s : Stmt} (h : s.Inits W) : StoresIn (Value.KnownFrom W) s.enacts := by
  cases s with
  | let_ p name type init =>
    apply storesIn_single
    rintro v ⟨⟩
    exact .inr ⟨init, h, rfl⟩
  | fn p name params body =>
    apply storesIn_single
    rintro v ⟨⟩
  | _ => exact storesIn_nil

end

namespace Env

variable {a b : Env}

theorem runs_declareAll {locals : List Param} (h : a.declareAll locals = .ok b) :
    a.Runs (locals.map fun p => .declare p.name p.type .unknown) [] b := by
  unfold declareAll at h
  induction locals generalizing a with
  | nil =>
    obtain rfl := Except.ok.inj h
    exact .nil a
  | cons p rest ih =>
    rw [List.foldlM_cons] at h
    -- one declaration is one act, and the others go on from there
    cases hdeclare : a.declare p.name p.type .unknown with
    | error e =>
      rw [hdeclare] at h
      cases h
    | ok mid =>
      rw [hdeclare] at h
      have hturn : (Act.declare p.name p.type .unknown).Turns a mid := hdeclare
      exact .cons hturn (ih h)

theorem nested_declareAll (locals : List Param) :
    Nested (locals.map fun p => .declare p.name p.type .unknown) := by
  induction locals with
  | nil => exact .nil
  | cons p rest ih => exact .quiet rfl ih

theorem storesIn_declareAll (W : Expr → Prop) (locals : List Param) :
    StoresIn (Value.KnownFrom W) (locals.map fun p => .declare p.name p.type .unknown) := by
  intro act hact v hv
  obtain ⟨p, -, rfl⟩ := List.mem_map.mp hact
  obtain rfl := Option.some.inj hv
  exact .inl rfl

/-- What a statement does when it is complete, unless it is a function. -/
theorem runs_enact {s : Stmt} (h : a.enact s = .ok b) :
    (∃ p name params body, s = .fn p name params body) ∨ a.Runs s.enacts [] b := by
  cases s with
  | let_ p name type init => exact .inr (runs_single (.declare name type init.constant) h)
  | fn p name params body => exact .inl ⟨p, name, params, body, rfl⟩
  | _ =>
    obtain rfl := Except.ok.inj h
    exact .inr (.nil a)

end Env

namespace Parse
open CursorM

/-! ## §3. Runs as acts -/

/-- A run from `s` has come to `t` by some acts, which store values in `V` only. -/
structure Comes (o : Options) (V : Value → Prop) (s : State) (acts : List Act) (t : State) :
    Prop where
  runs : ∃ es, s.env.Runs acts es t.env
    ∧ t.trace.toList = s.trace.toList ++ if o.trace then es else []
  stores : StoresIn V acts

section
variable {o : Options} {V : Value → Prop} {s t t' : State} {acts more : List Act}

/-- Without an act, nothing but the cursor has changed. -/
theorem comes_nil (s : State) (c : Cursor) : Comes o V s [] { s with cursor := c } where
  runs := ⟨[], .nil s.env, by simp⟩
  stores := storesIn_nil

theorem Comes.trans (h : Comes o V s acts t) (h' : Comes o V t more t') :
    Comes o V s (acts ++ more) t' := by
  obtain ⟨⟨es, hruns, htrace⟩, hstores⟩ := h
  obtain ⟨⟨es', hruns', htrace'⟩, hstores'⟩ := h'
  refine ⟨⟨es ++ es', hruns.append hruns', ?_⟩, hstores.append hstores'⟩
  rw [htrace', htrace, List.append_assoc]
  cases o.trace <;> rfl

end

section
variable (o : Options) (I : Cursor → Prop) (V : Value → Prop) {α β : Type}

/-- From `s`, a run of `m` goes on by acts that store values in `V` only.  What it gives, the
    acts and the state that it comes to are in `Q`. -/
def PerformsAt (m : ParseM α) (s : State) (Q : α → List Act → State → Prop) : Prop :=
  Ends m s (fun a t => I t.cursor ∧ ∃ acts, Comes o V s acts t ∧ Q a acts t)
    fun _ t => ∃ acts, Comes o V s acts t

/-- From any state with a cursor in `I`, what a reader gives and its acts are in `Q`. -/
def Performs (m : ParseM α) (Q : α → List Act → Prop) : Prop :=
  ∀ s, I s.cursor → PerformsAt o I V m s fun a acts _ => Q a acts

variable {o I V} {m : ParseM α} {k : α → ParseM β} {s : State}

theorem PerformsAt.bind {Q : α → List Act → State → Prop} {Q' : β → List Act → State → Prop}
    (h : PerformsAt o I V m s Q)
    (hk : ∀ a acts t, I t.cursor → Q a acts t →
      PerformsAt o I V (k a) t fun b more t' => Q' b (acts ++ more) t') :
    PerformsAt o I V (m >>= k) s Q' := by
  rw [PerformsAt, ends_bind]
  apply Ends.mono h
  · rintro a t ⟨ht, acts, hcomes, ha⟩
    apply (hk a acts t ht ha).mono
    · rintro b t' ⟨ht', more, hcomes', hb⟩
      exact ⟨ht', acts ++ more, hcomes.trans hcomes', hb⟩
    · rintro _ t' ⟨more, hcomes'⟩
      exact ⟨acts ++ more, hcomes.trans hcomes'⟩
  · exact fun _ _ he => he

/-- A sequence performs the acts of its parts one after the other. -/
theorem Performs.bind {Q : α → List Act → Prop} {Q' : β → List Act → Prop}
    (h : Performs o I V m Q)
    (hk : ∀ a acts, Q a acts → Performs o I V (k a) fun b more => Q' b (acts ++ more)) :
    Performs o I V (m >>= k) Q' :=
  fun s hs => (h s hs).bind fun a acts t ht ha => hk a acts ha t ht

theorem Performs.mono {Q Q' : α → List Act → Prop} (h : Performs o I V m Q)
    (hQ : ∀ a acts, Q a acts → Q' a acts) : Performs o I V m Q' := by
  intro s hs
  apply (h s hs).weaken
  rintro a t ⟨ht, acts, hcomes, ha⟩
  exact ⟨ht, acts, hcomes, hQ a acts ha⟩

theorem performs_pure {a : α} {Q : α → List Act → Prop} (h : Q a []) :
    Performs o I V (pure a) Q :=
  fun s hs => ⟨hs, [], comes_nil s s.cursor, h⟩

theorem performs_throw (f : Failure) (Q : α → List Act → Prop) :
    Performs o I V (throw f : ParseM α) Q :=
  fun s _ => ⟨[], comes_nil s s.cursor⟩

/-- Any error of a grammar or a check. -/
abbrev AnyError : ParseError → Prop := fun _ => True

/-- Reading tokens is no act. -/
theorem lift_performs {m : CursorM α} {P : α → Prop} (hm : Draws I AnyError m P) :
    Performs o I V (liftM m) fun a acts => P a ∧ acts = [] := by
  intro s hs
  rw [PerformsAt, ends_lift]
  apply (hm s.cursor hs).mono
  · rintro a c ⟨ha, hc⟩
    exact ⟨hc, [], comes_nil s c, ha, rfl⟩
  · rintro _ c -
    exact ⟨[], comes_nil s c⟩

theorem performs_read {m : CursorM α} {P : α → Prop} (hm : Draws I AnyError m P)
    {Q : β → List Act → Prop} (hk : ∀ a, P a → Performs o I V (k a) Q) :
    Performs o I V (liftM m >>= k) Q := by
  apply (lift_performs hm).bind
  rintro a _ ⟨ha, rfl⟩
  exact hk a ha

theorem unexpected_performs (expected : Expected) (Q : α → List Act → Prop) :
    Performs o I V (liftM (unexpected expected : CursorM α)) Q := by
  apply (lift_performs (unexpected_draws (Q := fun _ => False) expected)).mono
  rintro _ _ ⟨hnone, -⟩
  exact hnone.elim

/-- A check is no act either. -/
theorem performs_check {check : Env → Except ParseError α} {k : Unit → ParseM β}
    {Q : β → List Act → Prop} (hk : ∀ x, Performs o I V (k x) Q) :
    Performs o I V (checking o check >>= k) Q := by
  have hcheck : Performs o I V (checking o check) fun _ acts => acts = [] := by
    unfold checking
    split
    · intro s hs
      rw [PerformsAt, ends_bind, ends_get, ends_bind]
      exact ends_certain_ok (fun _ _ => ⟨hs, [], comes_nil s s.cursor, rfl⟩)
        fun _ => ⟨[], comes_nil s s.cursor⟩
    · exact performs_pure rfl
  apply hcheck.bind
  rintro x _ rfl
  exact hk x

/-! ## §4. Changes and scopes -/

/-- A change that is made of acts, if it is made at all. -/
theorem updating_performs {change : Env → Except ParseError Env} {Q : List Act → Prop}
    (hoff : o.checked = false → Q [])
    (hon : o.checked = true → ∀ a b, change a = .ok b →
      ∃ acts, a.Runs acts [] b ∧ StoresIn V acts ∧ Q acts) :
    Performs o I V (updating o change) fun _ acts => Q acts := by
  unfold updating
  split
  · next hchecked =>
    intro s hs
    rw [PerformsAt, ends_bind, ends_get, ends_bind]
    apply ends_certain_ok
    · intro env henv
      obtain ⟨acts, hruns, hstores, hacts⟩ := hon hchecked _ _ (ok_of_orFail henv)
      rw [ends_modify]
      exact ⟨hs, acts, ⟨⟨[], hruns, by simp⟩, hstores⟩, hacts⟩
    · exact fun _ => ⟨[], comes_nil s s.cursor⟩
  · next hchecked => exact performs_pure (hoff (by simpa using hchecked))

/-- What is noted of one act. -/
theorem ends_noted (act : Act) {s : State} {e : Event} {env : Env} (hturn : act.Turns s.env env)
    (hevent : act.events env = [e]) (hstores : act.value? = none)
    {Q : Unit → State → Prop} {E : Failure → State → Prop}
    (hQ : ∀ t, t.cursor = s.cursor → Comes o V s [act] t → Q () t) :
    Ends (note o e) { s with env } Q E := by
  have hruns : s.env.Runs [act] [e] env := hevent ▸ Env.runs_single act hturn
  have hstored : StoresIn V [act] := storesIn_single fun v hv => by rw [hstores] at hv; cases hv
  unfold note
  split
  · next htrace => exact hQ _ rfl ⟨⟨[e], hruns, by simp [htrace]⟩, hstored⟩
  · next htrace => exact hQ _ rfl ⟨⟨[e], hruns, by simp [htrace]⟩, hstored⟩

theorem enter_performs : Performs o I V (enter o) fun _ acts => acts = [.enter] := by
  intro s hs
  unfold enter
  rw [PerformsAt, ends_bind, ends_modify, ends_bind, ends_get]
  apply ends_noted .enter rfl rfl rfl
  intro t ht hcomes
  exact ⟨by rwa [ht], _, hcomes, rfl⟩

theorem leave_performs : Performs o I V (leave o) fun _ acts => acts = [.leave] := by
  intro s hs
  unfold leave
  rw [PerformsAt, ends_bind, ends_get, ends_bind]
  apply ends_certain_ok
  · intro env henv
    rw [ends_bind, ends_modify]
    apply ends_noted .leave henv rfl rfl
    intro t ht hcomes
    exact ⟨by rwa [ht], _, hcomes, rfl⟩
  · exact fun _ => ⟨[], comes_nil s s.cursor⟩

theorem register_performs (f : Signature) (pos : Pos) :
    Performs o I V (register o f pos) fun _ acts => acts = [.register f] := by
  intro s hs
  unfold register
  rw [PerformsAt, ends_bind, ends_get, ends_bind]
  apply ends_certain_ok
  · intro env henv
    rw [ends_bind, ends_modify]
    apply ends_noted (.register f) ⟨pos, ok_of_orFail henv⟩ rfl rfl
    intro t ht hcomes
    exact ⟨by rwa [ht], _, hcomes, rfl⟩
  · exact fun _ => ⟨[], comes_nil s s.cursor⟩

end

/-- A block in a scope of its own makes its acts between entering and leaving. -/
theorem inScope_performs {o : Options} {I : Cursor → Prop} {W : Expr → Prop} {α : Type}
    (locals : List Param) {body : ParseM α}
    (hbody : Performs o I (Value.KnownFrom W) body fun _ acts => Nested acts) :
    Performs o I (Value.KnownFrom W) (inScope o locals body) fun _ acts => Nested acts := by
  unfold inScope
  split
  · apply enter_performs.bind
    rintro _ _ rfl
    apply (updating_performs (Q := Nested) (fun _ => .nil) ?_).bind
    · intro _ declared hdeclared
      apply hbody.bind
      intro a acts hacts
      apply leave_performs.bind
      rintro _ _ rfl
      apply performs_pure
      -- what is declared and what the body does stand between the two
      show Nested (.enter :: (declared ++ (acts ++ [.leave])))
      rw [← List.append_assoc]
      exact .scope (hdeclared.append hacts) .nil
    · intro _ a b hrun
      exact ⟨_, Env.runs_declareAll hrun, Env.storesIn_declareAll W locals,
        Env.nested_declareAll locals⟩
  · exact hbody

/-! ## §5. Statements

What a statement does is nested, and if it is a `let`, the value it gives has been read. -/

/-- Reading keeps `I`, and every expression that is read under it is in `W`. -/
structure Admits (I : Cursor → Prop) (W : Expr → Prop) : Prop where
  supplies : Supplies I (fun _ => True) AnyError
  expr : ∀ n, Draws I AnyError (expr n) W

/-- The acts of a reader of statements. -/
def PerformsStmt (o : Options) (I : Cursor → Prop) (W : Expr → Prop) (m : ParseM Stmt) : Prop :=
  Performs o I (Value.KnownFrom W) m fun a acts => Nested acts ∧ a.Inits W

section
variable {o : Options} {I : Cursor → Prop} {W : Expr → Prop} (h : Admits I W)
include h

section
variable {stmt : ParseM Stmt} (hstmt : PerformsStmt o I W stmt)
include hstmt

omit h in
theorem stmts_performs (steps : Nat) :
    Performs o I (Value.KnownFrom W) (stmts o stmt steps) fun _ acts => Nested acts := by
  induction steps with
  | zero => exact performs_throw _ _
  | succ steps ih =>
    unfold stmts
    apply performs_read blockEnds_draws
    intro ends _
    split
    · exact performs_pure .nil
    · apply hstmt.bind
      rintro a acts ⟨hacts, hinit⟩
      apply (updating_performs (Q := Nested) (fun _ => .nil) ?_).bind
      · intro _ enacted henacted
        apply ih.bind
        intro rest more hmore
        exact performs_pure (hacts.append (henacted.append (hmore.append .nil)))
      · intro _ x y hrun
        cases a with
        | let_ p name type init =>
          exact ⟨_, Env.runs_single (.declare name type init.constant) hrun,
            hinit.storesIn, .quiet rfl .nil⟩
        | _ =>
          obtain rfl := Except.ok.inj hrun
          exact ⟨[], .nil x, storesIn_nil, .nil⟩

theorem block_performs (steps : Nat) (locals : List Param) :
    Performs o I (Value.KnownFrom W) (block o stmt steps locals) fun _ acts => Nested acts := by
  unfold block
  have hpos : Draws I AnyError blockPos fun _ => True :=
    (token?_draws h.supplies).bind fun _ _ => draws_pure trivial
  apply performs_read hpos
  intro pos _
  apply (inScope_performs locals (stmts_performs hstmt steps)).bind
  intro body acts hacts
  exact performs_pure (hacts.append .nil)

theorem elseBlock_performs (steps : Nat) :
    Performs o I (Value.KnownFrom W) (elseBlock o stmt steps) fun _ acts => Nested acts := by
  unfold elseBlock
  apply performs_read (accept_draws h.supplies _)
  intro isElse _
  split
  · apply (block_performs h hstmt steps []).bind
    intro b acts hacts
    exact performs_pure (hacts.append .nil)
  · exact performs_pure .nil

theorem ifStmt_performs (steps : Nat) : PerformsStmt o I W (ifStmt o stmt steps) := by
  unfold ifStmt
  apply performs_read (advance_draws h.supplies)
  intro t _
  apply performs_read (h.expr steps)
  intro cond _
  apply performs_check
  intro _
  apply (block_performs h hstmt steps []).bind
  intro then_ acts hacts
  apply (elseBlock_performs h hstmt steps).bind
  intro else_ more hmore
  apply performs_read (word_draws h.supplies _)
  intro _ _
  exact performs_pure ⟨hacts.append (hmore.append .nil), trivial⟩

theorem whileStmt_performs (steps : Nat) : PerformsStmt o I W (whileStmt o stmt steps) := by
  unfold whileStmt
  apply performs_read (advance_draws h.supplies)
  intro t _
  apply performs_read (h.expr steps)
  intro cond _
  apply performs_check
  intro _
  apply (block_performs h hstmt steps []).bind
  intro body acts hacts
  apply performs_read (word_draws h.supplies _)
  intro _ _
  exact performs_pure ⟨hacts.append .nil, trivial⟩

theorem forStmt_performs (steps : Nat) : PerformsStmt o I W (forStmt o stmt steps) := by
  unfold forStmt
  apply performs_read (advance_draws h.supplies)
  intro t _
  apply performs_read (identifier_draws h.supplies _)
  intro var hvar
  apply performs_read (mark_draws h.supplies _)
  intro _ _
  apply performs_read (loopType_draws h.supplies steps hvar)
  intro _ _
  apply performs_read (mark_draws h.supplies _)
  intro _ _
  apply performs_read (h.expr steps)
  intro start _
  apply performs_read (mark_draws h.supplies _)
  intro _ _
  apply performs_read (h.expr steps)
  intro stop _
  apply performs_check
  intro _
  apply (block_performs h hstmt steps _).bind
  intro body acts hacts
  apply performs_read (word_draws h.supplies _)
  intro _ _
  exact performs_pure ⟨hacts.append .nil, trivial⟩

theorem fnStmt_performs (steps : Nat) : PerformsStmt o I W (fnStmt o stmt steps) := by
  unfold fnStmt
  apply performs_read (advance_draws h.supplies)
  intro t _
  apply performs_read (identifier_draws h.supplies _)
  intro name _
  apply performs_read (params_draws h.supplies steps)
  intro ps _
  apply (block_performs h hstmt steps ps).bind
  intro body acts hacts
  apply performs_read (word_draws h.supplies _)
  intro _ _
  exact performs_pure ⟨hacts.append .nil, trivial⟩

end

theorem letStmt_performs (steps : Nat) : PerformsStmt o I W (letStmt o steps) := by
  unfold letStmt
  apply performs_read (advance_draws h.supplies)
  intro t _
  apply performs_read (identifier_draws h.supplies _)
  intro name _
  apply performs_read (mark_draws h.supplies _)
  intro _ _
  apply performs_read (type_draws h.supplies steps)
  intro ty _
  apply performs_read (mark_draws h.supplies _)
  intro _ _
  apply performs_read (h.expr steps)
  intro init hinit
  apply performs_check
  intro _
  exact performs_pure ⟨.nil, hinit⟩

theorem printStmt_performs (steps : Nat) : PerformsStmt o I W (printStmt o steps) := by
  unfold printStmt
  apply performs_read (advance_draws h.supplies)
  intro t _
  apply performs_read (h.expr steps)
  intro value _
  apply performs_check
  intro _
  exact performs_pure ⟨.nil, trivial⟩

theorem returnStmt_performs (steps : Nat) : PerformsStmt o I W (returnStmt o steps) := by
  unfold returnStmt
  apply performs_read (advance_draws h.supplies)
  intro t _
  apply performs_read blockEnds_draws
  intro ends _
  apply performs_read (isAt_draws _)
  intro semicolon _
  split
  · exact performs_pure ⟨.nil, trivial⟩
  · apply performs_read (h.expr steps)
    intro value _
    apply performs_check
    intro _
    exact performs_pure ⟨.nil, trivial⟩

/-- An assignment stores its value at once. -/
theorem nameStmt_performs (steps : Nat) (name : Bytes) :
    PerformsStmt o I W (nameStmt o steps name) := by
  unfold nameStmt
  apply performs_read (advance_draws h.supplies)
  intro t _
  have htarget : Draws I AnyError (named (Parse.expr steps) steps t.pos name) fun _ => True :=
    fun c hc => (named_draws h.supplies (expr_draws h.supplies steps) steps
      (t := ⟨.ident name, t.pos⟩) trivial rfl c hc).weaken fun _ _ hd => ⟨trivial, hd.2⟩
  apply performs_read htarget
  intro target _
  apply performs_read (isAt_draws _)
  intro isEqual _
  split
  · split
    · next pos name path =>
      apply performs_read (mark_draws h.supplies _)
      intro _ _
      apply performs_read (h.expr steps)
      intro value hvalue
      apply (updating_performs (Q := Nested) (fun _ => .nil) ?_).bind
      · intro _ acts hacts
        exact performs_pure ⟨hacts.append .nil, trivial⟩
      · intro _ a b hrun
        obtain ⟨v, hv, hassign⟩ := Env.exists_assign_of_store hrun
        refine ⟨_, Env.runs_single (.assign name v) ⟨_, hassign⟩, ?_, .quiet rfl .nil⟩
        apply storesIn_single
        rintro _ ⟨⟩
        exact hv.imp_right fun hv => ⟨value, hvalue, hv⟩
    · exact unexpected_performs _ _
  · apply performs_check
    intro _
    exact performs_pure ⟨.nil, trivial⟩

theorem bareStmt_performs {stmt : ParseM Stmt} (hstmt : PerformsStmt o I W stmt) (steps : Nat) :
    PerformsStmt o I W (bareStmt o stmt steps) := by
  unfold bareStmt
  apply performs_read (token?_draws h.supplies)
  intro t? _
  split
  · exact unexpected_performs _ _
  · split
    · exact letStmt_performs h steps
    · exact printStmt_performs h steps
    · exact ifStmt_performs h hstmt steps
    · exact whileStmt_performs h hstmt steps
    · exact forStmt_performs h hstmt steps
    · exact fnStmt_performs h hstmt steps
    · exact returnStmt_performs h steps
    · exact nameStmt_performs h steps _
    · exact performs_throw _ _
    · exact performs_throw _ _
    · exact performs_throw _ _

/-- Statements, by induction on the steps: the statements in blocks are read with one step
    less. -/
theorem stmt_performs (steps : Nat) : PerformsStmt o I W (stmt o steps) := by
  induction steps with
  | zero => exact performs_throw _ _
  | succ steps ih =>
    rw [stmt_succ]
    apply (bareStmt_performs h ih (steps + 1)).bind
    rintro a acts ⟨hacts, hinit⟩
    apply performs_read (accept_draws h.supplies _)
    intro _ _
    exact performs_pure ⟨hacts.append .nil, hinit⟩

/-! ## §6. Programs and other operations -/

omit h in
/-- A statement stands at the token at the cursor. -/
theorem stmt_first (n : Nat) {s : State} {first : Token} (hfirst : s.cursor.token? = some first) :
    Ends (stmt o n) s (fun a _ => first.pos = a.pos) fun _ _ => True := by
  cases hs : closes s.cursor.lexemes with
  | true => exact (stmt_of_closes o n hs).mono (fun _ _ hno => hno.elim) fun _ _ _ => trivial
  | false =>
    apply Ends.mono (stmt_takesAt o n s hs)
    · rintro a t ⟨ts, -, hspans, hhead⟩
      have hpos : ts.head?.map Token.pos = some a.pos := Stmt.first_of_withSemicolon hspans
      rw [hhead, hfirst] at hpos
      exact Option.some.inj hpos
    · exact fun _ _ _ => trivial

omit h in
theorem enactTop_performs {a : Stmt} (ha : a.Inits W) :
    Performs o I (Value.KnownFrom W) (enactTop o a) fun _ acts =>
      acts = if o.checked = true then a.enacts else [] := by
  unfold enactTop
  split
  · next hon =>
    split
    · exact register_performs _ _
    · next hne =>
      apply updating_performs (Q := (· = a.enacts))
      · intro hoff
        rw [hon] at hoff
        cases hoff
      · intro _ x y hrun
        -- a function is registered instead; nothing else is
        rcases Env.runs_enact hrun with ⟨p, name, ps, body, rfl⟩ | hruns
        · exact (hne p name ps body rfl).elim
        · exact ⟨_, hruns, ha.storesIn, rfl⟩
  · exact performs_pure rfl

theorem topStmts_performs (n steps : Nat) :
    Performs o I (Value.KnownFrom W) (topStmts o n steps) (Tells o) := by
  induction steps with
  | zero => exact performs_throw _ _
  | succ steps ih =>
    intro s hs
    unfold topStmts
    rw [PerformsAt, ends_looks token?_looks.lift]
    split
    · exact performs_pure .nil s hs
    · next first hfirst =>
      -- the statement that begins here stands at this token
      have hbegin : PerformsAt o I (Value.KnownFrom W)
          (note o (.statement first.pos.line first.lexeme)) s
          fun _ acts t => acts = [.begin first] ∧ t.cursor.token? = some first := by
        apply ends_noted (.begin first) rfl rfl rfl
        intro t ht hcomes
        exact ⟨by rwa [ht], _, hcomes, rfl, by rwa [ht]⟩
      apply hbegin.bind
      rintro _ _ t ht ⟨rfl, hcursor⟩
      have hstmt : PerformsAt o I (Value.KnownFrom W) (stmt o n) t
          fun a acts _ => (Nested acts ∧ a.Inits W) ∧ first.pos = a.pos := by
        apply ((stmt_performs h n t ht).and (stmt_first n hcursor)).mono
        · rintro a t' ⟨⟨ht', acts, hcomes, hacts⟩, hpos⟩
          exact ⟨ht', acts, hcomes, hacts, hpos⟩
        · exact fun _ _ he => he.1
      apply hstmt.bind
      rintro a inner t₁ ht₁ ⟨⟨hinner, hinit⟩, hpos⟩
      apply (enactTop_performs hinit t₁ ht₁).bind
      rintro _ _ t₂ ht₂ rfl
      apply (ih t₂ ht₂).bind
      intro p acts t₃ ht₃ hacts
      apply performs_pure _ t₃ ht₃
      rw [List.append_nil]
      exact .cons hpos hinner hacts

/-- A whole parse ends with an act of its own. -/
theorem program_performs (n : Nat) :
    Performs o I (Value.KnownFrom W) (Operation.inSteps o .program n) fun p acts =>
      ∃ told, Tells o p told ∧ acts = told ++ [.finish p.length] := by
  have hnote : ∀ p : Program, Performs o I (Value.KnownFrom W)
      (do note o (.parsed p.length (← get).env.functions.length); return p)
      fun q acts => q = p ∧ acts = [.finish p.length] := by
    intro p s hs
    rw [PerformsAt, ends_bind, ends_get, ends_bind]
    apply ends_noted (.finish p.length) rfl rfl rfl
    intro t ht hcomes
    exact ⟨by rwa [ht], _, hcomes, rfl, rfl⟩
  apply (topStmts_performs h n n).bind
  intro p told htold
  apply (hnote p).mono
  rintro _ _ ⟨rfl, rfl⟩
  exact ⟨told, htold, rfl⟩

/-- Whatever is read goes by acts, with success or without. -/
theorem Operation.inSteps_performs (op : Operation) (n : Nat) :
    Performs o I (Value.KnownFrom W) (op.inSteps o n) fun _ _ => True := by
  cases op with
  | program => exact (program_performs h n).mono fun _ _ _ => trivial
  | statement => exact (stmt_performs h n).mono fun _ _ _ => trivial
  | statements => exact (block_performs h (stmt_performs h n) n []).mono fun _ _ _ => trivial
  | expression => exact (lift_performs (h.expr n)).mono fun _ _ _ => trivial
  | typeName => exact (lift_performs (type_draws h.supplies n)).mono fun _ _ _ => trivial

end

end Parse
end Lumen
