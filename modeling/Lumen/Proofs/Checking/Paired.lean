/-
  Lumen.Proofs.Checking.Paired — two runs side by side.

  Two parsers stand at the same place of the same tokens, in environments that are
  related.  If related environments judge alike, and every change of both leaves
  them related, then the runs go together: they read the same or fail in the same
  way, they come to the same place, and the environments are related again.

  A relation may count the scopes that have been opened in both runs.  Entering
  adds one, leaving takes one away, and a reader that succeeds has left all that it
  entered; a reader that fails may be anywhere.  What is noted down on the way
  plays no part.

  Main statements:
    * `Paired` — a relation that all changes keep;
    * `Pairs` — two readers go together, with `Pairs.bind` for a sequence;
    * `inScope_pairs` — a block opens a scope in both and closes it again;
    * `pairs_congruence` — readers go together if all their parts do;
    * `statement_pairs` / `program_pairs` — statements and programs;
    * `agreeing_runs` — functions and nearest types are all that runs depend on.
-/
import Lumen.Proofs.Scoping.Agreement
import Lumen.Proofs.Reading.Congruence

namespace Lumen

/-! ## §1. Related environments -/

/-- A relation of environments with `n` scopes opened in both that makes them judge
    alike and is kept by every change. -/
structure Paired (R : Nat → Env → Env → Prop) : Prop where
  agrees : ∀ {n a b}, R n a b → a.Agrees b
  push : ∀ {n a b}, R n a b → R (n + 1) a.push b.push
  pop : ∀ {n a b}, R (n + 1) a b → ∃ a' b', a.pop = .ok a' ∧ b.pop = .ok b' ∧ R n a' b'
  declare : ∀ {n a b a' b' name type value}, R n a b → a.declare name type value = .ok a' →
    b.declare name type value = .ok b' → R n a' b'
  assign : ∀ {n a b a' b' name value pos}, R n a b → a.assign name value pos = .ok a' →
    b.assign name value pos = .ok b' → R n a' b'
  register : ∀ {n a b a' b'} {f : Signature} {pos}, R n a b → a.register f pos = .ok a' →
    b.register f pos = .ok b' → R n a' b'

theorem stacked_paired : Paired Stacked where
  agrees := Stacked.agrees
  push := Stacked.push
  pop := Stacked.pop
  declare h ha hb := h.declare ha hb
  assign h ha hb := h.assign ha hb
  register h ha hb := h.register ha hb

namespace Paired

variable {R : Nat → Env → Env → Prop} (hR : Paired R) {n : Nat} {a b : Env}
include hR

theorem declare_alike (h : R n a b) (name : Bytes) (type : Ty) (value : Value) :
    Concur (R n) (a.declare name type value) (b.declare name type value) :=
  (Env.declare_alike a b name type value).of_ok fun _ _ ha hb => hR.declare h ha hb

theorem declareAll_alike (h : R n a b) (locals : List Param) :
    Concur (R n) (a.declareAll locals) (b.declareAll locals) := by
  unfold Env.declareAll
  induction locals generalizing a b with
  | nil => exact .ok h
  | cons p rest ih =>
    rw [List.foldlM_cons, List.foldlM_cons]
    exact (hR.declare_alike h p.name p.type .unknown).bind fun _ _ h' => ih h'

theorem store_alike (h : R n a b) (pos : Pos) (name : Bytes) (indices : List Expr)
    (value : Expr) :
    Concur (R n) (a.store pos name indices value) (b.store pos name indices value) := by
  apply Env.store_alike (hR.agrees h)
  intro v
  exact (Env.assign_alike (hR.agrees h) name v (some pos)).of_ok fun _ _ ha hb =>
    hR.assign h ha hb

theorem enact_alike (h : R n a b) (s : Stmt) : Concur (R n) (a.enact s) (b.enact s) := by
  cases s with
  | let_ p name type init => exact hR.declare_alike h name type init.constant
  | _ => exact .ok h

theorem change_alike {change : Env → Except ParseError Env} (hchange : Parse.IsChange change)
    (h : R n a b) : Concur (R n) (change a) (change b) := by
  cases hchange with
  | enact s => exact hR.enact_alike h s
  | store pos name path value => exact hR.store_alike h pos name path value

theorem register_alike (h : R n a b) (f : Signature) (pos : Pos) :
    Concur (R n) (a.register f pos) (b.register f pos) :=
  (Env.register_alike (hR.agrees h) f pos).of_ok fun _ _ ha hb => hR.register h ha hb

end Paired

/-! ## §2. Runs that go together -/

namespace Parse
open CursorM

/-- A check comes out alike in environments that agree. -/
theorem IsCheck.alike {α : Type} {check : Env → Except ParseError α} (hcheck : IsCheck check)
    {a b : Env} (h : a.Agrees b) : check a = check b := by
  cases hcheck with
  | infer e => exact infer_alike h e
  | type type e name => exact checkType_alike h type e name
  | truth cond => exact Env.checkTruth_alike h cond
  | bounds var start stop => exact Env.checkBounds_alike h var start stop

section
variable {α β : Type}

/-- Two runs have come to the same end at the same place, in environments that are
    related by `Q` if they have succeeded and by `E` if they have failed. -/
inductive EndAlike (Q E : Env → Env → Prop) :
    EStateM.Result Failure State α → EStateM.Result Failure State α → Prop
  | ok {a : α} {s t : State} (hcursor : s.cursor = t.cursor) (henv : Q s.env t.env) :
    EndAlike Q E (.ok a s) (.ok a t)
  | error {f : Failure} {s t : State} (hcursor : s.cursor = t.cursor) (henv : E s.env t.env) :
    EndAlike Q E (.error f s) (.error f t)

variable {R : Nat → Env → Env → Prop} {n k l : Nat}

/-- Two readers go together, from environments that are related with `n` scopes opened
    to such with `k`. -/
def Pairs (R : Nat → Env → Env → Prop) (n k : Nat) (m m' : ParseM α) : Prop :=
  ∀ s s' : State, s.cursor = s'.cursor → R n s.env s'.env →
    EndAlike (R k) (fun a b => ∃ i, R i a b) (m s) (m' s')

theorem pairs_pure (a : α) : Pairs R n n (pure a) (pure a) :=
  fun _ _ hcursor henv => .ok hcursor henv

theorem pairs_throw (f : Failure) : Pairs R n n (throw f : ParseM α) (throw f) :=
  fun _ _ hcursor henv => .error hcursor ⟨n, henv⟩

theorem Pairs.bind {m m' : ParseM α} {g g' : α → ParseM β} (hm : Pairs R n k m m')
    (hg : ∀ a, Pairs R k l (g a) (g' a)) : Pairs R n l (m >>= g) (m' >>= g') := by
  intro s s' hcursor henv
  have hfirst := hm s s' hcursor henv
  show EndAlike _ _ (EStateM.bind m g s) (EStateM.bind m' g' s')
  unfold EStateM.bind
  revert hfirst
  generalize m s = r, m' s' = r'
  intro hfirst
  -- the second readers start at one place again, in related environments
  cases hfirst with
  | ok hcursor henv => exact hg _ _ _ hcursor henv
  | error hcursor henv => exact .error hcursor henv

/-- Tokens are read alike from the same place. -/
theorem lift_pairs (m : CursorM α) : Pairs R n n (liftM m) (liftM m) := by
  intro s s' hcursor henv
  show EndAlike _ _ (onCursor m s) (onCursor m s')
  unfold onCursor
  rw [← hcursor]
  cases m s.cursor with
  | ok a c => exact .ok rfl henv
  | error f c => exact .error rfl ⟨n, henv⟩

/-- What is noted down, by one run or by both, is of no consequence. -/
theorem note_pairs (o o' : Options) (e e' : Event) : Pairs R n n (note o e) (note o' e') := by
  intro s s' hcursor henv
  have hnote : ∀ (o : Options) (e : Event) (s : State), ∃ t : State,
      note o e s = .ok () t ∧ t.cursor = s.cursor ∧ t.env = s.env := by
    intro o e s
    unfold note
    split
    · exact ⟨_, rfl, rfl, rfl⟩
    · exact ⟨_, rfl, rfl, rfl⟩
  obtain ⟨t, ht, hc, he⟩ := hnote o e s
  obtain ⟨t', ht', hc', he'⟩ := hnote o' e' s'
  rw [ht, ht']
  refine .ok ?_ ?_
  · rw [hc, hc', hcursor]
  · rw [he, he']
    exact henv

/-- A change of the environment that may fail. -/
theorem change_pairs {change change' : Env → Except Failure Env}
    (hchange : ∀ a b, R n a b → Concur (R k) (change a) (change' b)) :
    Pairs R n k (do
        let env ← certain (change (← get).env)
        modify fun s => { s with env })
      (do
        let env ← certain (change' (← get).env)
        modify fun s => { s with env }) := by
  intro s s' hcursor henv
  have hresult := hchange s.env s'.env henv
  show EndAlike _ _
    (EStateM.bind (certain (change s.env)) (fun env => modify fun s => { s with env }) s)
    (EStateM.bind (certain (change' s'.env)) (fun env => modify fun s => { s with env }) s')
  revert hresult
  generalize change s.env = r, change' s'.env = r'
  intro hresult
  cases hresult with
  | ok h => exact .ok hcursor h
  | error f => exact .error hcursor ⟨n, henv⟩

theorem alike_orFail {R : Env → Env → Prop} {r r' : Except ParseError Env} (h : Concur R r r') :
    Concur R (orFail r) (orFail r') := by
  cases h with
  | ok h => exact .ok h
  | error e => exact .error _

end

/-! ## §3. Checks, changes and scopes -/

section
variable {α β : Type} {R : Nat → Env → Env → Prop} {n : Nat} {o o' : Options}
  (ho : o.checked = o'.checked) (hR : o.checked = true → Paired R)
include ho hR

/-- A check that comes out alike. -/
theorem checking_pairs {check : Env → Except ParseError α}
    (hcheck : ∀ a b : Env, a.Agrees b → check a = check b) :
    Pairs R n n (checking o check) (checking o' check) := by
  unfold checking
  rw [← ho]
  split
  · next hon =>
    intro s s' hcursor henv
    show EndAlike _ _ (EStateM.bind (certain (orFail (check s.env))) (fun _ => pure ()) s)
      (EStateM.bind (certain (orFail (check s'.env))) (fun _ => pure ()) s')
    rw [← hcheck _ _ ((hR hon).agrees henv)]
    cases check s.env with
    | ok a => exact .ok hcursor henv
    | error e => exact .error hcursor ⟨n, henv⟩
  · exact pairs_pure ()

/-- A change that only checked runs make. -/
theorem updating_pairs {change : Env → Except ParseError Env}
    (hchange : Paired R → ∀ a b, R n a b → Concur (R n) (change a) (change b)) :
    Pairs R n n (updating o change) (updating o' change) := by
  unfold updating
  rw [← ho]
  split
  · next hon => exact change_pairs fun a b h => alike_orFail (hchange (hR hon) a b h)
  · exact pairs_pure ()

omit ho hR in
theorem enter_pairs (hP : Paired R) : Pairs R n (n + 1) (enter o) (enter o') := by
  intro s s' hcursor henv
  exact note_pairs o o' (.entered s.env.push.depth) (.entered s'.env.push.depth)
    { s with env := s.env.push } { s' with env := s'.env.push } hcursor (hP.push henv)

omit ho hR in
theorem leave_pairs (hP : Paired R) : Pairs R (n + 1) n (leave o) (leave o') := by
  have hleave : ∀ (o : Options) {s : State} {outer : Env}, s.env.pop = .ok outer →
      leave o s = note o (.left outer.depth) { s with env := outer } := by
    intro o s outer hpop
    show EStateM.bind (certain s.env.pop) _ s = _
    rw [hpop]
    rfl
  intro s s' hcursor henv
  obtain ⟨a, b, ha, hb, henv'⟩ := hP.pop henv
  rw [hleave o ha, hleave o' hb]
  exact note_pairs o o' _ _ { s with env := a } { s' with env := b } hcursor henv'

omit ho hR in
theorem register_pairs (hP : Paired R) (f : Signature) (pos : Pos) :
    Pairs R n n (register o f pos) (register o' f pos) := by
  intro s s' hcursor henv
  have hresult := hP.register_alike henv f pos
  show EndAlike _ _ (EStateM.bind (certain (orFail (s.env.register f pos))) _ s)
    (EStateM.bind (certain (orFail (s'.env.register f pos))) _ s')
  revert hresult
  generalize s.env.register f pos = r, s'.env.register f pos = r'
  intro hresult
  cases hresult with
  | @ok a b h =>
    exact note_pairs o o' (.registered f.name f.params.length)
      (.registered f.name f.params.length) { s with env := a } { s' with env := b } hcursor h
  | error e => exact .error hcursor ⟨n, henv⟩

/-- A scope of its own is entered and left in both runs. -/
theorem inScope_pairs (locals : List Param) {body body' : ParseM α}
    (hbody : ∀ n, Pairs R n n body body') :
    Pairs R n n (inScope o locals body) (inScope o' locals body') := by
  unfold inScope
  rw [← ho]
  split
  · next hon =>
    apply (enter_pairs (hR hon)).bind
    intro _
    apply (updating_pairs ho hR fun hP a b h => hP.declareAll_alike h locals).bind
    intro _
    -- the body runs with one scope more in both, and is left with as many
    apply (hbody (n + 1)).bind
    intro a
    exact (leave_pairs (hR hon)).bind fun _ => pairs_pure a
  · exact hbody n

theorem enactTop_pairs (a : Stmt) : Pairs R n n (enactTop o a) (enactTop o' a) := by
  unfold enactTop
  rw [← ho]
  split
  · next hon =>
    split
    · exact register_pairs (hR hon) _ _
    · exact updating_pairs ho hR fun hP _ _ h => hP.enact_alike h _
  · exact pairs_pure ()

/-! ## §4. Statements

The statements in blocks are read with some more scopes opened, but as many are
opened after each as before. -/

/-- Readers go together if all that they are made of does, with any number of scopes
    opened. -/
theorem pairs_congruence : StmtCongruence o o' Eq (fun _ m m' => m = m')
    fun _ m m' => ∀ n, Pairs R n n m m' where
  toCongruence := congruence_of_eq (fun a _ => pairs_pure a) (fun f _ => pairs_throw f)
    fun hm hk n => (hm n).bind fun a => hk a n
  tokens := eq_tokenCongruence
  ofTokens hm _ := hm ▸ lift_pairs _
  ofCheck hcheck _ := checking_pairs ho hR fun _ _ h => hcheck.alike h
  ofChange hchange _ := updating_pairs ho hR fun hP _ _ h => hP.change_alike hchange h
  ofScope locals _ _ hbody _ := inScope_pairs ho hR locals hbody
  ofNote e _ := note_pairs o o' e e
  ofEnactTop a _ := enactTop_pairs ho hR a

/-! ## §5. Readers that need no count of steps -/

omit ho hR in
/-- As much is left to read at the same place. -/
theorem withSteps_pairs {read read' : Nat → ParseM α}
    (hread : ∀ steps, Pairs R n n (read steps) (read' steps)) :
    Pairs R n n (withSteps read) (withSteps read') := by
  intro s s' hcursor henv
  show EndAlike _ _ (read (s.cursor.weight + 1) s) (read' (s'.cursor.weight + 1) s')
  rw [hcursor]
  exact hread _ s s' hcursor henv

theorem statement_pairs : Pairs R n n (statement o) (statement o') :=
  withSteps_pairs fun steps => stmt_congr (pairs_congruence ho hR) (Eq.refl steps) n

theorem statements_pairs : Pairs R n n (statements o) (statements o') :=
  withSteps_pairs fun steps => stmtBlock_congr (pairs_congruence ho hR) (Eq.refl steps) [] n

theorem program_pairs : Pairs R n n (program o) (program o') := by
  unfold program
  apply (withSteps_pairs fun steps =>
    topStmts_congr (pairs_congruence ho hR) (Eq.refl steps) (Eq.refl steps) n).bind
  intro p s s' hcursor henv
  exact (note_pairs o o' _ _).bind (fun _ => pairs_pure p) s s' hcursor henv

omit ho hR in
theorem expression_pairs : Pairs R n n expression expression :=
  withSteps_pairs fun _ => lift_pairs _

omit ho hR in
theorem typeName_pairs : Pairs R n n typeName typeName := withSteps_pairs fun _ => lift_pairs _

end

/-! ## §6. What runs depend on

Of an environment, checked runs see the functions and the type of the nearest binding
of each name.  They see no values, no shadowed bindings, and not how many scopes
there are. -/

theorem EndAlike.weaken {α : Type} {Q Q' E E' : Env → Env → Prop}
    {r r' : EStateM.Result Failure State α} (h : EndAlike Q E r r')
    (hQ : ∀ a b, Q a b → Q' a b) (hE : ∀ a b, E a b → E' a b) : EndAlike Q' E' r r' := by
  cases h with
  | ok hcursor henv => exact .ok hcursor (hQ _ _ henv)
  | error hcursor henv => exact .error hcursor (hE _ _ henv)

/-- Readers that go together from stacked environments do so from any that agree. -/
theorem Pairs.of_agrees {α : Type} {m m' : ParseM α} (h : Pairs Stacked 0 0 m m') {s s' : State}
    (hcursor : s.cursor = s'.cursor) (henv : s.env.Agrees s'.env) :
    EndAlike Env.Agrees Env.Agrees (m s) (m' s') := by
  apply (h s s' hcursor (.of_agrees henv)).weaken
  · exact fun _ _ hstacked => hstacked.agrees
  · rintro _ _ ⟨_, hstacked⟩
    exact hstacked.agrees

/-- From the same place, in environments that agree, two checked parsers read the same
    or fail in the same way, and come to the same place in environments that agree. -/
theorem agreeing_runs {o o' : Options} (ho : o.checked = true) (ho' : o'.checked = true)
    {s s' : State} (hcursor : s.cursor = s'.cursor) (henv : s.env.Agrees s'.env) :
    EndAlike Env.Agrees Env.Agrees (program o s) (program o' s')
      ∧ EndAlike Env.Agrees Env.Agrees (statement o s) (statement o' s')
      ∧ EndAlike Env.Agrees Env.Agrees (statements o s) (statements o' s')
      ∧ EndAlike Env.Agrees Env.Agrees (expression s) (expression s')
      ∧ EndAlike Env.Agrees Env.Agrees (typeName s) (typeName s') := by
  have hsame : o.checked = o'.checked := ho.trans ho'.symm
  have hR : o.checked = true → Paired Stacked := fun _ => stacked_paired
  exact ⟨(program_pairs hsame hR).of_agrees hcursor henv,
    (statement_pairs hsame hR).of_agrees hcursor henv,
    (statements_pairs hsame hR).of_agrees hcursor henv,
    expression_pairs.of_agrees hcursor henv, typeName_pairs.of_agrees hcursor henv⟩

/-- `x = 7`, where `x` is a known integer that hides a string, and where it is an
    integer of which nothing is known. -/
theorem agreeing_runs_hidden :
    let x : Bytes := ascii "x"
    let tokens : List Token :=
      [⟨.ident x, ⟨0, 1, 1⟩⟩, ⟨.mark .equal, ⟨2, 1, 3⟩⟩, ⟨.literal (.int 7), ⟨4, 1, 5⟩⟩,
        ⟨.eof, ⟨5, 1, 6⟩⟩]
    let inner : Env := ⟨⟨[[(x, ⟨.int, .scalar (.int 5)⟩)]], [(x, ⟨.string, .unknown⟩)]⟩, []⟩
    let outer : Env := ⟨⟨[], [(x, ⟨.int, .unknown⟩)]⟩, []⟩
    inner.Agrees outer
      ∧ EndAlike Env.Agrees Env.Agrees (statement {} ⟨.ofTokens tokens, inner, #[]⟩)
        (statement {} ⟨.ofTokens tokens, outer, #[]⟩) := by
  intro x tokens inner outer
  -- the string is hidden: under its name both environments know an integer
  have hagrees : inner.Agrees outer := by
    refine ⟨rfl, ?_⟩
    funext name
    by_cases hname : x = name
    · subst hname
      rfl
    · simp [Env.type?, Env.lookup?, ScopeStack.lookup?, ScopeStack.scopes, Scope.find?, inner,
        outer, hname]
  have hruns := @agreeing_runs {} {} rfl rfl ⟨.ofTokens tokens, inner, #[]⟩
    ⟨.ofTokens tokens, outer, #[]⟩ rfl hagrees
  exact ⟨hagrees, hruns.2.1⟩

end Parse
end Lumen
