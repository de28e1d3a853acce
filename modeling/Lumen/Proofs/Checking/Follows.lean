/-
  Lumen.Proofs.Checking.Follows — a checked run beside an unchecked one.

  A checked run makes its checks as it reads.  An unchecked run makes none; they
  can be made afterwards, in a walk over what was read.  The two are compared
  step by step: whatever the unchecked run has read, the walk over it stands in
  the environment of the checked run, or has found the error with which the
  checked run has ended.

  In the second case the unchecked run is still going on.  Hence the runs are
  compared from any result of the walk, not from an environment only.

  What is known of a walk on the way is a law of its own.  One law has it that the
  environment is as a parse keeps it, so that all errors are static; another says
  nothing, and so the comparison holds in any environment.

  Main statements:
    * `Walk.Law` — what is known of walks, with `Walk.Law.kept` and `Walk.Law.free`;
    * `Follows` — the comparison, with what is known of the walk at the end;
    * `Follows.bind` — a sequence, step by step;
    * `checking_moves` … `enactTop_moves` — the steps that only a checked run takes;
    * `follows_read` … `follows_inScope` — reading, checking, changing the
      environment, and scopes.
-/
import Lumen.Proofs.Checking.Fitting
import Lumen.Parse.Stmt
import Lumen.Proofs.Reading.Ends

namespace Lumen

/-! ## §1. Walks -/

/-- How far a walk over what was read has come: the environment it stands in, or
    the error it has found. -/
abbrev Walk := Except Failure Env

/-- What is said of walks: the environments in which one may stand, with a number of
    inner scopes open, and the failures it may find.  All that a walk does keeps to
    it. -/
structure Walk.Law where
  Stands : Nat → Env → Prop
  Finds : Failure → Prop
  static : ∀ {f}, f.isStatic = true → Finds f
  push : ∀ {inner env}, Stands inner env → Stands (inner + 1) env.push
  pop : ∀ {inner env}, Stands (inner + 1) env → Gives env.pop (Stands inner) Finds
  declareAll : ∀ {inner env} {locals : List Param}, Stands inner env →
    (∀ p ∈ locals, p.type.isDeclarable = true) →
    Gives (orFail (env.declareAll locals)) (Stands inner) Finds
  store : ∀ {inner env} pos name indices value, Stands inner env →
    Gives (orFail (env.store pos name indices value)) (Stands inner) Finds
  enact : ∀ {inner env₀ env} {s : Stmt}, Stands inner env → s.isDeclarable = true →
    s.check env₀ = .ok env → Gives (orFail (env.enact s)) (Stands inner) Finds
  register : ∀ {inner env} f pos, Stands inner env →
    Gives (orFail (env.register f pos)) (Stands inner) Finds

/-- From an environment as a parse keeps it a walk finds static errors only. -/
def Walk.Law.kept : Walk.Law where
  Stands inner env := env.Kept inner
  Finds f := f.isStatic = true
  static h := h
  push h := h.push
  pop h := h.pop.certain
  declareAll h hlocals := gives_orFail.mpr (h.declareAll hlocals).certain
  store pos name indices value h := gives_orFail.mpr (Env.store_kept h pos name indices value)
  enact h hdecl hcheck := gives_orFail.mpr (Stmt.enact_kept h hdecl hcheck).certain
  register f pos h := gives_orFail.mpr (h.register f pos)

/-- Nothing is said of a walk. -/
def Walk.Law.free : Walk.Law where
  Stands _ _ := True
  Finds _ := True
  static _ := trivial
  push _ := trivial
  pop _ := gives_trivial _
  declareAll _ _ := gives_trivial _
  store _ _ _ _ _ := gives_trivial _
  enact _ _ _ := gives_trivial _
  register _ _ _ := gives_trivial _

/-- A walk keeps to a law. -/
def Walk.Sound (L : Walk.Law) (inner : Nat) (r : Walk) : Prop := Gives r (L.Stands inner) L.Finds

theorem Walk.Sound.bind {L : Walk.Law} {inner inner' : Nat} {r : Walk} {k : Env → Walk}
    (h : r.Sound L inner)
    (hk : ∀ env, r = .ok env → L.Stands inner env → (k env).Sound L inner') :
    Walk.Sound L inner' (r >>= k) := by
  cases r with
  | ok env => exact hk env rfl h
  | error f => exact h

/-! ## §2. Two runs -/

namespace Parse

section
variable {α β : Type} {r : Walk} {on : ParseM α} {c : Cursor}

/-- What a checked run ends in that goes on from where a walk stands; it has
    ended already if the walk has found an error. -/
def GoesOn (r : Walk) (on : ParseM α) (c : Cursor) (Q : α → State → Prop) (E : Failure → Prop) :
    Prop :=
  match r with
  | .ok env => ∀ trace, Ends on ⟨c, env, trace⟩ Q fun f _ => E f
  | .error f => E f

/-- A checked run has given `a` at `c'`, and stands where a walk does. -/
def Reached (r : Walk) (a : α) (c' : Cursor) (a' : α) (t : State) : Prop :=
  a' = a ∧ t.cursor = c' ∧ r = .ok t.env

/-- A run that ends as a walk does gives `a` in the environment of the walk, if the walk
    succeeds, and fails if the walk fails. -/
theorem run_of_walk {s : State} {a : α} {c' : Cursor}
    (h : Ends on s (Reached r a c') fun f _ => r = .error f) :
    (∀ env, r = .ok env → ∃ u, on s = .ok a u ∧ u.env = env ∧ u.cursor = c')
      ∧ ∀ f, r = .error f → ∃ u, on s = .error f u := by
  cases hrun : on s with
  | ok b u =>
    obtain ⟨rfl, hcursor, hwalk⟩ := h.of_ok hrun
    rw [hwalk]
    refine ⟨fun env henv => ⟨u, rfl, Except.ok.inj henv, hcursor⟩, fun f hf => ?_⟩
    cases hf
  | error f u =>
    rw [h.of_error hrun]
    refine ⟨fun env henv => ?_, fun f' hf => ⟨u, ?_⟩⟩
    · cases henv
    · rw [Except.error.inj hf]

/-- If the first step comes to where a walk stands, the rest goes on from there. -/
theorem GoesOn.bind {r' : Walk} {a : α} {c' : Cursor} {k : α → ParseM β}
    {Q : β → State → Prop} {E : Failure → Prop}
    (h : GoesOn r on c (Reached r' a c') fun f => r' = .error f)
    (hk : GoesOn r' (k a) c' Q E) : GoesOn r (on >>= k) c Q E := by
  cases r with
  | ok env =>
    intro trace
    rw [ends_bind]
    apply (h trace).mono
    · rintro a' t ⟨ha, hc, hr⟩
      subst ha hc hr
      exact hk t.trace
    · intro f _ hf
      rw [hf] at hk
      exact hk
  | error f =>
    have hf : r' = .error f := h
    rw [hf] at hk
    exact hk

/-- If the first step fails, so does the whole. -/
theorem GoesOn.bind_fails {k : α → ParseM β} {Q : β → State → Prop} {E : Failure → Prop}
    (h : GoesOn r on c (fun _ _ => False) E) : GoesOn r (on >>= k) c Q E := by
  cases r with
  | ok env => exact fun trace => (h trace).bind fun _ _ hfalse => hfalse.elim
  | error f => exact h

/-- A checked run follows an unchecked one from where a walk stands.  Whenever the
    unchecked run gives something, the walk goes on to some place, of which `P`
    tells more, and the checked run comes to the same result there.  Whenever the
    unchecked run fails, the checked one fails likewise, or as walks do. -/
def Follows (L : Walk.Law) (inner : Nat) (r : Walk) (on off : ParseM α) (P : α → Walk → Prop) :
    Prop :=
  ∀ s : State, Ends off s
    (fun a t => ∃ r' : Walk, P a r' ∧ r'.Sound L inner ∧
      GoesOn r on s.cursor (Reached r' a t.cursor) fun f => r' = .error f)
    fun f _ => GoesOn r on s.cursor (fun _ _ => False) fun f' => f' = f ∨ L.Finds f'

end

section
variable {α β : Type} {L : Walk.Law} {inner : Nat} {r : Walk} {P P' : α → Walk → Prop}

theorem Follows.weaken {on off : ParseM α} (h : Follows L inner r on off P)
    (hP : ∀ a r', P a r' → P' a r') : Follows L inner r on off P' := by
  intro s
  apply (h s).weaken
  rintro a t ⟨r', hp, hrest⟩
  exact ⟨r', hP _ _ hp, hrest⟩

/-- A sequence, from where the walk stands after the first step. -/
theorem Follows.bind {on off : ParseM α} {kon koff : α → ParseM β} {Q : β → Walk → Prop}
    {inner' : Nat} (h : Follows L inner r on off P)
    (hk : ∀ a r', P a r' → r'.Sound L inner → Follows L inner' r' (kon a) (koff a) Q) :
    Follows L inner' r (on >>= kon) (off >>= koff) Q := by
  intro s
  rw [ends_bind]
  refine (h s).mono ?_ fun f _ hf => hf.bind_fails
  rintro a t ⟨r', hp, hsound, hon⟩
  apply (hk a r' hp hsound t).mono
  · rintro b u ⟨r'', hq, hsound', hon'⟩
    exact ⟨r'', hq, hsound', hon.bind hon'⟩
  · intro f u hf
    exact hon.bind hf

/-- A first step that only the checked run takes. -/
theorem Follows.bind_left {on : ParseM Unit} {kon : Unit → ParseM β} {off : ParseM β}
    {P : Unit → Walk → Prop} {Q : β → Walk → Prop} {inner' : Nat}
    (h : Follows L inner r on (pure ()) P)
    (hk : ∀ r', P () r' → r'.Sound L inner → Follows L inner' r' (kon ()) off Q) :
    Follows L inner' r (on >>= kon) off Q := by
  have hoff : off = (pure () >>= fun _ => off) := rfl
  rw [hoff]
  exact h.bind fun _ r' => hk r'

theorem follows_pure (hr : r.Sound L inner) {a : α} (hp : P a r) :
    Follows L inner r (pure a) (pure a) P := by
  intro s
  refine ⟨r, hp, hr, ?_⟩
  cases r with
  | ok env => exact fun trace => ⟨rfl, rfl, rfl⟩
  | error f => rfl

theorem follows_throw (hr : r.Sound L inner) (f : Failure) :
    Follows L inner r (throw f) (throw f) P := by
  intro s
  cases r with
  | ok env => exact fun trace => .inl rfl
  | error e => exact .inr hr

/-- Both runs read alike; the walk stays where it is. -/
theorem follows_read (hr : r.Sound L inner) {m : CursorM α} {F : α → Prop}
    (hm : ∀ c, Ends m c (fun a _ => F a) fun _ _ => True) :
    Follows L inner r (liftM m) (liftM m) fun a r' => F a ∧ r' = r := by
  intro s
  rw [ends_lift]
  cases hrun : m s.cursor with
  | ok a c' =>
    refine (ends_ok hrun).mpr ⟨r, ⟨(hm s.cursor).of_ok hrun, rfl⟩, hr, ?_⟩
    cases r with
    | ok env => exact fun trace => ends_lift.mpr ((ends_ok hrun).mpr ⟨rfl, rfl, rfl⟩)
    | error f => rfl
  | error f c' =>
    refine (ends_error hrun).mpr ?_
    cases r with
    | ok env => exact fun trace => ends_lift.mpr ((ends_error hrun).mpr (.inl rfl))
    | error e => exact .inr hr

theorem follows_unexpected (hr : r.Sound L inner) (expected : Expected) :
    Follows L inner r (liftM (CursorM.unexpected (α := α) expected))
      (liftM (CursorM.unexpected (α := α) expected)) P :=
  (follows_read hr (m := CursorM.unexpected (α := α) expected) (F := fun _ => False)
    fun _ => trivial).weaken fun _ _ h => h.1.elim

/-- Both runs give `a` and at most note something. -/
theorem follows_silent (hr : r.Sound L inner) {on off : ParseM α} {a : α} (hp : P a r)
    (hon : ∀ s : State, Ends on s (fun a' t => a' = a ∧ t.cursor = s.cursor ∧ t.env = s.env)
      fun _ _ => False)
    (hoff : ∀ s : State, Ends off s (fun a' t => a' = a ∧ t.cursor = s.cursor ∧ t.env = s.env)
      fun _ _ => False) :
    Follows L inner r on off P := by
  intro s
  refine (hoff s).mono ?_ fun _ _ h => h.elim
  rintro a' t ⟨ha, hc, -⟩
  refine ⟨r, ha ▸ hp, hr, ?_⟩
  cases r with
  | error f => rfl
  | ok env =>
    intro trace
    refine (hon ⟨s.cursor, env, trace⟩).mono ?_ fun _ _ h => h.elim
    rintro b u ⟨hb, hcursor, henv⟩
    exact ⟨hb.trans ha.symm, hcursor.trans hc.symm, congrArg _ henv.symm⟩

/-- Both runs have as many steps. -/
theorem follows_withSteps {readOn readOff : Nat → ParseM α}
    (h : ∀ n, Follows L inner r (readOn n) (readOff n) P) :
    Follows L inner r (withSteps readOn) (withSteps readOff) P := by
  intro s
  unfold withSteps
  rw [ends_bind, ends_get]
  apply (h _ s).mono
  · rintro a t ⟨r', hp, hr', hon⟩
    refine ⟨r', hp, hr', ?_⟩
    cases r with
    | error e => exact hon
    | ok env => exact hon
  · intro f _ hf
    cases r with
    | error e => exact hf
    | ok env => exact hf

/-- A first step that reads, of whose result something is known. -/
theorem follows_read_bind {m : CursorM α} {kon koff : α → ParseM β} {Q : β → Walk → Prop}
    {inner' : Nat} (hr : r.Sound L inner) {F : α → Prop}
    (hm : ∀ c, Ends m c (fun a _ => F a) fun _ _ => True)
    (hk : ∀ a, F a → Follows L inner' r (kon a) (koff a) Q) :
    Follows L inner' r (liftM m >>= kon) (liftM m >>= koff) Q := by
  apply (follows_read hr hm).bind
  rintro a r' ⟨ha, rfl⟩ -
  exact hk a ha

theorem follows_reads_bind {m : CursorM α} {kon koff : α → ParseM β} {Q : β → Walk → Prop}
    {inner' : Nat} (hr : r.Sound L inner) (hk : ∀ a, Follows L inner' r (kon a) (koff a) Q) :
    Follows L inner' r (liftM m >>= kon) (liftM m >>= koff) Q :=
  follows_read_bind hr (fun c => ends_trivial m c) fun a _ => hk a

end

/-! ## §3. Checks and changes

What the unchecked run leaves out is a step of the walk. -/

theorem ends_certain {α : Type} {e : Except Failure α} {s : State} {Q : α → State → Prop}
    {E : Failure → State → Prop} :
    Ends (certain e) s Q E ↔ Gives e (fun a => Q a s) fun f => E f s := by
  cases e <;> exact Iff.rfl

/-- A step of a checked run reads nothing and does to the environment what `change`
    does. -/
def Moves (m : ParseM Unit) (change : Env → Walk) : Prop :=
  ∀ s : State, Ends m s (fun _ t => t.cursor = s.cursor ∧ change s.env = .ok t.env)
    fun f _ => change s.env = .error f

/-- A change that succeeds. -/
theorem Moves.of_ok {m : ParseM Unit} {change : Env → Walk} (hm : Moves m change) {s : State}
    {env : Env} (h : change s.env = .ok env) {E : Failure → State → Prop} :
    Ends m s (fun _ t => t.cursor = s.cursor ∧ t.env = env) E := by
  apply (hm s).mono
  · rintro _ t ⟨hcursor, hchange⟩
    rw [h] at hchange
    exact ⟨hcursor, (Except.ok.inj hchange).symm⟩
  · intro f t hfail
    rw [h] at hfail
    cases hfail

section
variable {α : Type} {o : Options}

/-- A check leaves the environment. -/
theorem checking_moves (hon : o.checked = true) (check : Env → Except ParseError α) :
    Moves (checking o check) fun env => orFail (check env) >>= fun _ => pure env := by
  intro s
  dsimp only
  unfold checking
  rw [if_pos hon, ends_bind, ends_get, ends_bind, ends_certain]
  cases orFail (check s.env) with
  | ok a => exact ⟨rfl, rfl⟩
  | error f => rfl

theorem updating_moves (hon : o.checked = true) (change : Env → Except ParseError Env) :
    Moves (updating o change) fun env => orFail (change env) := by
  intro s
  dsimp only
  unfold updating
  rw [if_pos hon, ends_bind, ends_get, ends_bind, ends_certain]
  cases orFail (change s.env) with
  | ok env => exact ⟨rfl, rfl⟩
  | error f => rfl

theorem enter_moves (o : Options) : Moves (enter o) fun env => pure env.push := by
  intro s
  unfold enter
  rw [ends_bind, ends_modify, ends_bind, ends_get]
  exact ends_note fun trace => ⟨rfl, rfl⟩

theorem leave_moves (o : Options) : Moves (leave o) Env.pop := by
  intro s
  unfold leave
  rw [ends_bind, ends_get, ends_bind, ends_certain]
  cases s.env.pop with
  | error f => rfl
  | ok env =>
    show Ends _ _ _ _
    rw [ends_bind, ends_modify]
    exact ends_note fun trace => ⟨rfl, rfl⟩

theorem register_moves (o : Options) (sig : Signature) (pos : Pos) :
    Moves (register o sig pos) fun env => orFail (env.register sig pos) := by
  intro s
  dsimp only
  unfold register
  rw [ends_bind, ends_get, ends_bind, ends_certain]
  cases orFail (s.env.register sig pos) with
  | error f => rfl
  | ok env =>
    show Ends _ _ _ _
    rw [ends_bind, ends_modify]
    exact ends_note fun trace => ⟨rfl, rfl⟩

/-- A function is registered, any other statement takes effect as in a block. -/
theorem enactTop_moves (hon : o.checked = true) (a : Stmt) :
    Moves (enactTop o a) fun env => orFail (env.enactTop a) := by
  unfold enactTop
  rw [if_pos hon]
  cases a with
  | fn p name ps body => exact register_moves o ⟨name, ps, some body⟩ p
  | _ => exact updating_moves hon (·.enact _)

end

/-- A step that only the checked run takes. -/
theorem follows_step {L : Walk.Law} {inner : Nat} {r : Walk} {m : ParseM Unit}
    {change : Env → Walk} (hsound : Walk.Sound L inner (r >>= change)) (hm : Moves m change) :
    Follows L inner r m (pure ()) fun _ r' => r' = r >>= change := by
  intro s
  refine ⟨_, rfl, hsound, ?_⟩
  cases r with
  -- the walk has failed before, and stays where it is
  | error f => rfl
  | ok env =>
    exact fun trace =>
      (hm ⟨s.cursor, env, trace⟩).weaken fun _ t h => ⟨rfl, h⟩

section
variable {α : Type} {L : Walk.Law} {inner : Nat} {r : Walk} {on off : Options}
  (hon : on.checked = true) (hoff : off.checked = false) (hr : r.Sound L inner)
include hon hr

/-- A check leaves the environment. -/
theorem follows_checking_left {check : Env → Except ParseError α}
    (hcheck : ∀ env, GivesStatic (check env) fun _ => True) :
    Follows L inner r (checking on check) (pure ())
      fun _ r' => r' = r >>= fun env => orFail (check env) >>= fun _ => pure env := by
  refine follows_step (hr.bind fun env _ henv => ?_) (checking_moves hon check)
  exact (gives_orFail.mpr ((hcheck env).mono (fun _ h => h) fun _ h => L.static h)).bind
    fun _ _ => henv

theorem follows_updating_left {change : Env → Except ParseError Env}
    (hchange : ∀ env, r = .ok env → L.Stands inner env →
      Walk.Sound L inner (orFail (change env))) :
    Follows L inner r (updating on change) (pure ())
      fun _ r' => r' = r >>= fun env => orFail (change env) :=
  follows_step (hr.bind hchange) (updating_moves hon change)

include hoff

theorem follows_checking {check : Env → Except ParseError α}
    (hcheck : ∀ env, GivesStatic (check env) fun _ => True) :
    Follows L inner r (checking on check) (checking off check)
      fun _ r' => r' = r >>= fun env => orFail (check env) >>= fun _ => pure env := by
  have hnothing : checking off check = pure () := funext fun s => checking_off hoff check s
  rw [hnothing]
  exact follows_checking_left hon hr hcheck

theorem follows_updating {change : Env → Except ParseError Env}
    (hchange : ∀ env, r = .ok env → L.Stands inner env →
      Walk.Sound L inner (orFail (change env))) :
    Follows L inner r (updating on change) (updating off change)
      fun _ r' => r' = r >>= fun env => orFail (change env) := by
  have hnothing : updating off change = pure () := funext fun s => updating_off hoff change s
  rw [hnothing]
  exact follows_updating_left hon hr hchange

end

/-! ## §4. Scopes and functions -/

section
variable {α : Type} {L : Walk.Law} {inner : Nat} {r : Walk} {on off : Options}

/-- A scope is entered before something is read, and left after it. -/
theorem follows_inScope (hon : on.checked = true) (hoff : off.checked = false)
    (hr : r.Sound L inner) {locals : List Param}
    (hlocals : ∀ p ∈ locals, p.type.isDeclarable = true)
    {bodyOn bodyOff : ParseM α} {P : α → Walk → Prop}
    (hbody : ∀ r₁ : Walk, r₁.Sound L (inner + 1) →
      (r₁ = r >>= fun env => orFail (env.push.declareAll locals)) →
      Follows L (inner + 1) r₁ bodyOn bodyOff P) :
    Follows L inner r (inScope on locals bodyOn) (inScope off locals bodyOff)
      fun a r' => ∃ r₂ : Walk, P a r₂ ∧ r' = r₂ >>= Env.pop := by
  -- the unchecked run reads the body and does nothing before or after it
  rw [inScope_off hoff, ← bind_pure bodyOff]
  unfold inScope
  rw [if_pos hon]
  have henter : Walk.Sound L (inner + 1) (r >>= fun env => pure env.push) :=
    hr.bind fun env _ henv => L.push henv
  apply (follows_step henter (enter_moves on)).bind_left
  intro r₁ h₁ hr₁
  have hchange : ∀ env, r₁ = .ok env → L.Stands (inner + 1) env →
      Walk.Sound L (inner + 1) (orFail (env.declareAll locals)) :=
    fun env _ henv => L.declareAll henv hlocals
  apply (follows_updating_left hon hr₁ hchange).bind_left
  intro r₂ h₂ hr₂
  have hstart : r₂ = r >>= fun env => orFail (env.push.declareAll locals) := by
    rw [h₂, h₁]
    cases r <;> rfl
  apply (hbody r₂ hr₂ hstart).bind
  intro a r₃ hp hr₃
  have hleave : Walk.Sound L inner (r₃ >>= Env.pop) := hr₃.bind fun env _ henv => L.pop henv
  apply (follows_step hleave (leave_moves on)).bind_left
  intro r₄ h₄ hr₄
  exact follows_pure hr₄ ⟨r₃, hp, h₄⟩

/-- A completed statement at top level takes effect. -/
theorem follows_enactTop (hon : on.checked = true) (hoff : off.checked = false)
    (hr : r.Sound L inner) {a : Stmt} (ha : ∀ env, r = .ok env → L.Stands inner env →
      Walk.Sound L inner (orFail (env.enact a))) :
    Follows L inner r (enactTop on a) (enactTop off a)
      fun _ r' => r' = r >>= fun env => orFail (env.enactTop a) := by
  rw [enactTop_off hoff]
  refine follows_step (hr.bind fun env henv hstands => ?_) (enactTop_moves hon a)
  cases a with
  | fn p name ps body => exact L.register ⟨name, ps, some body⟩ p hstands
  | _ => exact ha env henv hstands

end

end Parse
end Lumen
